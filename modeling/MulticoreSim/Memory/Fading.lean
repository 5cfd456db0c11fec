import MulticoreSim.Memory.Landing

/-! # What a call brings into a cache

A cache comes to hold a block, or to hold it dirty, only by a call for that block: a
fill, or an access that is answered from below. Every other line stays or goes.
-/

namespace Memory

section

variable {α : Type} {p q : α → Bool}

/-- Erasing an element that a scan passes over leaves the scan alone. -/
theorem find_eraseP_apart (apart : ∀ x, q x = true → p x = false) (l : List α) :
    (l.eraseP q).find? p = l.find? p := by
  induction l with
  | nil => rfl
  | cons x l ih =>
      by_cases here : q x = true
      · rw [List.eraseP_cons_of_pos here, List.find?_cons_of_neg (by simp [apart x here])]
      · rw [List.eraseP_cons_of_neg here, List.find?_cons, List.find?_cons, ih]

end

namespace Cache

variable {c c' c'' : Cache} {B X : Nat} {line : TagMeta}

/-- The line a scan for the block stops at. -/
def found (c : Cache) (B : Nat) : Option TagMeta := (c.set B).find? (c.isLine B)

/-- The line a scan for the block stops at is dirty. -/
def isDirty (c : Cache) (B : Nat) : Bool := (c.found B).any (·.dirty)

theorem isInCache_iff_found : c.isInCache B = true ↔ ∃ line, c.found B = some line := by
  rw [isInCache_eq, Option.isSome_iff_exists]
  rfl

theorem isDirty_iff_found : c.isDirty B = true ↔ ∃ line, c.found B = some line ∧ line.dirty = true := by
  simp [isDirty, Option.any_eq_true]

/-- What `c'` holds of the block, `c` holds too, and dirty where `c'` does. -/
def Fades (c c' : Cache) (B : Nat) : Prop :=
  ∀ line', c'.found B = some line' →
    ∃ line, c.found B = some line ∧ (line'.dirty = true → line.dirty = true)

namespace Fades

theorem refl (c : Cache) (B : Nat) : Fades c c B := fun line here => ⟨line, here, id⟩

theorem trans (first : Fades c c' B) (second : Fades c' c'' B) : Fades c c'' B := by
  intro line'' here
  obtain ⟨line', there, dirty⟩ := second line'' here
  obtain ⟨line, old, dirty'⟩ := first line' there
  exact ⟨line, old, dirty' ∘ dirty⟩

theorem resident (fades : Fades c c' B) (here : c'.isInCache B = true) : c.isInCache B = true := by
  obtain ⟨line', there⟩ := isInCache_iff_found.mp here
  obtain ⟨line, old, -⟩ := fades line' there
  exact isInCache_iff_found.mpr ⟨line, old⟩

theorem dirty (fades : Fades c c' B) (here : c'.isDirty B = true) : c.isDirty B = true := by
  obtain ⟨line', there, dirty⟩ := isDirty_iff_found.mp here
  obtain ⟨line, old, kept⟩ := fades line' there
  exact isDirty_iff_found.mpr ⟨line, old, kept dirty⟩

end Fades

/-! ## Rows -/

theorem found_of_same (cfg : c'.cfg = c.cfg) (rows : c'.rows = c.rows) (B : Nat) :
    c'.found B = c.found B := by
  rw [found, found, isLine_of_cfg cfg, set, set, getIndex_of_cfg cfg, rows]

theorem fades_of_same (cfg : c'.cfg = c.cfg) (rows : c'.rows = c.rows) (B : Nat) : Fades c c' B := by
  intro line here
  rw [found_of_same cfg rows] at here
  exact ⟨line, here, id⟩

theorem found_setRow (c : Cache) (B X : Nat) (row : List TagMeta) :
    (c.setRow B row).found X =
      if c.getIndex X = c.getIndex B then row.find? (c.isLine X) else c.found X := by
  have scan : (c.setRow B row).found X = ((c.setRow B row).rows (c.getIndex X)).find? (c.isLine X) := rfl
  rw [scan, setRow_rows]
  split <;> rfl

/-- A line of another block of the set is passed over. -/
theorem isLine_apart (ne : X ≠ B) (index : c.getIndex X = c.getIndex B) (tag : line.tag = c.getTag B) :
    c.isLine X line = false := by
  by_contra here
  rw [Bool.not_eq_false, isLine, Bool.and_eq_true, beq_iff_eq] at here
  exact ne (block_unique (here.1.symm.trans tag) index)

theorem tag_of_isLine (here : c.isLine B line = true) : line.tag = c.getTag B := by
  rw [isLine, Bool.and_eq_true, beq_iff_eq] at here
  exact here.1

theorem find_erase_apart (ne : X ≠ B) (index : c.getIndex X = c.getIndex B) (row : List TagMeta) :
    (row.eraseP (c.isLine B)).find? (c.isLine X) = row.find? (c.isLine X) :=
  find_eraseP_apart (fun _ here => isLine_apart ne index (tag_of_isLine here)) row

/-- A rewriting that leaves the line where scans find it. -/
def InPlace (f : TagMeta → TagMeta) : Prop :=
  ∀ line, (f line).tag = line.tag ∧ (f line).valid = line.valid

theorem found_promote_apart (ne : X ≠ B) {f : TagMeta → TagMeta} (stays : InPlace f) :
    (c.promote B f).found X = c.found X := by
  unfold promote
  split
  · rfl
  · next line here =>
      rw [found_setRow]
      split
      · next index =>
          have own := (stays line).1.trans (tag_of_isLine (List.find?_some here))
          rw [List.find?_cons_of_neg (by simp [isLine_apart ne index own]), find_erase_apart ne index,
            found, set, set, index]
      · rfl

/-- Moving a line to the front, no dirtier. -/
theorem fades_promote {f : TagMeta → TagMeta} (stays : InPlace f)
    (clean : X = B → ∀ line, (f line).dirty = true → line.dirty = true) : Fades c (c.promote B f) X := by
  by_cases eq : X = B
  · subst eq
    unfold promote
    split
    · exact .refl c X
    · next line here =>
        have still : c.isLine X (f line) = true := by
          have own := List.find?_some here
          rwa [isLine, (stays line).1, (stays line).2]
        intro line' there
        rw [found_setRow, if_pos rfl, List.find?_cons_of_pos still] at there
        cases there
        exact ⟨line, here, clean rfl line⟩
  · intro line here
    rw [found_promote_apart eq stays] at here
    exact ⟨line, here, id⟩

/-- A line that is promoted was there. -/
theorem resident_of_promote {f : TagMeta → TagMeta} (stays : InPlace f)
    (here : (c.promote B f).isInCache X = true) : c.isInCache X = true := by
  by_cases eq : X = B
  · subst eq
    unfold promote at here
    split at here
    · exact here
    · next line found => exact isInCache_iff_found.mpr ⟨line, found⟩
  · obtain ⟨line, there⟩ := isInCache_iff_found.mp here
    rw [found_promote_apart eq stays] at there
    exact isInCache_iff_found.mpr ⟨line, there⟩

/-- Dropping the last line of a set. -/
theorem fades_dropLast (c : Cache) (B X : Nat) : Fades c (c.setRow B (c.set B).dropLast) X := by
  intro line here
  rw [found_setRow] at here
  split at here
  · next index =>
      refine ⟨line, ?_, id⟩
      rw [found, set, index]
      exact (List.dropLast_prefix _).find?_eq_some here
  · exact ⟨line, here, id⟩

theorem fades_invalidate (ne : X ≠ B) : Fades c (c.coherenceInvalidate B) X := by
  unfold coherenceInvalidate
  split
  · intro line here
    have same : ((c.setRow B ((c.set B).eraseP (c.isLine B))).bump fun st =>
        { st with coherenceInvals := st.coherenceInvals + 1 }).found X =
        (c.setRow B ((c.set B).eraseP (c.isLine B))).found X := found_of_same rfl rfl X
    rw [same, found_setRow] at here
    split at here
    · next index =>
        rw [find_erase_apart ne index, set, ← index] at here
        exact ⟨line, here, id⟩
    · exact ⟨line, here, id⟩
  · exact .refl c X

/-- What is left after an invalidation was there. -/
theorem resident_of_invalidate (here : (c.coherenceInvalidate B).isInCache X = true) :
    c.isInCache X = true := by
  by_cases eq : X = B
  · subst eq
    unfold coherenceInvalidate at here
    split at here
    · next there => exact there
    · exact here
  · exact (fades_invalidate eq).resident here

theorem found_mark (c : Cache) (B X : Nat) (dirty : Bool) :
    ((c.coherenceMark B dirty).found X).map (fun l => (l.tag, l.valid)) =
      (c.found X).map fun l => (l.tag, l.valid) := by
  rw [coherenceMark, found_setRow]
  split
  · next index =>
      rw [found, set, set, index]
      exact find_modifyFirst _ fun _ _ _ => ⟨rfl, fun _ => rfl⟩
  · rfl

theorem resident_of_mark {dirty : Bool} (here : (c.coherenceMark B dirty).isInCache X = true) :
    c.isInCache X = true := by
  obtain ⟨line, there⟩ := isInCache_iff_found.mp here
  have same := found_mark c B X dirty
  rw [there] at same
  obtain ⟨line', old, -⟩ := Option.map_eq_some_iff.mp same.symm
  exact isInCache_iff_found.mpr ⟨line', old⟩

/-- Marking a line of another block. -/
theorem fades_mark (ne : X ≠ B) (dirty : Bool) : Fades c (c.coherenceMark B dirty) X := by
  intro line here
  rw [coherenceMark, found_setRow] at here
  split at here
  · next index =>
      have same : ∀ x ∈ c.set B, c.isLine B x = true →
          c.isLine X { x with dirty } = c.isLine X x ∧
            (c.isLine X x = true → id { x with dirty } = id x) := by
        intro x _ own
        refine ⟨rfl, fun own' => ?_⟩
        cases own'.symm.trans (isLine_apart ne index (tag_of_isLine own))
      have kept := find_modifyFirst (g := id) (c.set B) same
      rw [Option.map_id, id, id, here] at kept
      refine ⟨line, ?_, id⟩
      rw [found, set, index]
      exact kept.symm
  · exact ⟨line, here, id⟩

/-- A line that was marked clean is clean. -/
theorem isDirty_clean (c : Cache) (B : Nat) : (c.coherenceMark B false).isDirty B = false := by
  rw [isDirty, coherenceMark, found_setRow, if_pos rfl]
  cases here : (c.set B).find? (c.isLine B) with
  | none =>
      have none := (find_modifyFirst (f := fun l : TagMeta => { l with dirty := false })
        (p := c.isLine B) (q := c.isLine B) (g := fun l : TagMeta => l.tag) (c.set B)
        fun _ _ _ => ⟨rfl, fun _ => rfl⟩)
      rw [here] at none
      rw [Option.map_eq_none_iff.mp none]
      rfl
  | some line =>
      have own := List.find?_some here
      rw [find_modifyFirst_self here (by exact own)]
      rfl

/-! ## Calls -/

section

variable {β : Below} {below : β.State}

theorem fades_evictLru (c : Cache) (below : β.State) (B X : Nat) :
    Fades c (c.evictLru below B).cache X := by
  have popped := fades_dropLast c B X
  have rows : (c.evictLru below B).cache = c ∨
      (c.evictLru below B).cache.cfg = (c.setRow B (c.set B).dropLast).cfg ∧
        (c.evictLru below B).cache.rows = (c.setRow B (c.set B).dropLast).rows := by
    unfold evictLru
    split
    · exact .inl rfl
    · next victim _ =>
        right
        cases sink : c.cfg.coherenceSink with
        | true =>
            simp only [if_true]
            split <;> exact ⟨rfl, rfl⟩
        | false =>
            cases dirty : victim.dirty with
            | true =>
                simp only [Bool.false_eq_true, if_true, if_false]
                split <;> exact ⟨rfl, rfl⟩
            | false =>
                simp
  rcases rows with same | ⟨cfg, rows⟩
  · rw [same]
    exact .refl c X
  · exact popped.trans (fades_of_same cfg rows X)

theorem fades_dropLru (c : Cache) (B X : Nat) : Fades c (c.dropLru B) X := by
  have rows : (c.dropLru B).cfg = (c.setRow B (c.set B).dropLast).cfg ∧
      (c.dropLru B).rows = (c.setRow B (c.set B).dropLast).rows := by
    unfold dropLru
    split
    · simp only
      split <;> exact ⟨rfl, rfl⟩
    · exact ⟨rfl, rfl⟩
  exact (fades_dropLast c B X).trans (fades_of_same rows.1 rows.2 X)

theorem fades_place (ne : X ≠ B) (tag : line.tag = c.getTag B) : Fades c (c.place B line) X := by
  intro line' here
  rw [place, found_setRow] at here
  split at here
  · next index =>
      have own := isLine_apart ne index tag
      refine ⟨line', ?_, id⟩
      rw [found, set, index]
      split at here
      · rw [List.find?_append, List.find?_cons_of_neg (by simp [own])] at here
        rwa [List.find?_nil, Option.or_none] at here
      · rwa [List.find?_cons_of_neg (by simp [own])] at here
  · exact ⟨line', here, id⟩

/-- A clean line makes its block no dirtier. -/
theorem isDirty_place (clean : line.dirty = false) (here : (c.place B line).isDirty B = true) :
    c.isDirty B = true := by
  obtain ⟨line', found, dirty⟩ := isDirty_iff_found.mp here
  rw [place, found_setRow, if_pos rfl] at found
  have other : line' ≠ line := by
    rintro rfl
    cases clean.symm.trans dirty
  refine isDirty_iff_found.mpr ⟨line', ?_, dirty⟩
  split at found
  · rw [List.find?_append] at found
    rcases Option.or_eq_some_iff.mp found with old | ⟨-, new⟩
    · exact old
    · have mem := List.mem_of_find?_eq_some new
      exact absurd (List.mem_singleton.mp mem) other
  · rw [List.find?_cons] at found
    split at found
    · cases found
      exact absurd rfl other
    · exact found

/-- An insertion makes room first. -/
theorem insert_places (c : Cache) (below : β.State) (write : Bool) (B : Nat) (isPrefetch : Bool) :
    ∃ (d : Cache) (line : TagMeta), d.cfg = c.cfg ∧ (∀ X, Fades c d X) ∧ line.tag = d.getTag B ∧
      (write = false → line.dirty = false) ∧
      (c.insertNewBlock below write B isPrefetch).cache = d.place B line := by
  unfold insertNewBlock
  simp only
  split
  · have room : (if (c.set B).length = c.assoc then c.evictLru below B
        else { cache := c, below }).cache.cfg = c.cfg ∧
        ∀ X, Fades c (if (c.set B).length = c.assoc then c.evictLru below B
          else { cache := c, below }).cache X := by
      split
      · exact ⟨evictLru_same.cfg, fun X => fades_evictLru c below B X⟩
      · exact ⟨rfl, fun X => .refl c X⟩
    refine ⟨_, _, room.1, room.2, ?_, fun reads => reads, rfl⟩
    simp only [getTag, indexBit, room.1]
  · have room : (if (c.set B).length = c.assoc then c.dropLru B else c).cfg = c.cfg ∧
        ∀ X, Fades c (if (c.set B).length = c.assoc then c.dropLru B else c) X := by
      split
      · exact ⟨dropLru_same.cfg, fun X => fades_dropLru c B X⟩
      · exact ⟨rfl, fun X => .refl c X⟩
    refine ⟨_, _, room.1, room.2, ?_, fun _ => rfl, rfl⟩
    simp only [getTag, indexBit, room.1]

theorem fades_insert (c : Cache) (below : β.State) (write : Bool) (isPrefetch : Bool) (ne : X ≠ B) :
    Fades c (c.insertNewBlock below write B isPrefetch).cache X := by
  obtain ⟨d, line, -, room, tag, -, same⟩ := insert_places c below write B isPrefetch
  rw [same]
  exact (room X).trans (fades_place ne tag)

theorem isDirty_insert (isPrefetch : Bool)
    (here : (c.insertNewBlock below false B isPrefetch).cache.isDirty X = true) : c.isDirty X = true := by
  by_cases eq : X = B
  · subst eq
    obtain ⟨d, line, -, room, -, clean, same⟩ := insert_places c below false X isPrefetch
    rw [same] at here
    exact (room X).dirty (isDirty_place (clean rfl) here)
  · exact (fades_insert c below false isPrefetch eq).dirty here

theorem fades_fill (c : Cache) (below : β.State) (write : Bool) (ne : X ≠ B) :
    Fades c (c.fill below B write).cache X := by
  unfold fill
  split
  · simp only
    split
    · exact fades_mark ne true
    · exact .refl c X
  · exact fades_insert c below write false ne

/-- A fill for a load makes no block dirty. -/
theorem isDirty_fill (here : (c.fill below B false).cache.isDirty X = true) : c.isDirty X = true := by
  unfold fill at here
  split at here
  · exact here
  · exact isDirty_insert false here

/-! ## Accesses -/

/-- The miss is answered at once: from below, or because nobody need be asked. -/
def Answered (c : Cache) (below : β.State) (req : MemReq) (originatingOp : Op) : Prop :=
  match β.access below { addr := shiftLeft64 (c.getBlockAddr req.addr) c.cfg.b, pc := req.pc,
                         originatingOp, tid := req.tid } with
  | some (_, _, suspended, _) => suspended = false
  | none => c.cfg.coherenceSink = false

/-- A miss leaves the cache as it is, or is answered and fills. -/
theorem fetch_cache (c : Cache) (below : β.State) (req : MemReq) (write : Bool) (op : Op) :
    (c.fetch below req write op).1.cache = c ∨
      c.Answered below req op ∧ ∃ below' : β.State, (c.fetch below req write op).1.cache =
        (c.insertNewBlock below' write (c.getBlockAddr req.addr) false).cache := by
  unfold fetch Answered
  simp only
  cases answer : β.access below { addr := shiftLeft64 (c.getBlockAddr req.addr) c.cfg.b, pc := req.pc,
                                  originatingOp := op, tid := req.tid } with
  | some y =>
      simp only
      split
      · exact .inl rfl
      · next quick => exact .inr ⟨by simpa using quick, _, rfl⟩
  | none =>
      simp only
      split
      · exact .inl rfl
      · next sinkless => exact .inr ⟨by simpa using sinkless, below, rfl⟩

variable {req : MemReq}

theorem fetch_resident {write : Bool} {op : Op}
    (here : (c.fetch below req write op).1.cache.isInCache X = true) :
    c.isInCache X = true ∨ X = c.getBlockAddr req.addr ∧ c.Answered below req op := by
  rcases fetch_cache c below req write op with same | ⟨answered, below', same⟩
  · rw [same] at here
    exact .inl here
  · by_cases eq : X = c.getBlockAddr req.addr
    · exact .inr ⟨eq, answered⟩
    · rw [same] at here
      exact .inl ((fades_insert c below' write false eq).resident here)

theorem fetch_dirty {write : Bool} {op : Op} (apart : write = true → X ≠ c.getBlockAddr req.addr)
    (here : (c.fetch below req write op).1.cache.isDirty X = true) : c.isDirty X = true := by
  rcases fetch_cache c below req write op with same | ⟨-, below', same⟩
  · rw [same] at here
    exact here
  · rw [same] at here
    cases write with
    | true => exact (fades_insert c below' true false (apart rfl)).dirty here
    | false => exact isDirty_insert false here

theorem inPlace_id : InPlace id := fun _ => ⟨rfl, rfl⟩

theorem inPlace_touch (dirty : TagMeta → Bool) :
    InPlace fun l => { l with prefetched := false, dirty := dirty l } := fun _ => ⟨rfl, rfl⟩

theorem accessWbwa_resident (here : (c.accessWbwa below req).1.cache.isInCache X = true) :
    c.isInCache X = true ∨
      X = c.getBlockAddr req.addr ∧ ∃ op, c.Answered below req op := by
  unfold accessWbwa at here
  simp only at here
  split at here
  · left
    split at here
    · exact resident_of_promote inPlace_id here
    · exact resident_of_promote (c := c.bump _) (inPlace_touch _) here
  · exact (fetch_resident (c := c.bump _) here).imp_right fun ⟨eq, answered⟩ => ⟨eq, _, answered⟩

theorem accessWtwna_resident (here : (c.accessWtwna below req).1.cache.isInCache X = true) :
    c.isInCache X = true ∨
      X = c.getBlockAddr req.addr ∧ ∃ op, c.Answered below req op := by
  unfold accessWtwna at here
  simp only at here
  split at here
  · exact .inl (resident_of_promote inPlace_id here)
  · split at here
    · exact .inl (resident_of_promote (c := c.bump _) (inPlace_touch fun l => l.dirty) here)
    · exact (fetch_resident (c := c.bump _) here).imp_right fun ⟨eq, answered⟩ => ⟨eq, _, answered⟩

/-- An access brings in the block it is for, where it is answered. -/
theorem access_resident (here : (c.access below req).1.cache.isInCache X = true) :
    c.isInCache X = true ∨
      X = c.getBlockAddr req.addr ∧ ∃ op, c.Answered below req op := by
  unfold access at here
  simp only at here
  split at here
  · exact accessWbwa_resident (c := c.bump _) here
  · exact accessWtwna_resident (c := c.bump _) here

theorem accessWbwa_dirty (apart : req.op.isWrite = true → X ≠ c.getBlockAddr req.addr)
    (here : (c.accessWbwa below req).1.cache.isDirty X = true) : c.isDirty X = true := by
  unfold accessWbwa at here
  simp only at here
  split at here
  · split at here
    · exact (fades_promote inPlace_id fun _ _ => id).dirty here
    · refine (fades_promote (c := c.bump _) (inPlace_touch _) ?_).dirty here
      intro eq line dirty
      have read : req.op.isWrite = false := by
        by_contra write
        exact apart (by simpa using write) eq
      simpa [read] using dirty
  · exact fetch_dirty (c := c.bump _) apart here

theorem accessWtwna_dirty (here : (c.accessWtwna below req).1.cache.isDirty X = true) :
    c.isDirty X = true := by
  unfold accessWtwna at here
  simp only at here
  split at here
  · exact (fades_promote inPlace_id fun _ _ => id).dirty here
  · split at here
    · exact (fades_promote (c := c.bump _) (inPlace_touch fun l => l.dirty) fun _ _ => id).dirty here
    · exact fetch_dirty (c := c.bump _) (fun write => by cases write) here

/-- Only a write makes a block dirty, and only its own. -/
theorem access_dirty (apart : req.op.isWrite = true → X ≠ c.getBlockAddr req.addr)
    (here : (c.access below req).1.cache.isDirty X = true) : c.isDirty X = true := by
  unfold access at here
  simp only at here
  split at here
  · exact accessWbwa_dirty (c := c.bump _) apart here
  · exact accessWtwna_dirty (c := c.bump _) here

/-- What a request makes of the lines, if it does not wait for the one it joins. -/
theorem issue_found (c : Cache) (below : β.State) (req : MemReq) :
    (∀ X, (c.issue below req).1.cache.found X = c.found X) ∨
      ∀ X, (c.issue below req).1.cache.found X = (c.access below req).1.cache.found X := by
  unfold issue
  simp only
  split
  · exact .inl fun X => found_of_same rfl rfl X
  · split
    · exact .inl fun _ => rfl
    · exact .inr fun X => found_of_same rfl rfl X

theorem issue_resident (here : (c.issue below req).1.cache.isInCache X = true) :
    c.isInCache X = true ∨
      X = c.getBlockAddr req.addr ∧ ∃ op, c.Answered below req op := by
  rw [isInCache_iff_found] at here
  rcases issue_found c below req with same | same
  · rw [same] at here
    exact .inl (isInCache_iff_found.mpr here)
  · rw [same] at here
    exact access_resident (isInCache_iff_found.mpr here)

theorem issue_dirty (apart : req.op.isWrite = true → X ≠ c.getBlockAddr req.addr)
    (here : (c.issue below req).1.cache.isDirty X = true) : c.isDirty X = true := by
  rw [isDirty] at here
  rcases issue_found c below req with same | same
  · rw [same] at here
    exact here
  · rw [same] at here
    exact access_dirty apart here

end

/-- A cache with a sink over nothing brings no block in by itself. -/
theorem access_nothing (sink : c.cfg.coherenceSink = true) {req : MemReq}
    (here : (c.access (β := .nothing) () req).1.cache.isInCache X = true) : c.isInCache X = true := by
  rcases access_resident here with old | ⟨-, op, answered⟩
  · exact old
  · have sinkless : c.cfg.coherenceSink = false := answered
    cases sink.symm.trans sinkless

end Cache

end Memory
