import MulticoreSim.Memory.Ownership

/-! # Where a fill lands

A filled block is resident and every request waiting for it is woken up; a block
stays resident in a lower level that writes only reach through hits.
-/

namespace Memory

/-! ## Shifts on 64 bits -/

/-- Shifting up and down again keeps the bits that fit. -/
theorem shiftLeft64_shiftRight (x k : Nat) : shiftLeft64 x k >>> k = x % 2 ^ (64 - k) := by
  rw [shiftLeft64, Nat.shiftLeft_eq, Nat.shiftRight_eq_div_pow]
  by_cases le : k ≤ 64
  · have split : 2 ^ 64 = 2 ^ (64 - k) * 2 ^ k := by rw [← Nat.pow_add, Nat.sub_add_cancel le]
    rw [split, Nat.mul_mod_mul_right, Nat.mul_div_cancel _ (Nat.two_pow_pos k)]
  · have multiple : 2 ^ 64 ∣ x * 2 ^ k := Dvd.dvd.mul_left (Nat.pow_dvd_pow 2 (by omega)) x
    rw [Nat.mod_eq_zero_of_dvd multiple, show 64 - k = 0 by omega, Nat.pow_zero, Nat.mod_one,
      Nat.zero_div]

/-- The block of a 64-bit address. -/
theorem shiftRight_lt {a : Nat} (bound : a < 2 ^ 64) (b : Nat) : a >>> b < 2 ^ (64 - b) := by
  rw [Nat.shiftRight_eq_div_pow]
  apply Nat.div_lt_of_lt_mul
  refine Nat.lt_of_lt_of_le bound ?_
  rw [← Nat.pow_add]
  exact Nat.pow_le_pow_right (by decide) (by omega)

/-- A block number that two shifts agree on is the one of equal shifts, or zero. -/
theorem shiftRight_agree {a b b' : Nat} (eq : a >>> b = a >>> b') (ne : b ≠ b') : a >>> b = 0 := by
  have fixed {x d : Nat} (here : x = x >>> (d + 1)) : x = 0 := by
    rw [Nat.shiftRight_eq_div_pow] at here
    by_contra pos
    exact absurd here (Nat.ne_of_gt (Nat.div_lt_self (Nat.pos_of_ne_zero pos) (Nat.one_lt_two_pow (by omega))))
  rcases Nat.lt_or_gt_of_ne ne with less | less
  · refine fixed (d := b' - b - 1) ?_
    rw [← Nat.shiftRight_add, show b + (b' - b - 1 + 1) = b' by omega, ← eq]
  · rw [eq]
    refine fixed (d := b - b' - 1) ?_
    rw [← Nat.shiftRight_add, show b' + (b - b' - 1 + 1) = b by omega, eq]

/-! ## Waking up -/

section

variable {α : Type} {p q : α → Bool} {f : α → α}

/-- The first match is the one rewritten. -/
theorem find_modifyFirst_self {l : List α} {x : α} (found : l.find? p = some x)
    (kept : p (f x) = true) : (modifyFirst p f l).find? p = some (f x) := by
  induction l with
  | nil => cases found
  | cons y rest ih =>
      unfold modifyFirst
      cases here : p y with
      | true =>
          rw [List.find?_cons_of_pos here] at found
          cases found
          rw [if_pos rfl, List.find?_cons_of_pos kept]
      | false =>
          rw [List.find?_cons_of_neg (by simp [here])] at found
          rw [if_neg (by simp), List.find?_cons_of_neg (by simp [here])]
          exact ih found

/-- A search that the rewriting does not touch finds what it found, rewritten or not. -/
theorem find_modifyFirst_moves {l : List α} {x : α} (found : l.find? q = some x)
    (same : ∀ y, q (f y) = q y) :
    (modifyFirst p f l).find? q = some x ∨ (modifyFirst p f l).find? q = some (f x) := by
  induction l with
  | nil => cases found
  | cons y rest ih =>
      unfold modifyFirst
      cases here : q y with
      | true =>
          rw [List.find?_cons_of_pos here] at found
          cases found
          split
          · exact .inr (List.find?_cons_of_pos ((same x).trans here))
          · exact .inl (List.find?_cons_of_pos here)
      | false =>
          rw [List.find?_cons_of_neg (by simp [here])] at found
          split
          · exact .inl (by rw [List.find?_cons_of_neg (by simp [same, here]), found])
          · rw [List.find?_cons_of_neg (by simp [here])]
            exact ih found

end

namespace MSHR

variable {m : MSHR} {id : Nat} {e : MSHREntry}

theorem holds_of_find (found : m.find id = some e) : e.holds id = true := by
  have test := List.find?_some (p := fun x : MSHREntry => x.holds id) found
  exact test

/-- The first slot is found first. -/
theorem find_first {rest : List MSHREntry} (table : m.table = e :: rest) (holds : e.holds id = true) :
    m.find id = some e := by
  rw [find, table]
  exact List.find?_cons_of_pos (p := fun x : MSHREntry => x.holds id) holds

/-- Whoever finds a slot still finds it after a mark, no less ready. -/
theorem find_marked (found : m.find id = some e) (other : Nat) :
    ∃ e', (m.markReady other).find id = some e' ∧ (e.ready = true → e'.ready = true) := by
  rcases find_modifyFirst_moves (p := fun e => e.holds other) (f := fun e => { e with ready := true })
    found fun _ => rfl with same | marked
  · exact ⟨e, same, fun ready => ready⟩
  · exact ⟨_, marked, fun _ => rfl⟩

/-- A request's own mark wakes it up. -/
theorem find_marked_self (found : m.find id = some e) :
    ∃ e', (m.markReady id).find id = some e' ∧ e'.ready = true := by
  have holds : e.holds id = true := holds_of_find found
  have marked : (m.markReady id).find id = some { e with ready := true } :=
    find_modifyFirst_self (p := fun x : MSHREntry => x.holds id)
      (f := fun x : MSHREntry => { x with ready := true }) found holds
  exact ⟨_, marked, rfl⟩

/-- A list of marks wakes up those it names. -/
theorem find_marks {ids : List Nat} (found : m.find id = some e) (awake : e.ready = true ∨ id ∈ ids) :
    ∃ e', (ids.foldl markReady m).find id = some e' ∧ e'.ready = true := by
  induction ids generalizing m e with
  | nil => exact ⟨e, found, awake.resolve_right List.not_mem_nil⟩
  | cons first rest ih =>
      obtain ⟨e', found', kept⟩ := find_marked found first
      by_cases own : first = id
      · obtain ⟨e', found', ready⟩ := find_marked_self found
        rw [← own] at found'
        exact ih (own ▸ found') (.inl ready)
      · refine ih found' (awake.imp kept fun mem => ?_)
        exact (List.mem_cons.mp mem).resolve_left (Ne.symm own)

/-- Every request with a slot for the block is woken up. -/
theorem find_markBlockReady (found : m.find id = some e) :
    ∃ e', (m.markBlockReady e.blockAddr).find id = some e' ∧ e'.ready = true := by
  refine find_marks found (.inr ?_)
  have holds : e.holds id = true := holds_of_find found
  have holder := (e.holds_iff id).mp holds
  have valid : e.valid = true := by
    by_contra invalid
    simp [MSHREntry.holders, invalid] at holder
  rw [MSHREntry.holders, if_pos valid] at holder
  refine List.mem_flatMap.mpr ⟨e, List.mem_filter.mpr ⟨List.mem_of_find?_eq_some found, ?_⟩, holder⟩
  simp [MSHREntry.targets, valid]

/-- Slots for other blocks are left alone. -/
theorem markBlockReady_other {b : Nat} (others : ∀ e ∈ m.table, e.targets b = false) :
    m.markBlockReady b = m := by
  have none : m.table.filter (·.targets b) = [] := by
    rw [List.filter_eq_nil_iff]
    intro e mem
    simp [others e mem]
  simp [markBlockReady, none]

end MSHR

namespace Cache

variable {c : Cache} {β : Below} {below : β.State} {B B' : Nat}

/-! ## What is kept below -/

section

variable {P : β.State → Prop} (kept : ∀ x req y, P x → β.access x req = some y → P y.1)

include kept

theorem evictLru_below (here : P below) (B : Nat) : P (c.evictLru below B).below := by
  unfold evictLru
  split
  · exact here
  · simp only
    split
    · exact here
    · split
      · split
        · exact here
        · next answer => exact kept _ _ _ here answer
      · exact here

theorem insert_below (here : P below) (write : Bool) (B : Nat) (isPrefetch : Bool) :
    P (c.insertNewBlock below write B isPrefetch).below := by
  unfold insertNewBlock
  simp only
  split
  · split
    · exact evictLru_below kept here B
    · exact here
  · exact here

theorem fill_below (here : P below) (B : Nat) (write : Bool) : P (c.fill below B write).below := by
  unfold fill
  split
  · exact here
  · exact insert_below kept here write B false

theorem fetch_below (here : P below) (req : MemReq) (write : Bool) (op : Op) :
    P (c.fetch below req write op).1.below := by
  unfold fetch
  simp only
  split
  · next answer =>
      have there := kept _ _ _ here answer
      split
      · exact there
      · exact insert_below kept there write _ false
  · split
    · exact here
    · exact insert_below kept here write _ false

theorem accessWbwa_below (here : P below) (req : MemReq) : P (c.accessWbwa below req).1.below := by
  unfold accessWbwa
  simp only
  split
  · split <;> exact here
  · exact fetch_below kept here req _ _

theorem accessWtwna_below (here : P below) (req : MemReq) : P (c.accessWtwna below req).1.below := by
  unfold accessWtwna
  simp only
  split
  · exact here
  · split
    · exact here
    · exact fetch_below kept here req _ _

theorem access_below (here : P below) (req : MemReq) : P (c.access below req).1.below := by
  unfold access
  simp only
  split
  · exact accessWbwa_below kept here req
  · exact accessWtwna_below kept here req

/-- What every access to the level below keeps, a request keeps. -/
theorem issue_below (here : P below) (req : MemReq) : P (c.issue below req).1.below := by
  unfold issue
  simp only
  split
  · exact here
  · split
    · exact here
    · exact access_below kept here req

end

/-! ## Residence -/

theorem getIndex_of_cfg {c' : Cache} (cfg : c'.cfg = c.cfg) (B : Nat) : c'.getIndex B = c.getIndex B := by
  simp only [getIndex, indexBit, cfg]

theorem isLine_of_cfg {c' : Cache} (cfg : c'.cfg = c.cfg) (B : Nat) : c'.isLine B = c.isLine B := by
  funext line
  simp only [isLine, getTag, indexBit, cfg]

/-- A block is resident where a row of its own holds it. -/
theorem resident_of_row {c' : Cache} (cfg : c'.cfg = c.cfg)
    (row : ∃ line ∈ c'.rows (c.getIndex B), c.isLine B line = true) : c'.isInCache B = true := by
  rw [isInCache, set, getIndex_of_cfg cfg, isLine_of_cfg cfg]
  exact List.any_eq_true.mpr row

/-- Moving a line to the front, or rewriting what is not its tag, drops nothing. -/
theorem resident_promote (resident : c.isInCache B = true) (B' : Nat) {f : TagMeta → TagMeta}
    (keeps : ∀ line, c.isLine B (f line) = c.isLine B line) :
    (c.promote B' f).isInCache B = true := by
  obtain ⟨line, mem, here⟩ := List.any_eq_true.mp resident
  unfold promote
  split
  · exact resident
  · next front found =>
      apply resident_of_row (c := c) (show (c.setRow B' _).cfg = c.cfg from rfl)
      simp only [setRow]
      by_cases eq : c.getIndex B = c.getIndex B'
      · rw [eq, Function.update_self]
        rw [set, eq] at mem
        rcases List.mem_cons.mp ((perm_eraseP found).mem_iff.mp mem) with rfl | behind
        · exact ⟨f line, List.mem_cons_self, (keeps line).trans here⟩
        · exact ⟨line, List.mem_cons_of_mem _ behind, here⟩
      · rw [Function.update_of_ne eq]
        exact ⟨line, mem, here⟩

theorem resident_mark (resident : c.isInCache B = true) (B' : Nat) (dirty : Bool) :
    (c.coherenceMark B' dirty).isInCache B = true := by
  obtain ⟨line, mem, here⟩ := List.any_eq_true.mp resident
  apply resident_of_row (c := c) (show (c.coherenceMark B' dirty).cfg = c.cfg from rfl)
  simp only [coherenceMark, setRow]
  by_cases eq : c.getIndex B = c.getIndex B'
  · rw [eq, Function.update_self]
    rw [set, eq] at mem
    rcases modifyFirst_moves (p := c.isLine B') (f := fun l => { l with dirty }) mem with same | moved
    · exact ⟨line, same, here⟩
    · exact ⟨_, moved, here⟩
  · rw [Function.update_of_ne eq]
    exact ⟨line, mem, here⟩

/-- A placed line is there. -/
theorem resident_place {line : TagMeta} (tag : line.tag = c.getTag B) (valid : line.valid = true) :
    (c.place B line).isInCache B = true := by
  apply resident_of_row (c := c) (show (c.place B line).cfg = c.cfg from rfl)
  refine ⟨line, ?_, by simp [isLine, tag, valid]⟩
  simp only [place, setRow, Function.update_self]
  split <;> simp

theorem resident_insert (write isPrefetch : Bool) :
    (c.insertNewBlock below write B isPrefetch).cache.isInCache B = true := by
  unfold insertNewBlock
  simp only
  split
  · have cfg : (if (c.set B).length = c.assoc then c.evictLru below B
        else { cache := c, below }).cache.cfg = c.cfg := by
      split
      · exact evictLru_same.cfg
      · rfl
    exact resident_place (by simp only [getTag, indexBit, cfg]) rfl
  · have cfg : (if (c.set B).length = c.assoc then c.dropLru B else c).cfg = c.cfg := by
      split
      · exact dropLru_same.cfg
      · rfl
    exact resident_place (by simp only [getTag, indexBit, cfg]) rfl

/-- The filled block, where its number survives `block_in`. -/
theorem resident_fill (fits : B < 2 ^ (64 - c.cfg.b)) (write : Bool) :
    (c.fill below B write).cache.isInCache B = true := by
  have same : c.getBlockAddr (shiftLeft64 B c.cfg.b) = B := by
    rw [getBlockAddr, shiftLeft64_shiftRight, Nat.mod_eq_of_lt fits]
  unfold fill
  split
  · next here =>
      rw [blockIn, same] at here
      simp only
      split
      · exact resident_mark here B true
      · exact here
  · exact resident_insert write false

/-- A fill of a cache that holds nothing brings in one block, and evicts none. -/
theorem fill_empty (empty : c.rows = fun _ => []) (below : β.State) (B : Nat) (write : Bool) :
    (∀ B', (c.fill below B write).cache.isInCache B' = true → B' = B) ∧
      (c.fill below B write).below = below := by
  have room : ¬ (c.set B).length = c.assoc := by
    have some : 0 < c.assoc := by
      rw [assoc, Nat.one_shiftLeft]
      exact Nat.two_pow_pos _
    simp only [set, empty, List.length_nil]
    omega
  have missing : c.blockIn (shiftLeft64 B c.cfg.b) = false := by simp [blockIn, isInCache, set, empty]
  have filled : ∃ line : TagMeta, line.tag = c.getTag B ∧
      (c.fill below B write).cache = c.place B line ∧ (c.fill below B write).below = below := by
    unfold fill
    rw [if_neg (by simp [missing])]
    unfold insertNewBlock
    simp only
    split
    · rw [if_neg room]
      exact ⟨_, rfl, rfl, rfl⟩
    · rw [if_neg room]
      exact ⟨_, rfl, rfl, rfl⟩
  obtain ⟨line, tag, same, kept⟩ := filled
  refine ⟨fun B' here => ?_, kept⟩
  rw [same] at here
  obtain ⟨line', mem, own⟩ := List.any_eq_true.mp here
  have cfg : (c.place B line).cfg = c.cfg := rfl
  rw [isLine_of_cfg cfg] at own
  rw [set, getIndex_of_cfg cfg] at mem
  simp only [place, setRow] at mem
  by_cases index : c.getIndex B' = c.getIndex B
  · rw [index, Function.update_self] at mem
    have only : line' = line := by
      split at mem <;> simpa [set, empty] using mem
    rw [only, isLine, Bool.and_eq_true, beq_iff_eq] at own
    exact block_unique (own.1.symm.trans tag) index
  · rw [Function.update_of_ne index, empty] at mem
    cases mem

theorem resident_bump (f : CacheStats → CacheStats) : (c.bump f).isInCache B = c.isInCache B := rfl

section

variable (sink : c.cfg.coherenceSink = true)

include sink

/-- A level over nothing that has a sink asks it on a miss. -/
theorem fetch_nothing (req : MemReq) (write : Bool) (op : Op) :
    (c.fetch (β := .nothing) () req write op).1.cache = c := by
  simp [fetch, Below.nothing, sink]

theorem resident_accessWbwa (resident : c.isInCache B = true) (req : MemReq) :
    (c.accessWbwa (β := .nothing) () req).1.cache.isInCache B = true := by
  unfold accessWbwa
  simp only
  split
  · split
    · rw [resident_bump]
      apply resident_promote resident
      exact fun _ => rfl
    · apply resident_promote (c := c.bump _) resident
      exact fun _ => rfl
  · rw [fetch_nothing (c := c.bump _) sink]
    exact resident

theorem resident_accessWtwna (resident : c.isInCache B = true) (req : MemReq) :
    (c.accessWtwna (β := .nothing) () req).1.cache.isInCache B = true := by
  unfold accessWtwna
  simp only
  split
  · apply resident_promote resident
    exact fun _ => rfl
  · split
    · apply resident_promote (c := c.bump _) resident
      exact fun _ => rfl
    · rw [fetch_nothing (c := c.bump _) sink]
      exact resident

/-- No access to it drops a block. -/
theorem resident_access (resident : c.isInCache B = true) (req : MemReq) :
    (c.access (β := .nothing) () req).1.cache.isInCache B = true := by
  unfold access
  simp only
  split
  · exact resident_accessWbwa (c := c.bump _) sink resident req
  · exact resident_accessWtwna (c := c.bump _) sink resident req

end

/-! ## What a miss asks for -/

/-- A read of a block that is not there goes down. -/
theorem missing_fetches (below : β.State) {req : MemReq} (read : req.op.isWrite = false)
    (missing : c.blockIn req.addr = false) :
    ∃ (c' : Cache) (op : Op), c'.cfg = c.cfg ∧ c.access below req = c'.fetch below req false op := by
  have none : (c.set (c.getBlockAddr req.addr)).find? (c.isLine (c.getBlockAddr req.addr)) = none := by
    rw [blockIn, isInCache, List.any_eq_false] at missing
    exact List.find?_eq_none.mpr missing
  have bumped (f : CacheStats → CacheStats) : ((c.bump f).set (c.getBlockAddr req.addr)).find?
      ((c.bump f).isLine (c.getBlockAddr req.addr)) = Option.none := none
  unfold access
  simp only [read]
  split
  · unfold accessWbwa
    simp only [getBlockAddr] at bumped ⊢
    rw [show (c.bump _).cfg = c.cfg from rfl, bumped]
    simp only [read]
    refine ⟨_, _, ?_, rfl⟩
    rfl
  · unfold accessWtwna
    simp only [getBlockAddr] at bumped ⊢
    rw [if_neg (by simp [read]), show (c.bump _).cfg = c.cfg from rfl, bumped]
    simp only
    refine ⟨_, _, ?_, rfl⟩
    rfl

/-- At the bottom of a coherent core it asks the sink. -/
theorem missing_asks (sink : c.cfg.coherenceSink = true) {req : MemReq} (read : req.op.isWrite = false)
    (missing : c.blockIn req.addr = false) :
    (c.access (β := .nothing) () req).1.calls =
        [.onMiss (c.getBlockAddr req.addr) req.originatingOp] ∧
      (c.access (β := .nothing) () req).2.latency = coherenceSuspendedLatency := by
  obtain ⟨c', op, cfg, same⟩ := missing_fetches (β := .nothing) () read missing
  rw [same]
  simp [fetch, Below.nothing, sink, getBlockAddr, cfg]

end Cache

end Memory
