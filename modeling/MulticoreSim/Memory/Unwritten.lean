import MulticoreSim.Memory.Landing
import MulticoreSim.Memory.Rows

/-! # Caches without dirty lines

A cache over nothing that has a sink asks the sink before it writes a line. So none of
its lines gets dirty, and it tells the sink of no dirty one.
-/

namespace Memory

namespace Cache

/-- No line is dirty. -/
def Unwritten (c : Cache) : Prop := ∀ i, ∀ line ∈ c.rows i, line.dirty = false

/-- The block's line is there and dirty. -/
def holdsDirty (c : Cache) (B : Nat) : Bool := (c.set B).any fun line => c.isLine B line && line.dirty

variable {c : Cache} {B : Nat} {row : List TagMeta}

theorem Unwritten.holdsDirty (unwritten : c.Unwritten) (B : Nat) : c.holdsDirty B = false := by
  apply List.any_eq_false.mpr
  intro line mem
  simp [unwritten _ line mem]

namespace Unwritten

theorem build (cfg : Config) : (Cache.build cfg).Unwritten := fun _ _ mem => absurd mem List.not_mem_nil

theorem setRow (unwritten : c.Unwritten) (lines : ∀ line ∈ row, line.dirty = false) :
    (c.setRow B row).Unwritten := by
  intro i line mem
  rw [setRow_rows] at mem
  split at mem
  · exact lines line mem
  · exact unwritten i line mem

theorem fewer (unwritten : c.Unwritten) (sub : ∀ line ∈ row, line ∈ c.set B) :
    (c.setRow B row).Unwritten :=
  unwritten.setRow fun line mem => unwritten _ line (sub line mem)

theorem promote (unwritten : c.Unwritten) {f : TagMeta → TagMeta}
    (same : ∀ line, line.dirty = false → (f line).dirty = false) : (c.promote B f).Unwritten := by
  unfold Cache.promote
  split
  · exact unwritten
  · next line found =>
      apply unwritten.setRow
      intro other mem
      rcases List.mem_cons.mp mem with rfl | mem
      · exact same line (unwritten _ line (List.mem_of_find?_eq_some found))
      · exact unwritten _ other (List.mem_of_mem_eraseP mem)

theorem place (unwritten : c.Unwritten) {line : TagMeta} (clean : line.dirty = false) :
    (c.place B line).Unwritten := by
  apply unwritten.setRow
  intro other mem
  have here : other = line ∨ other ∈ c.set B := by
    split at mem
    · exact (List.mem_append.mp mem).symm.imp_left List.mem_singleton.mp
    · exact List.mem_cons.mp mem
  rcases here with rfl | old
  · exact clean
  · exact unwritten _ other old

theorem invalidate (unwritten : c.Unwritten) (B : Nat) : (c.coherenceInvalidate B).Unwritten := by
  unfold coherenceInvalidate
  split
  · exact unwritten.fewer fun line mem => List.mem_of_mem_eraseP mem
  · exact unwritten

theorem clean (unwritten : c.Unwritten) (B : Nat) : (c.coherenceMark B false).Unwritten := by
  apply unwritten.setRow
  intro line mem
  rcases mem_modifyFirst mem with old | ⟨_, _, _, rfl⟩
  · exact unwritten _ line old
  · rfl

end Unwritten

/-- No sink is told of a dirty line. -/
def Unsaid (calls : List SinkCall) : Prop := ∀ v, .onEvict v true ∉ calls

theorem Unsaid.ask (B : Nat) (op : Op) : Unsaid [.onMiss B op] := by
  intro v mem
  cases List.mem_singleton.mp mem

theorem Unsaid.append {calls calls' : List SinkCall} (first : Unsaid calls) (second : Unsaid calls') :
    Unsaid (calls ++ calls') := by
  intro v mem
  rcases List.mem_append.mp mem with mem | mem
  · exact first v mem
  · exact second v mem

theorem unsaid_nil : Unsaid [] := fun _ => List.not_mem_nil

/-! ## At the bottom of a core -/

/-- A call on the lowest level that leaves no dirty line and tells of none. -/
structure Mild (r : Result .nothing) : Prop where
  unwritten : r.cache.Unwritten
  unsaid : Unsaid r.calls

theorem evictLru_mild (unwritten : c.Unwritten) : Mild (c.evictLru (β := .nothing) () B) := by
  unfold evictLru
  split
  · exact ⟨unwritten, unsaid_nil⟩
  · next victim last =>
      have clean : victim.dirty = false := unwritten _ victim (List.mem_of_getLast? last)
      have popped : (c.setRow B (c.set B).dropLast).Unwritten :=
        unwritten.fewer fun line mem => List.dropLast_subset _ mem
      simp only [clean]
      split
      · refine ⟨popped, fun v mem => ?_⟩
        cases List.mem_singleton.mp mem
      · exact ⟨popped, unsaid_nil⟩

theorem dropLru_unwritten (unwritten : c.Unwritten) : (c.dropLru B).Unwritten := by
  have popped : (c.setRow B (c.set B).dropLast).Unwritten :=
    unwritten.fewer fun line mem => List.dropLast_subset _ mem
  unfold dropLru
  split
  · simp only
    split
    · exact popped
    · exact popped
  · exact popped

theorem insert_mild (unwritten : c.Unwritten) (isPrefetch : Bool) :
    Mild (c.insertNewBlock (β := .nothing) () false B isPrefetch) := by
  unfold insertNewBlock
  simp only
  split
  · have before : Mild (if (c.set B).length = c.assoc then c.evictLru (β := .nothing) () B
        else { cache := c, below := () }) := by
      split
      · exact evictLru_mild unwritten
      · exact ⟨unwritten, unsaid_nil⟩
    exact ⟨before.unwritten.place rfl, before.unsaid⟩
  · refine ⟨Unwritten.place ?_ rfl, unsaid_nil⟩
    split
    · exact dropLru_unwritten unwritten
    · exact unwritten

theorem fill_mild (unwritten : c.Unwritten) (B : Nat) : Mild (c.fill (β := .nothing) () B false) := by
  unfold fill
  split
  · exact ⟨unwritten, unsaid_nil⟩
  · exact insert_mild unwritten false

section

variable (sink : c.cfg.coherenceSink = true)

include sink

theorem fetch_mild (unwritten : c.Unwritten) (req : MemReq) (write : Bool) (op : Op) :
    Mild (c.fetch (β := .nothing) () req write op).1 := by
  refine ⟨?_, ?_⟩
  · rw [fetch_nothing sink]
    exact unwritten
  · simp only [fetch, Below.nothing, sink, if_true]
    exact .ask _ _

theorem accessWbwa_mild (unwritten : c.Unwritten) (req : MemReq) :
    Mild (c.accessWbwa (β := .nothing) () req).1 := by
  unfold accessWbwa
  simp only
  split
  · next line found =>
      have clean : line.dirty = false := unwritten _ line (List.mem_of_find?_eq_some found)
      split
      · exact ⟨unwritten.promote fun _ => id, .ask _ _⟩
      · next reads =>
          have read : req.op.isWrite = false := by simpa [clean, sink] using reads
          refine ⟨Unwritten.promote (c := c.bump _) unwritten fun line clean => ?_, unsaid_nil⟩
          simp [clean, read]
  · exact fetch_mild (c := c.bump _) sink unwritten req _ _

theorem accessWtwna_mild (unwritten : c.Unwritten) (req : MemReq) :
    Mild (c.accessWtwna (β := .nothing) () req).1 := by
  unfold accessWtwna
  simp only
  split
  · exact ⟨unwritten.promote fun _ => id, unsaid_nil⟩
  · split
    · exact ⟨Unwritten.promote (c := c.bump _) unwritten fun _ => id, unsaid_nil⟩
    · exact fetch_mild (c := c.bump _) sink unwritten req _ _

theorem access_mild (unwritten : c.Unwritten) (req : MemReq) :
    Mild (c.access (β := .nothing) () req).1 := by
  unfold access
  simp only
  split
  · exact accessWbwa_mild (c := c.bump _) sink unwritten req
  · exact accessWtwna_mild (c := c.bump _) sink unwritten req

end

/-! ## What is said below -/

section

variable {β : Below} {below : β.State} {P : β.State → Prop} {Q : SinkCall → Prop}
  (kept : ∀ x req y, P x → β.access x req = some y → P y.1 ∧ ∀ call ∈ y.2.2.2, Q call)
  (sinkless : c.cfg.coherenceSink = false)

include kept sinkless

theorem evictLru_said (here : P below) (B : Nat) : ∀ call ∈ (c.evictLru below B).calls, Q call := by
  unfold evictLru
  split
  · exact fun _ mem => absurd mem List.not_mem_nil
  · simp only
    rw [if_neg (by simp [sinkless])]
    split
    · split
      · exact fun _ mem => absurd mem List.not_mem_nil
      · next answer => exact (kept _ _ _ here answer).2
    · exact fun _ mem => absurd mem List.not_mem_nil

theorem insert_said (here : P below) (write : Bool) (B : Nat) (isPrefetch : Bool) :
    ∀ call ∈ (c.insertNewBlock below write B isPrefetch).calls, Q call := by
  unfold insertNewBlock
  simp only
  split
  · split
    · exact evictLru_said kept sinkless here B
    · exact fun _ mem => absurd mem List.not_mem_nil
  · exact fun _ mem => absurd mem List.not_mem_nil

theorem fill_said (here : P below) (B : Nat) (write : Bool) :
    ∀ call ∈ (c.fill below B write).calls, Q call := by
  unfold fill
  split
  · exact fun _ mem => absurd mem List.not_mem_nil
  · exact insert_said kept sinkless here write B false

theorem fetch_said (here : P below) (req : MemReq) (write : Bool) (op : Op) :
    ∀ call ∈ (c.fetch below req write op).1.calls, Q call := by
  unfold fetch
  simp only
  split
  · next answer =>
      obtain ⟨there, said⟩ := kept _ _ _ here answer
      split
      · exact said
      · intro call mem
        rcases List.mem_append.mp mem with mem | mem
        · exact said call mem
        · exact insert_said kept sinkless there write _ false call mem
  · rw [if_neg (by simp [sinkless])]
    intro call mem
    rw [List.nil_append] at mem
    exact insert_said kept sinkless here write _ false call mem

theorem accessWbwa_said (here : P below) (req : MemReq) :
    ∀ call ∈ (c.accessWbwa below req).1.calls, Q call := by
  unfold accessWbwa
  simp only [sinkless]
  split
  · split
    · next upgrades => simp at upgrades
    · exact fun _ mem => absurd mem List.not_mem_nil
  · exact fetch_said (c := c.bump _) kept sinkless here req _ _

theorem accessWtwna_said (here : P below) (req : MemReq) :
    ∀ call ∈ (c.accessWtwna below req).1.calls, Q call := by
  unfold accessWtwna
  simp only
  split
  · exact fun _ mem => absurd mem List.not_mem_nil
  · split
    · exact fun _ mem => absurd mem List.not_mem_nil
    · exact fetch_said (c := c.bump _) kept sinkless here req _ _

/-- A cache without a sink says what is said below it. -/
theorem issue_said (here : P below) (req : MemReq) : ∀ call ∈ (c.issue below req).1.calls, Q call := by
  unfold issue
  simp only
  split
  · exact fun _ mem => absurd mem List.not_mem_nil
  · split
    · exact fun _ mem => absurd mem List.not_mem_nil
    · unfold access
      simp only
      split
      · exact accessWbwa_said (c := c.bump _) kept sinkless here req
      · exact accessWtwna_said (c := c.bump _) kept sinkless here req

end

end Cache

end Memory
