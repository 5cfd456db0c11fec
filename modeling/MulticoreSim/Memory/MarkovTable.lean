import MulticoreSim.Library.Recency
import MulticoreSim.Library.Tally
import MulticoreSim.Memory.MarkovSort

/-! # The Markov table

The rows of a Markov prefetcher against the history of misses: which blocks have a row,
in which order, and how often which of their successors is counted in it.
-/

namespace Memory

namespace Markov

variable {row rest : List MarkovEntry} {t : Nat →₀ ℕ} {e x : MarkovEntry} {d n : Nat}

/-! ## A row is a tally of successors -/

/-- The entries of a row are the counts of a tally. -/
structure Lists (row : List MarkovEntry) (t : Nat →₀ ℕ) : Prop where
  distinct : (row.map (·.destinationBAddr)).Nodup
  counts : ∀ e, e ∈ row ↔ e.numAccess = t e.destinationBAddr ∧ 0 < e.numAccess

theorem Lists.perm (lists : Lists row t) {row' : List MarkovEntry} (perm : row'.Perm row) :
    Lists row' t where
  distinct := (perm.map _).nodup_iff.mpr lists.distinct
  counts e := perm.mem_iff.trans (lists.counts e)

theorem Lists.sort (lists : Lists row t) : Lists (markovRowSort row) t :=
  lists.perm (markovRowSort_perm row)

theorem lists_nil : Lists [] 0 where
  distinct := List.nodup_nil
  counts e := by
    simp only [List.not_mem_nil, Finsupp.coe_zero, Pi.zero_apply, false_iff]
    omega

theorem lists_cons : Lists (x :: rest) t ↔
    x.numAccess = t x.destinationBAddr ∧ 0 < x.numAccess ∧ Lists rest (t.erase x.destinationBAddr) := by
  constructor
  · intro lists
    obtain ⟨fresh, distinct⟩ := List.nodup_cons.mp lists.distinct
    obtain ⟨count, positive⟩ := (lists.counts x).mp List.mem_cons_self
    refine ⟨count, positive, distinct, ?_⟩
    intro e
    by_cases same : e.destinationBAddr = x.destinationBAddr
    · rw [same, Finsupp.erase_same]
      constructor
      · intro mem
        exact absurd (List.mem_map.mpr ⟨e, mem, same⟩) fresh
      · intro zero
        omega
    · rw [Finsupp.erase_ne same, ← lists.counts e, List.mem_cons]
      constructor
      · exact .inr
      · intro mem
        exact mem.resolve_left fun eq => same (congrArg _ eq)
  · intro ⟨count, positive, lists⟩
    have fresh : ∀ e ∈ rest, e.destinationBAddr ≠ x.destinationBAddr := by
      intro e mem same
      have counted := (lists.counts e).mp mem
      rw [same, Finsupp.erase_same] at counted
      omega
    constructor
    · rw [List.map_cons, List.nodup_cons]
      constructor
      · intro mem
        obtain ⟨e, mem, same⟩ := List.mem_map.mp mem
        exact fresh e mem same
      · exact lists.distinct
    · intro e
      rw [List.mem_cons, lists.counts e]
      by_cases same : e.destinationBAddr = x.destinationBAddr
      · rw [same, Finsupp.erase_same]
        constructor
        · intro either
          cases either with
          | inl eq =>
              rw [eq]
              exact ⟨count, positive⟩
          | inr zero => omega
        · intro counted
          apply Or.inl
          cases e
          cases x
          simp only at same count counted
          rw [same, counted.1, ← count]
      · rw [Finsupp.erase_ne same]
        constructor
        · intro either
          exact either.resolve_left fun eq => same (congrArg _ eq)
        · exact .inr

theorem Lists.mem_support (lists : Lists row t) :
    d ∈ t.support ↔ ∃ e ∈ row, e.destinationBAddr = d := by
  rw [Finsupp.mem_support_iff]
  constructor
  · intro counted
    refine ⟨⟨d, t d⟩, ?_, rfl⟩
    exact (lists.counts _).mpr ⟨rfl, Nat.pos_of_ne_zero counted⟩
  · intro ⟨e, mem, same⟩
    subst same
    have counted := (lists.counts e).mp mem
    omega

theorem Lists.length (lists : Lists row t) : row.length = t.support.card := by
  have support : t.support = (row.map (·.destinationBAddr)).toFinset := by
    ext d
    rw [lists.mem_support, List.mem_toFinset, List.mem_map]
  rw [support, List.toFinset_card_of_nodup lists.distinct, List.length_map]

/-- Of two entries the one that stands before the other has the higher rank. -/
theorem Lists.outranks (lists : Lists row t) {y : MarkovEntry} (mem : x ∈ row) (other : y ∈ row)
    (first : before x y = true) : Tally.Outranks t x.destinationBAddr y.destinationBAddr := by
  rw [before_iff, ((lists.counts x).mp mem).1, ((lists.counts y).mp other).1] at first
  exact first

/-! ## What the prefetcher does with a row -/

/-- `get_MFU_block_addr` finds the highest rank. -/
theorem Lists.mfu (lists : Lists (x :: rest) t) : Tally.Most t (getMfuBlockAddr (x :: rest)) := by
  have mem := best_mem x rest
  constructor
  · exact lists.mem_support.mpr ⟨best x rest, mem, rfl⟩
  · intro d counted ne
    obtain ⟨y, other, rfl⟩ := lists.mem_support.mp counted
    exact lists.outranks mem other (best_before other fun same => ne (congrArg _ same))

theorem Lists.least {v : MarkovEntry} (lists : Lists row t) (found : lfu row = some v) :
    Tally.Least t v.destinationBAddr := by
  obtain ⟨mem, behind⟩ := lfu_behind found
  constructor
  · exact lists.mem_support.mpr ⟨v, mem, rfl⟩
  · intro d counted ne
    obtain ⟨y, other, rfl⟩ := lists.mem_support.mp counted
    exact lists.outranks other mem (behind y other fun same => ne (congrArg _ same))

theorem Lists.evict {v : MarkovEntry} (lists : Lists row t) (found : lfu row = some v) :
    Lists (row.erase v) (Tally.evict t) := by
  have least := lists.least found
  have drops : Tally.evict t = t.erase v.destinationBAddr := by
    ext d
    rw [Tally.evict_apply least, Finsupp.erase_apply]
  rw [drops]
  have front := lists.perm (List.perm_cons_erase (lfu_behind found).1).symm
  exact (lists_cons.mp front).2.2

/-- A successor that is not counted yet. -/
theorem Lists.push (lists : Lists row t) (fresh : d ∉ t.support) :
    Lists ({ destinationBAddr := d, numAccess := 1 } :: row) (t + Finsupp.single d 1) := by
  have zero : t d = 0 := Finsupp.notMem_support_iff.mp fresh
  have rest : (t + Finsupp.single d 1).erase d = t := by
    ext c
    rw [Finsupp.erase_apply]
    by_cases same : c = d
    · simp [same, zero]
    · simp [same]
  refine lists_cons.mpr ⟨?_, Nat.one_pos, ?_⟩
  · simp [zero]
  · rw [rest]
    exact lists

theorem modifyFirst_perm {α : Type} {p : α → Bool} {f : α → α} {l : List α} (some : l.any p = true) :
    ∃ x rest, p x = true ∧ l.Perm (x :: rest) ∧ (modifyFirst p f l).Perm (f x :: rest) := by
  induction l with
  | nil => cases some
  | cons y l ih =>
      unfold modifyFirst
      cases meets : p y with
      | true => exact ⟨y, l, meets, .refl _, .refl _⟩
      | false =>
          simp only [List.any_cons, meets, Bool.false_or] at some
          obtain ⟨x, rest, holds, whole, changed⟩ := ih some
          refine ⟨x, y :: rest, holds, ?_, ?_⟩
          · exact (whole.cons y).trans (List.Perm.swap x y rest)
          · exact (changed.cons y).trans (List.Perm.swap (f x) y rest)

/-- A successor that is. -/
theorem Lists.bump (lists : Lists row t) (mem : row.any (·.destinationBAddr = d) = true) :
    Lists (modifyFirst (·.destinationBAddr = d) (fun e => { e with numAccess := e.numAccess + 1 }) row)
      (t + Finsupp.single d 1) := by
  obtain ⟨x, rest, same, whole, changed⟩ :=
    modifyFirst_perm (f := fun e : MarkovEntry => { e with numAccess := e.numAccess + 1 }) mem
  obtain ⟨count, -, others⟩ := lists_cons.mp (lists.perm whole.symm)
  have same : x.destinationBAddr = d := by simpa using same
  apply Lists.perm _ changed
  subst same
  have rest : (t + Finsupp.single x.destinationBAddr 1).erase x.destinationBAddr =
      t.erase x.destinationBAddr := by
    ext c
    rw [Finsupp.erase_apply, Finsupp.erase_apply]
    by_cases same : c = x.destinationBAddr
    · simp [same]
    · simp [same]
  refine lists_cons.mpr ⟨?_, Nat.succ_pos _, ?_⟩
  · simp [count]
  · rw [rest]
    exact others

theorem Lists.learn (lists : Lists row t) (bound : row.length ≤ 4) (d : Nat) :
    Lists ((isDestInMrkRow row d).getD (addNewEntry row d)) (Tally.count 4 t d) := by
  unfold isDestInMrkRow Tally.count
  by_cases mem : row.any (·.destinationBAddr = d) = true
  · have counted : d ∈ t.support := by
      rw [lists.mem_support]
      simpa using mem
    rw [if_pos mem, if_pos (.inl counted)]
    exact (lists.bump mem).sort
  · have fresh : d ∉ t.support := by
      rw [lists.mem_support]
      simpa using mem
    rw [if_neg mem, ← lists.length]
    simp only [fresh, false_or, Option.getD_none]
    unfold addNewEntry
    by_cases full : row.length = 4
    · rw [if_pos full, if_neg (by omega)]
      cases row with
      | nil => cases full
      | cons x rest =>
          have found := lfu_cons x rest
          rw [found]
          have gone : d ∉ (Tally.evict t).support := by
            rw [Tally.support_evict (lists.least found)]
            exact fun mem => fresh (Finset.mem_of_mem_erase mem)
          exact ((lists.evict found).push gone).sort
    · rw [if_neg full, if_pos (by omega)]
      exact (lists.push fresh).sort

end Markov

/-! ## The rows -/

/-- What the table is for: the blocks that were followed by another miss last, and how
    often each of them was by which. -/
structure Successors where
  sources : List Nat := []
  tally : Nat → (Nat →₀ ℕ) := fun _ => 0

namespace Successors

/-- The second block was missed after the first. -/
noncomputable def learn (n : Nat) (s : Successors) (pair : Nat × Nat) : Successors :=
  { sources := touch n s.sources pair.1
    tally := Function.update s.tally pair.1
      (Tally.count 4 (if pair.1 ∈ s.sources then s.tally pair.1 else 0) pair.2) }

/-- Each miss with the next one. -/
def pairs (blocks : List Nat) : List (Nat × Nat) := blocks.zip blocks.tail

/-- After misses of these blocks. -/
noncomputable def after (n : Nat) (blocks : List Nat) : Successors :=
  if n = 0 then {} else (pairs blocks).foldl (learn n) {}

theorem pairs_snoc (front : List Nat) (p b : Nat) :
    pairs (front ++ [p] ++ [b]) = pairs (front ++ [p]) ++ [(p, b)] := by
  induction front with
  | nil => rfl
  | cons x front ih =>
      cases front with
      | nil => rfl
      | cons y front => exact congrArg ((x, y) :: ·) ih

theorem after_snoc {n : Nat} (room : n ≠ 0) (front : List Nat) (p b : Nat) :
    after n (front ++ [p] ++ [b]) = (after n (front ++ [p])).learn n (p, b) := by
  unfold after
  rw [if_neg room, if_neg room, pairs_snoc, List.foldl_append]
  rfl

theorem map_pairs (blocks : List Nat) : (pairs blocks).map Prod.fst = blocks.dropLast := by
  induction blocks with
  | nil => rfl
  | cons x blocks ih =>
      cases blocks with
      | nil => rfl
      | cons y blocks => exact congrArg (x :: ·) ih

theorem foldl_sources (n : Nat) (history : List (Nat × Nat)) (s : Successors) :
    (history.foldl (learn n) s).sources = (history.map Prod.fst).foldl (touch n) s.sources := by
  induction history generalizing s with
  | nil => rfl
  | cons pair history ih => exact ih (s.learn n pair)

theorem after_sources (n : Nat) (blocks : List Nat) :
    (after n blocks).sources = (recent blocks.dropLast).take n := by
  unfold after
  by_cases none : n = 0
  · rw [if_pos none, none]
    rfl
  · rw [if_neg none, foldl_sources, map_pairs]
    exact foldl_touch (Nat.pos_of_ne_zero none) blocks.dropLast

end Successors

namespace Markov

/-- The rows are those of the blocks, in this order, each with its tally. -/
structure Keeps (n : Nat) (col : List MarkovRow) (s : Successors) : Prop where
  sources : col.map (·.sourceBAddr) = s.sources
  distinct : s.sources.Nodup
  room : s.sources.length ≤ n
  rows : ∀ row ∈ col, Lists row.mkvRow (s.tally row.sourceBAddr)
  small : ∀ row ∈ col, row.mkvRow.length ≤ 4
  filled : ∀ row ∈ col, row.mkvRow ≠ []

variable {n d : Nat} {t : Nat →₀ ℕ} {col : List MarkovRow} {s : Successors} {m : Markov}

theorem Lists.bounds {row : List MarkovEntry} (lists : Lists row (Tally.count 4 t d)) (bound : t.support.card ≤ 4) :
    row.length ≤ 4 ∧ row ≠ [] := by
  rw [lists.length]
  constructor
  · exact Tally.card_support_count (by decide) bound d
  · intro none
    obtain ⟨e, mem, -⟩ := lists.mem_support.mp (Tally.mem_support_count 4 t d)
    rw [none] at mem
    cases mem

/-- A row comes to the front, the others stay with their tallies. -/
theorem Keeps.put (keeps : Keeps n col s) (room : 0 < n) {p : Nat} {row : List MarkovEntry}
    {others : List MarkovRow} (sub : others.Sublist col)
    (sources : touch n s.sources p = p :: others.map (·.sourceBAddr))
    (bound : (if p ∈ s.sources then s.tally p else 0).support.card ≤ 4)
    (lists : Lists row (Tally.count 4 (if p ∈ s.sources then s.tally p else 0) d)) :
    Keeps n ({ sourceBAddr := p, mkvRow := row } :: others) (s.learn n (p, d)) := by
  have distinct := nodup_touch (n := n) keeps.distinct p
  have apart : ∀ other ∈ others, other.sourceBAddr ≠ p := by
    intro other mem same
    rw [sources, List.nodup_cons] at distinct
    exact distinct.1 (List.mem_map.mpr ⟨other, mem, same⟩)
  obtain ⟨small, filled⟩ := lists.bounds bound
  constructor
  · exact sources.symm
  · exact distinct
  · exact length_touch keeps.room room p
  · intro other mem
    simp only [Successors.learn]
    cases List.mem_cons.mp mem with
    | inl head =>
        subst head
        rw [Function.update_self]
        exact lists
    | inr mem =>
        rw [Function.update_of_ne (apart other mem)]
        exact keeps.rows other (sub.subset mem)
  · intro other mem
    cases List.mem_cons.mp mem with
    | inl head => exact head ▸ small
    | inr mem => exact keeps.small other (sub.subset mem)
  · intro other mem
    cases List.mem_cons.mp mem with
    | inl head => exact head ▸ filled
    | inr mem => exact keeps.filled other (sub.subset mem)

theorem Keeps.learn (keeps : Keeps n m.mkvCol s) (room : 0 < n) (rows : m.maxMkvRows = n) (d : Nat) :
    Keeps n (m.learn d).mkvCol (s.learn n (m.prevBlock, d)) := by
  unfold Markov.learn
  cases found : m.mkvCol.find? (·.sourceBAddr = m.prevBlock) with
  | some row =>
      have mem := List.mem_of_find?_eq_some found
      have source : row.sourceBAddr = m.prevBlock := by simpa using List.find?_some found
      have inside : m.prevBlock ∈ s.sources := by
        rw [← keeps.sources]
        exact List.mem_map.mpr ⟨row, mem, source⟩
      have lists := keeps.rows row mem
      rw [source] at lists
      simp only [source]
      apply keeps.put room List.eraseP_sublist
      · rw [touch, if_pos inside, ← keeps.sources, List.erase_eq_eraseP, List.eraseP_map]
        simp only [Function.comp_def, BEq.comm (a := m.prevBlock)]
        rfl
      · rw [if_pos inside, ← lists.length]
        exact keeps.small row mem
      · rw [if_pos inside]
        exact lists.learn (keeps.small row mem) d
  | none =>
      have outside : m.prevBlock ∉ s.sources := by
        rw [← keeps.sources]
        intro mem
        obtain ⟨row, mem, source⟩ := List.mem_map.mp mem
        exact absurd (List.find?_eq_none.mp found row mem) (by simpa using source)
      have length : m.mkvCol.length = s.sources.length := by
        rw [← keeps.sources, List.length_map]
      have bound := keeps.room
      simp only [addNewRow, rows]
      rw [if_neg (by omega)]
      apply keeps.put room
      · split
        · exact List.dropLast_sublist _
        · exact List.Sublist.refl _
      · rw [touch, if_neg outside, ← keeps.sources, List.length_map, length]
        by_cases full : s.sources.length = n
        · rw [if_pos (by omega), if_pos full, List.map_dropLast]
        · rw [if_neg (by omega), if_neg full]
      · simp [outside]
      · rw [if_neg outside]
        exact lists_nil.learn (by decide) d

/-! ## Misses -/

/-- What both prefetchers do with the table at a miss. -/
def step (m : Markov) (missed : Nat) : Markov :=
  if m.maxMkvRows = 0 ∨ m.pfFirstBlock then m.seen missed else (m.learn missed).seen missed

/-- The table after misses of these blocks. -/
structure Tracks (n : Nat) (blocks : List Nat) (m : Markov) : Prop where
  rows : m.maxMkvRows = n
  first : m.pfFirstBlock = blocks.isEmpty
  prev : ∀ b ∈ blocks.getLast?, b = m.prevBlock
  keeps : Keeps n m.mkvCol (Successors.after n blocks)

theorem learn_maxMkvRows (m : Markov) (missed : Nat) : (m.learn missed).maxMkvRows = m.maxMkvRows := by
  unfold learn addNewRow
  split
  · rfl
  · split
    · rfl
    · rfl

theorem tracks_nil (n : Nat) : Tracks n [] { maxMkvRows := n } where
  rows := rfl
  first := rfl
  prev b last := by cases last
  keeps := by
    have none : Successors.after n [] = {} := by
      unfold Successors.after
      split
      · rfl
      · rfl
    rw [none]
    constructor
    · rfl
    · exact List.nodup_nil
    · exact Nat.zero_le n
    · intro row mem
      cases mem
    · intro row mem
      cases mem
    · intro row mem
      cases mem

theorem Tracks.step {blocks : List Nat} (tracks : Tracks n blocks m) (missed : Nat) :
    Tracks n (blocks ++ [missed]) (m.step missed) := by
  have last : ∀ b ∈ (blocks ++ [missed]).getLast?, b = missed := by
    intro b mem
    rw [List.getLast?_concat] at mem
    exact (Option.some_inj.mp mem).symm
  have more : false = (blocks ++ [missed]).isEmpty := by simp
  unfold Markov.step
  by_cases idle : m.maxMkvRows = 0 ∨ m.pfFirstBlock = true
  · rw [if_pos idle]
    refine ⟨tracks.rows, more, last, ?_⟩
    -- Without a row to hold it, or a block before it, nothing is learned.
    have same : Successors.after n (blocks ++ [missed]) = Successors.after n blocks := by
      unfold Successors.after
      cases idle with
      | inl none => rw [if_pos (tracks.rows.symm.trans none), if_pos (tracks.rows.symm.trans none)]
      | inr first =>
          rw [tracks.first, List.isEmpty_iff] at first
          subst first
          rfl
    rw [same]
    exact tracks.keeps
  · rw [if_neg idle]
    obtain ⟨rows, later⟩ := not_or.mp idle
    rw [tracks.rows] at rows
    refine ⟨(learn_maxMkvRows m missed).trans tracks.rows, more, last, ?_⟩
    rw [tracks.first, List.isEmpty_iff] at later
    have split := List.dropLast_append_getLast later
    have prev := tracks.prev _ (List.getLast?_eq_some_getLast later)
    rw [← split, Successors.after_snoc rows, split, prev]
    exact tracks.keeps.learn (Nat.pos_of_ne_zero rows) tracks.rows missed

end Markov

/-- A demand miss: the cache, its peer and the request. -/
structure Miss where
  cache : Cache
  peer : Option Cache
  demand : MemReq

namespace Miss

def block (x : Miss) : Nat := x.cache.getBlockAddr x.demand.addr

/-- The block of the byte address is in the cache or in its peer. -/
def Resident (x : Miss) (byteAddr : Nat) : Prop :=
  x.peer.any (·.blockIn byteAddr) = true ∨ x.cache.blockIn byteAddr = true

end Miss

namespace Prefetcher

/-- What the prefetcher asks for at a miss. -/
def prefetches (pf : Prefetcher) (x : Miss) : Option Nat := (pf.onMiss x.cache x.peer x.demand).2

def after (pf : Prefetcher) (misses : List Miss) : Prefetcher :=
  misses.foldl (fun pf x => (pf.onMiss x.cache x.peer x.demand).1) pf

variable {n : Nat} {m : Markov} {x : Miss} {misses : List Miss}

theorem onMiss_markov (m : Markov) (x : Miss) :
    ((Prefetcher.markov m).onMiss x.cache x.peer x.demand).1 = .markov (m.step x.block) := by
  unfold onMiss markovMiss Markov.step Miss.block
  simp only
  split
  · rfl
  · rfl

theorem onMiss_hybrid (m : Markov) (x : Miss) :
    ((Prefetcher.hybrid m).onMiss x.cache x.peer x.demand).1 = .hybrid (m.step x.block) := by
  unfold onMiss hybridMiss Markov.step Miss.block
  simp only
  by_cases none : m.maxMkvRows = 0
  · rw [if_pos none, if_pos (.inl none)]
    rfl
  · rw [if_neg none]
    simp only [none, false_or]
    rfl

theorem after_snoc (pf : Prefetcher) (misses : List Miss) (x : Miss) :
    pf.after (misses ++ [x]) = ((pf.after misses).onMiss x.cache x.peer x.demand).1 := by
  unfold after
  rw [List.foldl_append]
  rfl

/-- Both keep the same table. -/
theorem after_tracks (n : Nat) (misses : List Miss) : ∃ m,
    (Prefetcher.markov { maxMkvRows := n }).after misses = .markov m ∧
    (Prefetcher.hybrid { maxMkvRows := n }).after misses = .hybrid m ∧
    m.Tracks n (misses.map Miss.block) := by
  induction misses using List.reverseRecOn with
  | nil => exact ⟨_, rfl, rfl, Markov.tracks_nil n⟩
  | append_singleton misses x ih =>
      obtain ⟨m, markov, hybrid, tracks⟩ := ih
      refine ⟨m.step x.block, ?_, ?_, ?_⟩
      · rw [after_snoc, markov, onMiss_markov]
      · rw [after_snoc, hybrid, onMiss_hybrid]
      · rw [List.map_append]
        exact tracks.step x.block

/-! ## Predictions -/

/-- The successor counted most is asked for, unless it is the block itself or resident. -/
theorem predict_iff {blocks : List Nat} (tracks : m.Tracks n blocks) (x : Miss) (b : Nat) :
    Markov.predict x.cache x.peer x.block (m.row x.block) = some b ↔
      ∃ v, x.block ∈ m.mkvCol.map (·.sourceBAddr) ∧
        Tally.Most ((Successors.after n blocks).tally x.block) v ∧ v ≠ x.block ∧
        b = shiftLeft64 v x.cache.cfg.b ∧ ¬x.Resident b := by
  unfold Markov.row
  cases found : m.mkvCol.find? (·.sourceBAddr = x.block) with
  | none =>
      have outside : x.block ∉ m.mkvCol.map (·.sourceBAddr) := by
        intro mem
        obtain ⟨row, mem, source⟩ := List.mem_map.mp mem
        exact absurd (List.find?_eq_none.mp found row mem) (by simpa using source)
      simp [Markov.predict, outside]
  | some row =>
      have mem := List.mem_of_find?_eq_some found
      have source : row.sourceBAddr = x.block := by simpa using List.find?_some found
      have inside : x.block ∈ m.mkvCol.map (·.sourceBAddr) := List.mem_map.mpr ⟨row, mem, source⟩
      have lists := tracks.keeps.rows row mem
      have filled := tracks.keeps.filled row mem
      rw [source] at lists
      obtain ⟨_, entries⟩ := row
      cases entries with
      | nil => exact absurd rfl filled
      | cons e rest =>
          have most := lists.mfu
          simp only [Markov.predict]
          constructor
          · intro asked
            split at asked
            · next free =>
                simp only [Bool.and_eq_true, Bool.not_eq_true', bne_iff_ne] at free
                rw [← Option.some_inj.mp asked]
                refine ⟨_, inside, most, free.2, rfl, ?_⟩
                simp [Miss.Resident, free]
            · cases asked
          · intro ⟨v, _, most', other, addr, free⟩
            have same := most'.unique most
            subst same addr
            simp only [Miss.Resident, not_or, Bool.not_eq_true] at free
            simp [free, other]

theorem row_none_iff (m : Markov) (b : Nat) :
    m.row b = none ↔ b ∉ m.mkvCol.map (·.sourceBAddr) := by
  simp [Markov.row, List.find?_eq_none]

/-- Until it has learned something, a table has no rows. -/
theorem idle_row {blocks : List Nat} (tracks : m.Tracks n blocks)
    (idle : m.maxMkvRows = 0 ∨ m.pfFirstBlock = true) : m.mkvCol = [] := by
  have none : (Successors.after n blocks).sources = [] := by
    rw [Successors.after_sources]
    cases idle with
    | inl none => simp [← tracks.rows, none]
    | inr first =>
        rw [tracks.first, List.isEmpty_iff] at first
        simp [first]
  rw [← tracks.keeps.sources, List.map_eq_nil_iff] at none
  exact none

theorem prefetches_markov {blocks : List Nat} (tracks : m.Tracks n blocks) (x : Miss) :
    (Prefetcher.markov m).prefetches x = Markov.predict x.cache x.peer x.block (m.row x.block) := by
  change (markovMiss m x.cache x.peer x.block).2 = _
  unfold markovMiss
  by_cases idle : m.maxMkvRows = 0 ∨ m.pfFirstBlock = true
  · have none : m.row x.block = none := by
      rw [row_none_iff, idle_row tracks idle]
      exact List.not_mem_nil
    rw [if_pos idle, none]
    rfl
  · rw [if_neg idle]

theorem prefetches_hybrid {blocks : List Nat} (tracks : m.Tracks n blocks) (x : Miss) :
    (Prefetcher.hybrid m).prefetches x =
      if x.block ∈ m.mkvCol.map (·.sourceBAddr) then (Prefetcher.markov m).prefetches x
      else Prefetcher.plusOne.prefetches x := by
  rw [prefetches_markov tracks]
  change (hybridMiss m x.cache x.peer x.block).2 = _
  unfold hybridMiss
  by_cases none : m.maxMkvRows = 0
  · have outside : x.block ∉ m.mkvCol.map (·.sourceBAddr) := by
      rw [idle_row tracks (.inl none)]
      exact List.not_mem_nil
    rw [if_pos none, if_neg outside]
    rfl
  · rw [if_neg none]
    cases found : m.row x.block with
    | none =>
        rw [if_neg ((row_none_iff m _).mp found)]
        rfl
    | some row =>
        have inside : x.block ∈ m.mkvCol.map (·.sourceBAddr) := by
          by_contra outside
          rw [(row_none_iff m _).mpr outside] at found
          cases found
        rw [if_pos inside]

/-- The next block is asked for exactly if it is neither here nor in the peer. -/
theorem plusOne_iff {b : Nat} : Prefetcher.plusOne.prefetches x = some b ↔
    b = shiftLeft64 (x.block + 1) x.cache.cfg.b ∧ ¬x.Resident b := by
  change plusOneMiss x.cache x.peer x.block = some b ↔ _
  simp only [plusOneMiss, Bool.or_eq_true]
  constructor
  · intro asked
    split at asked
    · cases asked
    · next free =>
        cases asked
        exact ⟨rfl, free⟩
  · rintro ⟨rfl, free⟩
    exact if_neg free

end Prefetcher

/-- The table after the misses of these blocks: the rows are those of the blocks last
    followed by a miss, and each is the tally of its successors. -/
structure Markov.TableOf (m : Markov) (n : Nat) (blocks : List Nat) : Prop where
  order : m.mkvCol.map (·.sourceBAddr) = (recent blocks.dropLast).take n
  bound : m.mkvCol.length ≤ n
  distinct : (m.mkvCol.map (·.sourceBAddr)).Nodup
  filled : ∀ row ∈ m.mkvCol, row.mkvRow ≠ []
  small : ∀ row ∈ m.mkvCol, row.mkvRow.length ≤ 4
  successors : ∀ row ∈ m.mkvCol,
    Markov.Lists row.mkvRow ((Successors.after n blocks).tally row.sourceBAddr)

theorem Markov.Tracks.tableOf {n : Nat} {blocks : List Nat} {m : Markov} (tracks : m.Tracks n blocks) :
    m.TableOf n blocks where
  order := tracks.keeps.sources.trans (Successors.after_sources n blocks)
  bound := by
    have bound := tracks.keeps.room
    rwa [← tracks.keeps.sources, List.length_map] at bound
  distinct := by
    rw [tracks.keeps.sources]
    exact tracks.keeps.distinct
  filled := tracks.keeps.filled
  small := tracks.keeps.small
  successors := tracks.keeps.rows

namespace Prefetcher

/-- After any misses the Markov prefetcher and the hybrid one have the same table of the
    blocks' successors. At a miss of a block with a row both ask for the successor counted
    most, else the hybrid one for the block after the missed one, as the next-block
    prefetcher does; neither asks for what is resident. -/
theorem markov_table (n : Nat) (misses : List Miss) : ∃ m,
    (Prefetcher.markov { maxMkvRows := n }).after misses = .markov m ∧
    (Prefetcher.hybrid { maxMkvRows := n }).after misses = .hybrid m ∧
    m.TableOf n (misses.map Miss.block) ∧
    ∀ x : Miss,
      (∀ b, (Prefetcher.markov m).prefetches x = some b ↔
        ∃ v, x.block ∈ m.mkvCol.map (·.sourceBAddr) ∧
          Tally.Most ((Successors.after n (misses.map Miss.block)).tally x.block) v ∧ v ≠ x.block ∧
          b = shiftLeft64 v x.cache.cfg.b ∧ ¬x.Resident b) ∧
      (Prefetcher.hybrid m).prefetches x =
        (if x.block ∈ m.mkvCol.map (·.sourceBAddr) then (Prefetcher.markov m).prefetches x
        else Prefetcher.plusOne.prefetches x) ∧
      (∀ b, Prefetcher.plusOne.prefetches x = some b ↔
        b = shiftLeft64 (x.block + 1) x.cache.cfg.b ∧ ¬x.Resident b) ∧
      ∀ b, (Prefetcher.markov m).prefetches x = some b ∨ (Prefetcher.hybrid m).prefetches x = some b →
        ¬x.Resident b := by
  obtain ⟨m, markov, hybrid, tracks⟩ := after_tracks n misses
  refine ⟨m, markov, hybrid, tracks.tableOf, ?_⟩
  intro x
  have predicts := predict_iff tracks x
  rw [← prefetches_markov tracks] at predicts
  have free : ∀ b, (Prefetcher.markov m).prefetches x = some b → ¬x.Resident b := by
    intro b asked
    obtain ⟨v, -, -, -, -, free⟩ := (predicts b).mp asked
    exact free
  refine ⟨predicts, prefetches_hybrid tracks x, fun b => plusOne_iff, ?_⟩
  intro b asked
  cases asked with
  | inl asked => exact free b asked
  | inr asked =>
      rw [prefetches_hybrid tracks] at asked
      split at asked
      · exact free b asked
      · exact (plusOne_iff.mp asked).2

end Prefetcher

end Memory
