import MulticoreSim.Coherence.Directory
import MulticoreSim.Library.Recency
import Mathlib.Data.Finset.Basic
import Mathlib.Data.List.Pairwise

/-! # The shared cache

Its operations, and that it is a set-associative cache which gives up what was
least recently used.
-/

namespace Coherence

namespace LlsCache

/-! ## The remaining operations -/

def contains (c : LlsCache) (block : BlockId) : Bool :=
  if c.numSets = 0 then false else (c.sets (block % c.numSets)).contains block

def invalidate (c : LlsCache) (block : BlockId) : LlsCache :=
  if c.numSets = 0 then c
  else
    let index := block % c.numSets
    { c with sets := Function.update c.sets index ((c.sets index).erase block) }

/-! ## The reference -/

/-- Which blocks are there, and when each was last accessed. -/
structure Reference where
  resident : Finset BlockId := ∅
  lastAccess : BlockId → Nat := fun _ => 0
  now : Nat := 0

/-- The resident blocks of a set. -/
def Reference.members (r : Reference) (numSets k : Nat) : Finset BlockId :=
  r.resident.filter (· % numSets = k)

/-- A block is accessed and is resident from then on. -/
def Reference.use (r : Reference) (resident : Finset BlockId) (block : BlockId) : Reference where
  resident := insert block resident
  lastAccess := Function.update r.lastAccess block r.now
  now := r.now + 1

inductive Request where
  | access (block : BlockId)
  | contains (block : BlockId)
  | invalidate (block : BlockId)
  deriving DecidableEq, Repr

inductive Answer where
  | lookup (r : LlsLookup)
  | holds (yes : Bool)
  | done
  deriving DecidableEq, Repr

/-- What the reference does. -/
inductive Reference.Step (assoc numSets : Nat) (r : Reference) : Request → Reference → Answer → Prop where
  | hit {block : BlockId} : block ∈ r.resident →
      Step assoc numSets r (.access block) (r.use r.resident block) (.lookup { hit := true })
  | install {block : BlockId} : block ∉ r.resident →
      (r.members numSets (block % numSets)).card < assoc →
        Step assoc numSets r (.access block) (r.use r.resident block) (.lookup {})
  /-- Only where the set is full, its least recently accessed block goes. -/
  | evict {block victim : BlockId} : block ∉ r.resident →
      (r.members numSets (block % numSets)).card = assoc →
        victim ∈ r.members numSets (block % numSets) →
          (∀ other ∈ r.members numSets (block % numSets), r.lastAccess victim ≤ r.lastAccess other) →
            Step assoc numSets r (.access block) (r.use (r.resident.erase victim) block)
              (.lookup { evicted := true, victim })
  | contains {block : BlockId} :
      Step assoc numSets r (.contains block) r (.holds (decide (block ∈ r.resident)))
  | invalidate {block : BlockId} :
      Step assoc numSets r (.invalidate block) { r with resident := r.resident.erase block } .done

inductive Reference.Run (assoc numSets : Nat) :
    Reference → List Request → Reference → List Answer → Prop where
  | nil {r : Reference} : Run assoc numSets r [] r []
  | cons {r r' r'' : Reference} {x : Request} {a : Answer} {xs : List Request} {as : List Answer} :
      Step assoc numSets r x r' a → Run assoc numSets r' xs r'' as →
        Run assoc numSets r (x :: xs) r'' (a :: as)

/-! ## The cache against the reference -/

def perform (c : LlsCache) : Request → LlsCache × Answer
  | .access block => ((c.access block).1, .lookup (c.access block).2)
  | .contains block => (c, .holds (c.contains block))
  | .invalidate block => (c.invalidate block, .done)

def performAll (c : LlsCache) : List Request → LlsCache × List Answer
  | [] => (c, [])
  | x :: xs =>
      let (c, a) := c.perform x
      let (c, as) := c.performAll xs
      (c, a :: as)

/-- Every set lists the reference's blocks of that set in order of last access. -/
structure Lists (c : LlsCache) (r : Reference) : Prop where
  enabled : 0 < c.numSets
  ways : 0 < c.assoc
  members : ∀ k, (c.sets k).toFinset = r.members c.numSets k
  timed : ∀ k, Timed r.lastAccess r.now (c.sets k)
  bounded : ∀ k, (c.sets k).length ≤ c.assoc

variable {c : LlsCache} {r : Reference} {block : BlockId} {k : Nat}

theorem Lists.mem (lists : Lists c r) : block ∈ c.sets k ↔ block ∈ r.resident ∧ block % c.numSets = k := by
  rw [← List.mem_toFinset, lists.members, Reference.members, Finset.mem_filter]

theorem Lists.mem_own (lists : Lists c r) : block ∈ c.sets (block % c.numSets) ↔ block ∈ r.resident := by
  rw [lists.mem]
  simp

theorem Lists.card (lists : Lists c r) (k : Nat) : (r.members c.numSets k).card = (c.sets k).length := by
  rw [← lists.members k, List.toFinset_card_of_nodup (lists.timed k).nodup]

/-- A block is put in front of what is kept of its set. -/
theorem Lists.use (lists : Lists c r) {rest : List BlockId} {resident : Finset BlockId}
    (sub : rest.Sublist (c.sets (block % c.numSets))) (outside : block ∉ rest)
    (kept : ∀ b, b ≠ block → (b ∈ resident ↔
      if b % c.numSets = block % c.numSets then b ∈ rest else b ∈ r.resident))
    (room : rest.length < c.assoc) :
    Lists { c with sets := Function.update c.sets (block % c.numSets) (block :: rest) }
      (r.use resident block) where
  enabled := lists.enabled
  ways := lists.ways
  members k := by
    ext b
    simp only [Reference.members, Reference.use, List.mem_toFinset, Finset.mem_filter, Finset.mem_insert]
    by_cases eq : b = block
    · subst eq
      by_cases own : k = b % c.numSets
      · subst own
        simp
      · rw [Function.update_of_ne own, lists.mem]
        simp [Ne.symm own]
    · rw [kept b eq]
      by_cases own : k = block % c.numSets
      · subst own
        rw [Function.update_self]
        simp only [List.mem_cons, eq, false_or]
        constructor
        · intro mem
          have index := (lists.mem.mp (sub.subset mem)).2
          exact ⟨by rwa [if_pos index], index⟩
        · rintro ⟨mem, index⟩
          rwa [if_pos index] at mem
      · rw [Function.update_of_ne own, lists.mem]
        constructor
        · rintro ⟨mem, rfl⟩
          exact ⟨.inr (by rwa [if_neg own]), rfl⟩
        · rintro ⟨mem, rfl⟩
          rw [if_neg own] at mem
          exact ⟨mem.resolve_left eq, rfl⟩
  timed k := by
    by_cases own : k = block % c.numSets
    · subst own
      simp only [Function.update_self]
      exact ((lists.timed _).sublist sub).use outside
    · simp only [Function.update_of_ne own]
      apply (lists.timed k).elsewhere
      intro mem
      exact own (lists.mem.mp mem).2.symm
  bounded k := by
    by_cases own : k = block % c.numSets
    · subst own
      simp only [Function.update_self]
      exact room
    · simp only [Function.update_of_ne own]
      exact lists.bounded k

theorem Lists.access_hit (lists : Lists c r) (hit : block ∈ r.resident) :
    ∃ r', r.Step c.assoc c.numSets (.access block) r' (.lookup (c.access block).2) ∧
      Lists (c.access block).1 r' := by
  have own := lists.mem_own.mpr hit
  have step := (lists.timed (block % c.numSets)).nodup
  simp only [LlsCache.access, lists.enabled.ne', if_false, own, if_true]
  refine ⟨_, .hit hit, lists.use List.erase_sublist step.not_mem_erase (fun b ne => ?_) ?_⟩
  · split
    · next index =>
        rw [List.mem_erase_of_ne ne, lists.mem]
        simp [index]
    · rfl
  · have some := List.length_pos_of_mem own
    have bound := lists.bounded (block % c.numSets)
    rw [List.length_erase_of_mem own]
    omega

theorem Lists.access_full (lists : Lists c r) (miss : block ∉ r.resident)
    (full : c.assoc ≤ (c.sets (block % c.numSets)).length) :
    ∃ r', r.Step c.assoc c.numSets (.access block) r' (.lookup (c.access block).2) ∧
      Lists (c.access block).1 r' := by
  have own := mt lists.mem_own.mp miss
  have exactly : (c.sets (block % c.numSets)).length = c.assoc := Nat.le_antisymm (lists.bounded _) full
  have timed := lists.timed (block % c.numSets)
  have some : c.sets (block % c.numSets) ≠ [] := by
    intro empty
    rw [empty] at exactly
    exact absurd exactly lists.ways.ne
  obtain ⟨front, victim, split⟩ := List.eq_nil_or_concat (c.sets (block % c.numSets)) |>.resolve_left some
  have split : c.sets (block % c.numSets) = front ++ [victim] := by simpa using split
  simp only [LlsCache.access, lists.enabled.ne', if_false, own, full, if_true]
  have final : (c.sets (block % c.numSets)).getLast? = .some victim := by simp [split]
  have apart : victim ∉ front := by
    intro mem
    have nodup := split ▸ timed.nodup
    exact (List.nodup_append.mp nodup).2.2 victim mem victim List.mem_cons_self rfl
  have mem : victim ∈ r.members c.numSets (block % c.numSets) := by
    rw [← lists.members, List.mem_toFinset, split]
    simp
  rw [final]
  refine ⟨_, .evict miss ((lists.card _).trans exactly) mem (fun other inside => ?_),
    lists.use (List.dropLast_sublist _) (fun inside => own (List.mem_of_mem_dropLast inside))
      (fun b ne => ?_) ?_⟩
  · rw [← lists.members, List.mem_toFinset] at inside
    exact timed.least final other inside
  · have index := (lists.mem.mp (split ▸ List.mem_append_right front List.mem_cons_self)).2
    rw [Finset.mem_erase]
    split
    · next same =>
        rw [split, List.dropLast_concat]
        have inside : b ∈ r.resident ↔ b ∈ front ++ [victim] := by
          rw [← split, lists.mem]
          simp [same]
        rw [inside, List.mem_append, List.mem_singleton]
        constructor
        · rintro ⟨other, mem | eq⟩
          · exact mem
          · exact absurd eq other
        · intro mem
          exact ⟨ne_of_mem_of_not_mem mem apart, .inl mem⟩
    · next other =>
        have ne : b ≠ victim := by
          rintro rfl
          exact other index
        simp [ne]
  · have positive := lists.ways
    rw [List.length_dropLast]
    omega

theorem Lists.access_room (lists : Lists c r) (miss : block ∉ r.resident)
    (room : ¬c.assoc ≤ (c.sets (block % c.numSets)).length) :
    ∃ r', r.Step c.assoc c.numSets (.access block) r' (.lookup (c.access block).2) ∧
      Lists (c.access block).1 r' := by
  have own := mt lists.mem_own.mp miss
  simp only [LlsCache.access, lists.enabled.ne', if_false, own, room]
  have less : (r.members c.numSets (block % c.numSets)).card < c.assoc := by
    rw [lists.card]
    omega
  refine ⟨_, .install miss less, lists.use (List.Sublist.refl _) own (fun b ne => ?_) (by omega)⟩
  split
  · next index =>
      rw [lists.mem]
      simp [index]
  · rfl

theorem Lists.contains (lists : Lists c r) : c.contains block = decide (block ∈ r.resident) := by
  simp only [LlsCache.contains, lists.enabled.ne', if_false]
  by_cases mem : block ∈ r.resident
  · simpa [mem] using lists.mem_own.mpr mem
  · simpa [mem] using mt lists.mem_own.mp mem

theorem Lists.invalidate (lists : Lists c r) :
    Lists (c.invalidate block) { r with resident := r.resident.erase block } := by
  simp only [LlsCache.invalidate, lists.enabled.ne', if_false]
  refine ⟨lists.enabled, lists.ways, fun k => ?_, fun k => ?_, fun k => ?_⟩
  · ext b
    simp only [Reference.members, List.mem_toFinset, Finset.mem_filter, Finset.mem_erase]
    by_cases own : k = block % c.numSets
    · subst own
      simp only [Function.update_self, (lists.timed _).nodup.mem_erase_iff, lists.mem]
      tauto
    · simp only [Function.update_of_ne own, lists.mem]
      constructor
      · rintro ⟨mem, rfl⟩
        refine ⟨⟨?_, mem⟩, rfl⟩
        rintro rfl
        exact own rfl
      · rintro ⟨⟨-, mem⟩, index⟩
        exact ⟨mem, index⟩
  · by_cases own : k = block % c.numSets
    · subst own
      simp only [Function.update_self]
      exact (lists.timed _).sublist List.erase_sublist
    · simp only [Function.update_of_ne own]
      exact lists.timed k
  · by_cases own : k = block % c.numSets
    · subst own
      simp only [Function.update_self]
      exact List.erase_sublist.length_le.trans (lists.bounded _)
    · simp only [Function.update_of_ne own]
      exact lists.bounded k

theorem access_geometry (c : LlsCache) (block : BlockId) :
    (c.access block).1.assoc = c.assoc ∧ (c.access block).1.numSets = c.numSets := by
  unfold LlsCache.access
  split
  · exact ⟨rfl, rfl⟩
  · simp only
    split
    · exact ⟨rfl, rfl⟩
    · split <;> exact ⟨rfl, rfl⟩

theorem perform_geometry (c : LlsCache) (x : Request) :
    (c.perform x).1.assoc = c.assoc ∧ (c.perform x).1.numSets = c.numSets := by
  cases x with
  | access block => exact access_geometry c block
  | contains block => exact ⟨rfl, rfl⟩
  | invalidate block =>
      simp only [perform, invalidate]
      split <;> exact ⟨rfl, rfl⟩

theorem Lists.access (lists : Lists c r) (block : BlockId) :
    ∃ r', r.Step c.assoc c.numSets (.access block) r' (.lookup (c.access block).2) ∧
      Lists (c.access block).1 r' := by
  by_cases hit : block ∈ r.resident
  · exact lists.access_hit hit
  · by_cases full : c.assoc ≤ (c.sets (block % c.numSets)).length
    · exact lists.access_full hit full
    · exact lists.access_room hit full

/-- One operation. -/
theorem Lists.perform (lists : Lists c r) (x : Request) :
    ∃ r', r.Step c.assoc c.numSets x r' (c.perform x).2 ∧ Lists (c.perform x).1 r' := by
  cases x with
  | access block => exact lists.access block
  | contains block =>
      refine ⟨r, ?_, lists⟩
      simp only [LlsCache.perform, lists.contains]
      exact .contains
  | invalidate block => exact ⟨_, .invalidate, lists.invalidate⟩

theorem Lists.performAll (lists : Lists c r) (xs : List Request) :
    ∃ r', Reference.Run c.assoc c.numSets r xs r' (c.performAll xs).2 ∧ Lists (c.performAll xs).1 r' := by
  induction xs generalizing c r with
  | nil => exact ⟨r, .nil, lists⟩
  | cons x xs ih =>
      obtain ⟨r₁, step, lists₁⟩ := lists.perform x
      obtain ⟨r₂, run, lists₂⟩ := ih lists₁
      obtain ⟨assoc, numSets⟩ := perform_geometry c x
      rw [assoc, numSets] at run
      exact ⟨r₂, .cons step run, lists₂⟩

theorem Lists.make {sizeBlocks assoc : Nat} (some : 0 < sizeBlocks) (ways : 0 < assoc)
    (made : LlsCache.make sizeBlocks assoc = .ok c) : Lists c {} := by
  obtain ⟨whole, rfl⟩ := make_ok made some ways
  have enabled : 0 < sizeBlocks / assoc := Nat.div_pos (Nat.le_of_dvd some whole) ways
  exact ⟨enabled, ways, fun k => rfl, fun k => ⟨.nil, nofun⟩, fun k => Nat.zero_le _⟩

/-- The reference has one answer to a request, and one successor. -/
theorem Reference.Step.unique {assoc numSets : Nat} {r r₁ r₂ : Reference} {x : Request} {a₁ a₂ : Answer}
    (apart : ∀ k, ∀ b ∈ r.members numSets k, ∀ b' ∈ r.members numSets k,
      r.lastAccess b = r.lastAccess b' → b = b')
    (first : r.Step assoc numSets x r₁ a₁) (second : r.Step assoc numSets x r₂ a₂) : r₁ = r₂ ∧ a₁ = a₂ := by
  cases first with
  | hit hit =>
      cases second with
      | hit => exact ⟨rfl, rfl⟩
      | install miss | evict miss => exact absurd hit miss
  | install miss room =>
      cases second with
      | hit hit => exact absurd hit miss
      | install => exact ⟨rfl, rfl⟩
      | evict _ full => exact absurd full room.ne
  | @evict _ v miss full mem least =>
      cases second with
      | hit hit => exact absurd hit miss
      | install _ room => exact absurd full room.ne
      | @evict _ v' _ _ mem' least' =>
          have same : v = v' :=
            apart _ v mem v' mem' (Nat.le_antisymm (least v' mem') (least' v mem))
          subst same
          exact ⟨rfl, rfl⟩
  | contains =>
      cases second
      exact ⟨rfl, rfl⟩
  | invalidate =>
      cases second
      exact ⟨rfl, rfl⟩

theorem Lists.apart (lists : Lists c r) (k : Nat) (b : BlockId) (mem : b ∈ r.members c.numSets k)
    (b' : BlockId) (mem' : b' ∈ r.members c.numSets k) (same : r.lastAccess b = r.lastAccess b') : b = b' := by
  rw [← lists.members, List.mem_toFinset] at mem mem'
  by_contra ne
  have differ : (c.sets k).Pairwise fun x y => r.lastAccess x ≠ r.lastAccess y :=
    (lists.timed k).order.imp fun later => later.ne'
  have : Std.Symm fun x y : BlockId => r.lastAccess x ≠ r.lastAccess y := ⟨fun _ _ => Ne.symm⟩
  exact differ.forall mem mem' ne same

/-- Whatever the reference answers, the cache answers. -/
theorem Lists.agrees (lists : Lists c r) {xs : List Request} {r' : Reference} {as : List Answer}
    (run : Reference.Run c.assoc c.numSets r xs r' as) :
    as = (c.performAll xs).2 ∧ Lists (c.performAll xs).1 r' := by
  induction xs generalizing c r as with
  | nil =>
      cases run
      exact ⟨rfl, lists⟩
  | cons x xs ih =>
      cases run with
      | cons step run =>
          obtain ⟨r₁, step₁, lists₁⟩ := lists.perform x
          obtain ⟨rfl, rfl⟩ := step.unique lists.apart step₁
          obtain ⟨assoc, numSets⟩ := perform_geometry c x
          rw [← assoc, ← numSets] at run
          obtain ⟨answers, lists'⟩ := ih lists₁ run
          exact ⟨congrArg (List.cons _) answers, lists'⟩

/-! ## Probes -/

def Request.isProbe : Request → Bool
  | .contains _ => true
  | _ => false

def Answer.isProbe : Answer → Bool
  | .holds _ => true
  | _ => false

/-- Without its probes a sequence leads to the same cache with the same other answers. -/
theorem performAll_probeless (c : LlsCache) (xs : List Request) :
    (c.performAll (xs.filter (!·.isProbe))).1 = (c.performAll xs).1 ∧
      (c.performAll (xs.filter (!·.isProbe))).2 = (c.performAll xs).2.filter (!·.isProbe) := by
  induction xs generalizing c with
  | nil => exact ⟨rfl, rfl⟩
  | cons x xs ih =>
      cases x with
      | contains block => exact ih c
      | access block =>
          obtain ⟨state, answers⟩ := ih (c.access block).1
          exact ⟨state, congrArg (List.cons _) answers⟩
      | invalidate block =>
          obtain ⟨state, answers⟩ := ih (c.invalidate block)
          exact ⟨state, congrArg (List.cons _) answers⟩

theorem performAll_geometry (c : LlsCache) (xs : List Request) :
    (c.performAll xs).1.numSets = c.numSets ∧ (c.performAll xs).1.assoc = c.assoc := by
  induction xs generalizing c with
  | nil => exact ⟨rfl, rfl⟩
  | cons x xs ih =>
      obtain ⟨assoc, numSets⟩ := perform_geometry c x
      obtain ⟨numSets', assoc'⟩ := ih (c.perform x).1
      exact ⟨numSets'.trans numSets, assoc'.trans assoc⟩

/-- The shared cache, where its constructor builds one, is a set-associative cache that gives up the
    least recently accessed block. -/
theorem lru_reference (sizeBlocks assoc : Nat) (some : 0 < sizeBlocks) (ways : 0 < assoc)
    {fresh : LlsCache} (made : LlsCache.make sizeBlocks assoc = .ok fresh) (xs : List Request) :
    let c := fresh.performAll xs
    (∃ r as, Reference.Run assoc (sizeBlocks / assoc) {} xs r as) ∧
      (∀ r as, Reference.Run assoc (sizeBlocks / assoc) {} xs r as → as = c.2 ∧
        ∀ k, (c.1.sets k).toFinset = r.members (sizeBlocks / assoc) k ∧ (c.1.sets k).Nodup ∧
          (c.1.sets k).length ≤ assoc ∧ (∀ b ∈ c.1.sets k, b % (sizeBlocks / assoc) = k) ∧
          (c.1.sets k).Pairwise fun b b' => r.lastAccess b' < r.lastAccess b) ∧
      (fresh.performAll (xs.filter (!·.isProbe))).1 = c.1 ∧
      (fresh.performAll (xs.filter (!·.isProbe))).2 = c.2.filter (!·.isProbe) := by
  intro c
  have lists := Lists.make some ways made
  have geometry : fresh.assoc = assoc ∧ fresh.numSets = sizeBlocks / assoc := by
    obtain ⟨-, rfl⟩ := make_ok made some ways
    exact ⟨rfl, rfl⟩
  obtain ⟨numSets, bound⟩ := performAll_geometry fresh xs
  rw [geometry.2] at numSets
  rw [geometry.1] at bound
  refine ⟨?_, fun r as run => ?_, performAll_probeless _ xs⟩
  · obtain ⟨r, run, -⟩ := lists.performAll xs
    rw [geometry.1, geometry.2] at run
    exact ⟨r, _, run⟩
  · obtain ⟨answers, lists⟩ := lists.agrees (by rwa [geometry.1, geometry.2])
    refine ⟨answers, fun k => ⟨?_, (lists.timed k).nodup, ?_, fun b mem => ?_, (lists.timed k).order⟩⟩
    · rw [← numSets]
      exact lists.members k
    · rw [← bound]
      exact lists.bounded k
    · rw [← numSets]
      exact (lists.mem.mp mem).2

/-- Two sets of two ways: the second access keeps block 1, so that block 5 takes the place of 3. -/
theorem lru_reference_small :
    let xs := [.access 1, .access 3, .contains 3, .access 1, .access 5, .invalidate 1, .access 7]
    let c := (LlsCache.build 4 2).performAll xs
    (∀ r as, Reference.Run 2 2 {} xs r as → as = c.2) ∧ c.1.sets 1 = [7, 5] := by
  intro xs c
  have made : LlsCache.make 4 2 = .ok (LlsCache.build 4 2) := rfl
  have agreed := (lru_reference 4 2 (by decide) (by decide) made xs).2.1
  exact ⟨fun r as run => (agreed r as run).1, by decide⟩

end LlsCache

end Coherence
