import MulticoreSim.Library.DirectoryProtocol.Safety

/-! # Members cover the copies

A directory that forgets a node only when the node has no copy, and a node that takes
up its copy again only as a member: then whoever holds the line, or is promised it, is
a member, and an exclusive holder is the only one to hold it.
-/

namespace DirectoryProtocol

variable {ι : Type} [DecidableEq ι]

namespace Block

variable {B : Block ι}

/-- Who has a copy, or one coming, is a member. -/
structure Covered (B : Block ι) : Prop where
  resident : ∀ i, (B.slot i).resident = true → i ∈ B.members
  promised : ∀ i, (B.slot i).Promised → i ∈ B.members
  right : ∀ i, (B.slot i).resident = true → (B.slot i).right ≠ .none

/-- The event brings no copy to an outsider and makes none one. -/
def Tracks (B : Block ι) : Event ι → Prop
  | .refill i | .promote _ i => i ∈ B.members
  | .writeback i => (B.slot i).resident = false ∧ ∀ g, (B.slot i).phase ≠ .granted g
  | _ => True

omit [DecidableEq ι] in
theorem Covered.initial : (Block.initial ι).Covered where
  resident _ here := by cases here
  promised := by
    rintro i ⟨g, phase | phase⟩ <;> cases phase
  right _ here := by cases here

omit [DecidableEq ι] in
/-- A node without rights and without a promise has no copy. -/
theorem Covered.gone (covered : B.Covered) {i : ι} (gone : (B.slot i).Gone) :
    (B.slot i).resident = false := by
  by_contra here
  exact covered.right i (by simpa using here) gone.1

/-! ## Events of the nodes -/

/-- An event of one slot, whose copy and promise it accounts for. -/
theorem Covered.modify (covered : B.Covered) {i : ι} {f : Slot → Slot}
    (resident : (f (B.slot i)).resident = true →
      i ∈ B.members ∧ (f (B.slot i)).right ≠ .none)
    (promised : (f (B.slot i)).Promised → i ∈ B.members) : (B.modify i f).Covered := by
  constructor
  · intro j
    rw [modify_slot]
    split
    · next eq =>
        subst eq
        exact fun here => (resident here).1
    · exact covered.resident j
  · intro j
    rw [modify_slot]
    split
    · next eq =>
        subst eq
        exact promised
    · exact covered.promised j
  · intro j
    rw [modify_slot]
    split
    · next eq =>
        subst eq
        exact fun here => (resident here).2
    · exact covered.right j

omit [DecidableEq ι] in
theorem Covered.promised_of_granted (covered : B.Covered) {i : ι} {g : Grant}
    (granted : (B.slot i).phase = .granted g) : i ∈ B.members := covered.promised i ⟨g, .inr granted⟩

/-- An answer to an order leaves a copy only with a right. -/
theorem Covered.answer (covered : B.Covered) (i : ι) (right : Right) (reply : Reply) :
    (B.modify i (.answer right reply)).Covered := by
  apply covered.modify
  · intro here
    obtain ⟨old, some⟩ : (B.slot i).resident = true ∧ right ≠ .none := by
      simpa [Slot.answer] using here
    exact ⟨covered.resident i old, some⟩
  · exact covered.promised i

theorem Grant.right_ne_none (g : Grant) (w : Want) : g.right w ≠ .none := by
  cases g <;> cases w <;> nofun

theorem Covered.accept (covered : B.Covered) {i : ι} {g : Grant}
    (granted : (B.slot i).phase = .granted g) : (B.modify i .accept).Covered := by
  apply covered.modify
  · intro _
    refine ⟨covered.promised_of_granted granted, ?_⟩
    simp only [Slot.accept, Slot.effective, granted]
    exact Grant.right_ne_none _ _
  · rintro ⟨g, phase | phase⟩ <;> cases phase

/-! ## Events of the directory -/

end Block

namespace Slot

/-- The copy and the right stay, and a new promise is `owed`. -/
structure Carries (s s' : Slot) (owed : Prop) : Prop where
  resident : s'.resident = s.resident
  right : s'.right = s.right
  promised : s'.Promised → s.Promised ∨ owed

namespace Carries

variable {s s' s'' : Slot} {owed : Prop}

theorem refl (s : Slot) (owed : Prop) : s.Carries s owed := ⟨rfl, rfl, .inl⟩

theorem trans (first : s.Carries s' owed) (second : s'.Carries s'' owed) : s.Carries s'' owed where
  resident := second.resident.trans first.resident
  right := second.right.trans first.right
  promised here := (second.promised here).elim first.promised .inr

/-- Only the order and the eviction notices differ. -/
theorem same (s : Slot) (probe : Probe) (writebacks : Nat) (owed : Prop) :
    s.Carries { s with probe, writebacks } owed := ⟨rfl, rfl, .inl⟩

theorem wait (s : Slot) (owed : Prop) : s.Carries s.wait owed := by
  refine ⟨rfl, rfl, ?_⟩
  rintro ⟨g, phase | phase⟩ <;> cases phase

theorem grant (here : owed) (g : Grant) : s.Carries (s.grant g) owed := ⟨rfl, rfl, fun _ => .inr here⟩

theorem fetch (here : owed) (g : Grant) : s.Carries (s.fetch g) owed := ⟨rfl, rfl, fun _ => .inr here⟩

end Carries

theorem Yielding.gone {s : Slot} {right : Right} (yielding : s.Yielding right)
    (answered : s.probe = .answered .data) : s.Gone := by
  rcases yielding with ⟨other, -⟩ | ⟨-, gone⟩
  · cases other.symm.trans answered
  · exact gone

end Slot

namespace Block

variable {B : Block ι}

theorem carries_modify {i : ι} {f : Slot → Slot} {M : Finset ι}
    (here : (B.slot i).Carries (f (B.slot i)) (i ∈ M)) (j : ι) :
    (B.slot j).Carries ((B.modify i f).slot j) (j ∈ M) := by
  rw [modify_slot]
  split
  · next eq =>
      subst eq
      exact here
  · exact .refl _ _

theorem carries_order (B : Block ι) (targets M : Finset ι) (o : Order) (j : ι) :
    (B.slot j).Carries ((B.order targets o).slot j) (j ∈ M) := by
  rw [order_slot]
  split
  · exact .same _ _ _ _
  · exact .refl _ _

omit [DecidableEq ι] in
/-- The directory leaves copies as they are, promises members only and forgets nobody who
    has a copy or a promise. -/
theorem Covered.directed (covered : B.Covered) {X : Block ι}
    (carries : ∀ j, (B.slot j).Carries (X.slot j) (j ∈ X.members))
    (forgotten : ∀ j ∈ B.members, j ∉ X.members →
      (B.slot j).resident = false ∧ ¬ (B.slot j).Promised) : X.Covered := by
  constructor
  · intro j here
    have old := (carries j).resident ▸ here
    by_contra out
    cases old.symm.trans (forgotten j (covered.resident j old) out).1
  · intro j here
    by_contra out
    have old := ((carries j).promised here).resolve_right out
    exact (forgotten j (covered.promised j old) out).2 old
  · intro j here
    rw [(carries j).right]
    exact covered.right j ((carries j).resident ▸ here)

omit [DecidableEq ι] in
/-- The members grow. -/
theorem Covered.grows (covered : B.Covered) {X : Block ι} (sub : B.members ⊆ X.members)
    (carries : ∀ j, (B.slot j).Carries (X.slot j) (j ∈ X.members)) : X.Covered :=
  covered.directed carries fun _ mem out => absurd (sub mem) out

theorem Covered.fetch (covered : B.Covered) {i : ι} {g : Grant} {m : Mode ι} {members : Finset ι}
    (sub : B.members ⊆ members) (mem : i ∈ members) : (B.fetch i g m members).Covered :=
  covered.grows sub (carries_modify (.fetch mem g))

theorem Covered.serve (covered : B.Covered) {i : ι} {g : Grant} {m : Mode ι} {members : Finset ι}
    (sub : B.members ⊆ members) (mem : i ∈ members) : (B.serve i g m members).Covered :=
  covered.grows sub (carries_modify (.grant mem g))

theorem Covered.tell (covered : B.Covered) (h i : ι) (o : Order) (m : Mode ι) :
    (B.tell h i o m).Covered := by
  apply covered.grows (X := B.tell h i o m) (Finset.Subset.refl _)
  intro j
  have sent := carries_modify (B := B) (i := h) (f := .send o) (M := B.members) (.same _ _ _ _) j
  exact sent.trans (carries_modify (B := B.modify h (.send o)) (.wait _ _) j)

theorem Covered.purge (covered : B.Covered) (targets : Finset ι) (i : ι) (m : Mode ι) :
    (B.purge targets i m).Covered := by
  apply covered.grows (X := B.purge targets i m) (Finset.Subset.refl _)
  intro j
  have ordered := carries_order B targets B.members .invalidate j
  exact ordered.trans (carries_modify (.wait _ _) j)

omit [DecidableEq ι] in
theorem Covered.leaves (covered : B.Covered) {i : ι} (gone : (B.slot i).Gone) :
    (B.slot i).resident = false ∧ ¬ (B.slot i).Promised := ⟨covered.gone gone, gone.2⟩

/-- A node that has given its copy up is forgotten, perhaps for the one it did so for. -/
theorem Covered.replaced (covered : B.Covered) {h i : ι} {g : Grant} {m : Mode ι} {members : Finset ι}
    (sub : B.members.erase h ⊆ members) (mem : i ∈ members)
    (gone : h ∈ members ∨ (B.slot h).Gone) :
    ((B.modify h .settle).serve i g m members).Covered := by
  apply covered.directed
  · intro j
    have settled := carries_modify (B := B) (i := h) (f := .settle) (M := members) (.same _ _ _ _) j
    exact settled.trans (carries_modify (B := B.modify h .settle) (.grant mem g) j)
  · intro j here out
    have eq : j = h := by
      by_contra ne
      exact out (sub (Finset.mem_erase.mpr ⟨ne, here⟩))
    subst eq
    exact covered.leaves (gone.resolve_left out)

theorem Covered.counted (covered : B.Covered) {i : ι} (gone : (B.slot i).Gone) :
    { B.modify i .settle with members := B.members.erase i : Block ι }.Covered := by
  apply covered.directed
  · exact carries_modify (.same _ _ _ _)
  · intro j here out
    have eq : j = i := by
      by_contra ne
      exact out (Finset.mem_erase.mpr ⟨ne, here⟩)
    subst eq
    exact covered.leaves gone

/-! ## Every event -/

omit [DecidableEq ι] in
theorem Inv.gone_of_ack (inv : B.Inv) {i : ι} (answered : (B.slot i).probe = .answered .ack) :
    (B.slot i).Gone := by
  cases (inv.disturbed (i := i) (by simp [answered])).2 with
  | takeover _ holder | recalled _ holder =>
      rcases holder with ⟨other, -⟩ | ⟨other, -⟩ <;> cases other.symm.trans answered
  | downgrade _ holder => rcases holder with ⟨other, -⟩ | ⟨other, -⟩ <;> cases other.symm.trans answered
  | forward _ owner =>
      rcases owner with ⟨⟨k, other⟩, -⟩ | ⟨other, -⟩ <;> cases other.symm.trans answered
  | trapped _ owner => cases owner.1.symm.trans answered
  | invalidate _ _ sharer | reclaim _ _ _ sharer =>
      rcases sharer with ⟨other, -⟩ | ⟨-, gone⟩
      · cases other.symm.trans answered
      · exact gone

/-- Every event that tracks the copies keeps them covered. -/
theorem Covered.after (covered : B.Covered) (inv : B.Inv) {e : Event ι} (enabled : B.Enabled e)
    (tracks : B.Tracks e) : (B.after e).Covered := by
  have rights := inv.rights
  cases e with
  | ask i r =>
      apply covered.modify
      · exact fun here => ⟨covered.resident i here, covered.right i here⟩
      · rintro ⟨g, phase | phase⟩ <;> cases phase
  | accept i =>
      obtain ⟨g, granted⟩ := enabled
      exact covered.accept granted
  | drop i => exact covered.answer i .none .ack
  | surrender i => exact covered.answer i .none .data
  | share i => exact covered.answer i .shared .data
  | own i keep => exact covered.answer i .owned .data
  | evict i | lose i => exact covered.modify (fun here => by cases here) (covered.promised i)
  | refill i => exact covered.modify (fun _ => ⟨tracks, enabled.2⟩) (covered.promised i)
  | respond i g =>
      have mem := covered.promised i ⟨g, .inl enabled⟩
      exact covered.modify (fun here => ⟨mem, covered.right i here⟩) fun _ => mem
  | grantExclusive i | grantShared i | grantClean i =>
      obtain ⟨-, mode, -⟩ := enabled
      simp only [ModeOk, mode] at rights
      exact covered.fetch (by simp [rights]) (Finset.mem_singleton_self i)
  | join i => exact covered.fetch (Finset.subset_insert _ _) (Finset.mem_insert_self i _)
  | promote h i => exact covered.serve (Finset.Subset.refl _) tracks
  | takeover h i c => exact covered.tell h i .giveBack _
  | downgrade h i c => exact covered.tell h i .share _
  | forward o i c k => exact covered.tell o i (.own k) _
  | takenOver h i =>
      obtain ⟨-, mode, answered⟩ := enabled
      simp only [ModeOk, mode] at rights
      exact covered.replaced (by simp [rights.1]) (Finset.mem_singleton_self i)
        (.inr (Slot.Yielding.gone rights.2 answered))
  | downgraded h i =>
      obtain ⟨-, mode, -⟩ := enabled
      simp only [ModeOk, mode] at rights
      exact covered.replaced ((Finset.erase_subset _ _).trans (Finset.subset_insert _ _))
        (Finset.mem_insert_self i _) (.inl (by simp [rights.1]))
  | forwarded o i c =>
      obtain ⟨-, mode, -⟩ := enabled
      simp only [ModeOk, mode] at rights
      exact covered.replaced ((Finset.erase_subset _ _).trans (Finset.subset_insert _ _))
        (Finset.mem_insert_self i _) (.inl (Finset.mem_insert_of_mem rights.1))
  | upgrade i =>
      obtain ⟨-, -, -, sub⟩ := enabled
      exact covered.serve sub (Finset.mem_singleton_self i)
  | invalidate i => exact covered.purge _ i _
  | reclaim o i c all => exact covered.purge _ i _
  | collect r i | collectOwned o r i c =>
      obtain ⟨-, -, answered⟩ := enabled
      exact covered.counted (inv.gone_of_ack answered)
  | collected r =>
      simp only [Block.after]
      split
      · next mem => exact covered.serve (Finset.Subset.refl _) mem
      · exact covered.fetch (Finset.subset_insert _ _) (Finset.mem_insert_self r _)
  | upgradeOwner o c =>
      obtain ⟨-, mode, -, -⟩ := enabled
      simp only [ModeOk, mode] at rights
      exact covered.serve (Finset.Subset.refl _) rights.1
  | recallOwner o r c =>
      exact covered.grows (X := B.after (.recallOwner o r c)) (Finset.Subset.refl _)
        (carries_modify (.same _ _ _ _))
  | reclaimed o r c =>
      obtain ⟨-, mode, answered⟩ := enabled
      simp only [ModeOk, mode] at rights
      have gone := Slot.Yielding.gone rights.2.1 answered
      simp only [Block.after]
      split
      · next mem => exact covered.replaced (Finset.Subset.refl _) mem (.inr gone)
      · exact covered.replaced (Finset.subset_insert _ _) (Finset.mem_insert_self r _) (.inr gone)
  | writeback i =>
      obtain ⟨quiet, -, -⟩ := enabled
      obtain ⟨absent, ungranted⟩ := tracks
      apply covered.directed
      · exact carries_modify (.same _ _ _ _)
      · intro j here out
        have eq : j = i := by
          by_contra ne
          exact out (Finset.mem_erase.mpr ⟨ne, here⟩)
        subst eq
        refine ⟨absent, ?_⟩
        rintro ⟨g, phase | phase⟩
        · exact quiet j g phase
        · exact ungranted g phase

/-- The directory takes no copy away and brings none in. -/
theorem resident_after (B : Block ι) {e : Event ι} (directed : e.slot = none ∨ ∃ i g, e = .respond i g)
    (j : ι) : ((B.after e).slot j).resident = (B.slot j).resident := by
  have modified {C : Block ι} {i : ι} {f : Slot → Slot} (same : ∀ s, (f s).resident = s.resident) :
      ((C.modify i f).slot j).resident = (C.slot j).resident := by
    rw [modify_slot]
    split
    · next eq =>
        subst eq
        exact same _
    · rfl
  have ordered (targets : Finset ι) (o : Order) :
      ((B.order targets o).slot j).resident = (B.slot j).resident := by
    rw [order_slot]
    split <;> rfl
  rcases directed with none | ⟨i, g, rfl⟩
  · cases e with
    | ask | accept | drop | surrender | share | own | evict | lose | refill | respond => cases none
    | grantExclusive | grantShared | grantClean | join | promote | upgrade | collect | collectOwned |
        upgradeOwner | recallOwner | writeback => exact modified fun _ => rfl
    | takeover | downgrade | forward | takenOver | downgraded | forwarded =>
        apply Eq.trans (modified ?_) (modified ?_) <;> exact fun _ => rfl
    | invalidate | reclaim =>
        apply Eq.trans (modified ?_) (ordered _ _)
        exact fun _ => rfl
    | collected =>
        simp only [Block.after]
        split <;> exact modified fun _ => rfl
    | reclaimed =>
        simp only [Block.after]
        split <;> apply Eq.trans (modified ?_) (modified ?_) <;> exact fun _ => rfl
  · exact modified fun _ => rfl

/-! ## One writer -/

omit [DecidableEq ι] in
/-- A node that has a copy and an exclusive right is the only one that has a copy. -/
theorem Covered.alone (covered : B.Covered) (inv : B.Inv) {i j : ι}
    (here : (B.slot i).resident = true) (exclusive : (B.slot i).right = .exclusive)
    (there : (B.slot j).resident = true) : j = i := by
  have strong : ¬ (B.slot i).right.Weak := by simp [Right.Weak, exclusive]
  have mem := covered.resident i here
  rcases inv.weak_or_named with weak | ⟨h, weak, single⟩
  · exact absurd (weak i mem) strong
  · have eq : i = h := by
      by_contra ne
      exact strong (weak i mem ne)
    subst eq
    have mem := covered.resident j there
    rw [single exclusive] at mem
    exact Finset.mem_singleton.mp mem

end Block

end DirectoryProtocol
