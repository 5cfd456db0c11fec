import MulticoreSim.Library.DirectoryProtocol.Rounds

/-! # Grants and the copies they meet

An answer finds its node with the copy it had when it was given. So a permission
to write reaches a node with a copy, provided the directory never promotes a
node without one; and data reaches no owner, provided no request of an owner the
directory has forgotten is taken up.
-/

namespace DirectoryProtocol

variable {ι : Type}

namespace Slot

/-- A permission to write meets a copy. -/
def Acked (s : Slot) : Prop := s.phase = .granted .ack → s.right ≠ .none

/-- Data to write on meets no owned copy. -/
def Unowned (s : Slot) : Prop :=
  s.want = .write → s.phase = .fetching .data ∨ s.phase = .granted .data → s.right ≠ .owned

variable {s : Slot}

theorem Acked.of_same {s' : Slot} (acked : s.Acked) (right : s'.right = s.right)
    (phase : s'.phase = s.phase) : s'.Acked := by
  intro granted
  rw [right]
  exact acked (phase ▸ granted)

theorem Unowned.of_same {s' : Slot} (unowned : s.Unowned) (right : s'.right = s.right)
    (want : s'.want = s.want) (phase : s'.phase = s.phase) : s'.Unowned := by
  intro write promised
  rw [right]
  exact unowned (want ▸ write) (phase ▸ promised)

end Slot

namespace Block

variable [DecidableEq ι] {B : Block ι}

/-- What holds of every slot and of the one rewritten. -/
theorem forall_modify {p : Slot → Prop} (all : ∀ j, p (B.slot j)) {i : ι} {f : Slot → Slot}
    (at_i : p (f (B.slot i))) (j : ι) : p ((B.modify i f).slot j) := by
  rw [modify_slot]
  split
  · next eq => exact eq ▸ at_i
  · exact all j

/-- What an order does not matter to. -/
theorem forall_order {p : Slot → Prop} (all : ∀ j, p (B.slot j)) {s : Finset ι} {o : Order}
    (keeps : ∀ x : Slot, p x → p (x.send o)) (j : ι) : p ((B.order s o).slot j) := by
  rw [order_slot]
  split
  · exact keeps _ (all j)
  · exact all j

/-! ## Permissions -/

/-- Every permission on its way meets a copy. -/
def Acked (B : Block ι) : Prop := ∀ j, (B.slot j).Acked

omit [DecidableEq ι] in
theorem Acked.initial : (Block.initial ι).Acked := fun _ granted => nomatch granted

omit [DecidableEq ι] in
/-- The node named in a round still has the copy it asked with. -/
theorem right_of_holds {i : ι} {right : Right} (holds : (B.slot i).Holds right)
    (asking : (B.slot i).effective = (B.slot i).right) : (B.slot i).right = right :=
  asking.symm.trans holds.2

theorem Acked.send (acked : B.Acked) (h : ι) (o : Order) : (B.modify h (.send o)).Acked :=
  forall_modify acked ((acked h).of_same rfl rfl)

theorem Acked.settle (acked : B.Acked) (h : ι) : (B.modify h .settle).Acked :=
  forall_modify acked ((acked h).of_same rfl rfl)

theorem Acked.wait (acked : B.Acked) (i : ι) : (B.modify i .wait).Acked :=
  forall_modify acked fun granted => nomatch granted

theorem Acked.fetch (acked : B.Acked) (i : ι) (g : Grant) : (B.modify i (.fetch g)).Acked :=
  forall_modify acked fun granted => nomatch granted

theorem Acked.grant (acked : B.Acked) {i : ι} {g : Grant}
    (copy : g = .ack → (B.slot i).right ≠ .none) : (B.modify i (.grant g)).Acked := by
  refine forall_modify acked fun granted => copy ?_
  cases granted
  rfl

theorem Acked.after (acked : B.Acked) (inv : B.Inv) {e : Event ι} (enabled : B.Enabled e)
    (copy : ∀ h i, e = .promote h i → i ∈ B.members ∨ (B.slot i).right ≠ .none) :
    (B.after e).Acked := by
  have rights := inv.rights
  have round : ∀ {i : ι} {right : Right}, B.mode.requester = some i →
      (B.slot i).Holds right → (B.slot i).right = right := fun requester holds =>
    right_of_holds holds (Slot.effective_of_waiting ((inv.waiting _).mpr requester))
  cases e with
  | ask i r => exact forall_modify acked (by intro h; cases h)
  | accept i => exact forall_modify acked (by intro h; cases h)
  | drop i | surrender i | share i | own i _ =>
      exact forall_modify acked fun granted => absurd granted (enabled.2.2 _)
  | evict i | lose i | refill i => exact forall_modify acked ((acked i).of_same rfl rfl)
  | respond i g =>
      refine acked.grant fun ack => ?_
      subst ack
      exact absurd enabled (inv.slots i).memory
  | grantExclusive i | grantShared i | grantClean i | join i => exact acked.fetch i _
  | promote h i =>
      obtain ⟨-, mode, asks⟩ := enabled
      refine acked.grant fun _ => ?_
      rcases copy h i rfl with mem | has
      · simp only [ModeOk, mode] at rights
        have holder : i = h := by simpa [rights.1] using mem
        subst holder
        rw [right_of_holds rights.2 (effective_of_asks asks)]
        simp
      · exact has
  | takeover h i _ | downgrade h i _ | forward h i _ _ => exact (acked.send h _).wait i
  | takenOver h i | downgraded h i | forwarded h i _ =>
      exact (acked.settle h).grant (by simp)
  | upgrade i =>
      obtain ⟨-, mode, asks, alone⟩ := enabled
      refine acked.grant fun _ => ?_
      simp only [ModeOk, mode] at rights
      obtain ⟨j, mem⟩ := rights.1
      have only : j = i := Finset.mem_singleton.mp (alone mem)
      subst only
      rw [right_of_holds (rights.2 j mem) (effective_of_asksWrite asks)]
      simp
  | invalidate i =>
      exact Acked.wait (B := B.order _ _) (forall_order acked fun x ok => ok.of_same rfl rfl) i
  | reclaim o i c all =>
      exact Acked.wait (B := B.order _ _) (forall_order acked fun x ok => ok.of_same rfl rfl) i
  | collect r i => exact acked.settle i
  | collectOwned o r i c => exact acked.settle i
  | collected r =>
      obtain ⟨-, mode, -⟩ := enabled
      simp only [Block.after]
      split
      · next mem =>
          refine acked.grant fun _ => ?_
          simp only [ModeOk, mode] at rights
          rw [round (by rw [mode]; rfl) ((rights r mem).1 rfl)]
          simp
      · exact acked.fetch r _
  | upgradeOwner o c =>
      obtain ⟨-, mode, -⟩ := enabled
      refine acked.grant fun _ => ?_
      simp only [ModeOk, mode] at rights
      rcases rights.2.1 with holds | ⟨other, -⟩
      · rw [round (by rw [mode]; rfl) holds]
        simp
      · exact absurd rfl other
  | recallOwner o r c => exact acked.send o _
  | reclaimed o r c =>
      obtain ⟨-, mode, -⟩ := enabled
      simp only [Block.after]
      split
      · next mem =>
          have others := Finset.mem_erase.mp mem
          refine (acked.settle o).grant fun _ => ?_
          simp only [ModeOk, mode] at rights
          rw [modify_slot_of_ne _ _ others.1,
            round (by rw [mode]; rfl) (rights.2.2 r others.2 others.1).2]
          simp
      · exact (acked.settle o).grant (by simp)
  | writeback i => exact forall_modify acked ((acked i).of_same rfl rfl)

/-! ## Data for owners -/

/-- Data to write on is given to no owner; an owner that waits waits for the round
    about itself. -/
structure Unowned (B : Block ι) : Prop where
  slots : ∀ j, (B.slot j).Unowned
  rounds : ∀ r, B.mode.requester = some r → (B.slot r).want = .write → (B.slot r).right = .owned →
    B.mode.owner = some r

omit [DecidableEq ι] in
theorem Unowned.initial : (Block.initial ι).Unowned where
  slots _ write := nomatch write
  rounds _ requester := nomatch requester

/-- An event of one node. -/
theorem Unowned.node (unowned : B.Unowned) {i : ι} {f : Slot → Slot}
    (slot : (f (B.slot i)).Unowned)
    (round : B.mode.requester = some i → (f (B.slot i)).want = .write →
      (f (B.slot i)).right = .owned → B.mode.owner = some i) : (B.modify i f).Unowned where
  slots := forall_modify unowned.slots slot
  rounds r requester := by
    rw [modify_slot]
    split
    · next eq =>
        subst eq
        exact round requester
    · exact unowned.rounds r requester

omit [DecidableEq ι] in
/-- The directory rests, whatever it granted. -/
theorem Unowned.of_slots {m : Mode ι} {s : Finset ι} (slots : ∀ j, (B.slot j).Unowned)
    (rest : m.requester = none) : Unowned { B with mode := m, members := s } where
  slots := slots
  rounds r requester := by cases rest.symm.trans requester

theorem Unowned.served (unowned : B.Unowned) {i : ι} {g : Grant} {m : Mode ι} {s : Finset ι}
    (rest : m.requester = none)
    (foreign : g = .data → (B.slot i).want = .write → (B.slot i).right ≠ .owned) :
    (B.serve i g m s).Unowned := by
  refine Unowned.of_slots (B := B.modify i (.grant g)) ?_ rest
  refine forall_modify unowned.slots fun write promised => ?_
  rcases promised with phase | phase <;> cases phase
  exact foreign rfl write

theorem Unowned.fetched (unowned : B.Unowned) {i : ι} {g : Grant} {m : Mode ι} {s : Finset ι}
    (rest : m.requester = none)
    (foreign : g = .data → (B.slot i).want = .write → (B.slot i).right ≠ .owned) :
    (B.fetch i g m s).Unowned := by
  refine Unowned.of_slots (B := B.modify i (.fetch g)) ?_ rest
  refine forall_modify unowned.slots fun write promised => ?_
  rcases promised with phase | phase <;> cases phase
  exact foreign rfl write

theorem Unowned.settle (unowned : B.Unowned) (h : ι) : (B.modify h .settle).Unowned :=
  unowned.node ((unowned.slots h).of_same rfl rfl rfl) (unowned.rounds h)

/-- A round begins for a node that is no owner, or is the one the round is about. -/
theorem Unowned.begin (unowned : B.Unowned) {X : Block ι} {i : ι} {m : Mode ι}
    (same : ∀ j, (B.slot j).SameRequest (X.slot j)) (requester : m.requester = some i)
    (round : (B.slot i).want = .write → (B.slot i).right = .owned → m.owner = some i) :
    Unowned { X.modify i .wait with mode := m } where
  slots := by
    refine forall_modify (fun j => ?_) fun _ promised => ?_
    · exact (unowned.slots j).of_same (same j).right (same j).want (same j).phase
    · rcases promised with phase | phase <;> cases phase
  rounds r for_r := by
    cases requester.symm.trans for_r
    rw [modify_slot_self]
    intro write owned
    exact round ((same i).want ▸ write) ((same i).right ▸ owned)

/-- A round ends: the holder's or owner's data is taken in, the requester is answered. -/
theorem Unowned.finish (unowned : B.Unowned) {h i : ι} {g : Grant} {m : Mode ι} {s : Finset ι}
    (rest : m.requester = none)
    (foreign : g = .data → (B.slot i).want = .write → (B.slot i).right ≠ .owned) :
    ((B.modify h .settle).serve i g m s).Unowned := by
  have same := same_modify (B := B) (h := h) Slot.same_settle i
  refine (unowned.settle h).served rest fun data write => ?_
  rw [same.right]
  exact foreign data (same.want ▸ write)

theorem Unowned.after (unowned : B.Unowned) (inv : B.Inv) {e : Event ι} (enabled : B.Enabled e)
    (known : ∀ i, e.asker = some i → (B.slot i).want = .write → (B.slot i).right = .owned →
      i ∈ B.members) : (B.after e).Unowned := by
  have rights := inv.rights
  have waits : ∀ {r}, B.mode.requester = some r → (B.slot r).phase = .waiting :=
    fun requester => (inv.waiting _).mpr requester
  have reads : ∀ {i}, B.Asks i .read → (B.slot i).want = .read :=
    fun asks => (inv.slots _).asked .read asks
  -- A member of an unowned line that asks is no owner.
  have sharer : ∀ {i}, (B.slot i).Holds .shared → (B.slot i).effective = (B.slot i).right →
      (B.slot i).right ≠ .owned := by
    intro i holds asking owned
    cases (right_of_holds holds asking).symm.trans owned
  have round : ∀ {r}, B.mode.requester = some r → B.mode.owner = none →
      (B.slot r).want = .write → (B.slot r).right ≠ .owned := by
    intro r requester none write owned
    cases none.symm.trans (unowned.rounds r requester write owned)
  cases e with
  | ask i r =>
      refine unowned.node (fun _ promised => by rcases promised with phase | phase <;> cases phase) ?_
      intro requester
      cases enabled.1.symm.trans (waits requester)
  | accept i =>
      refine unowned.node (fun _ promised => by rcases promised with phase | phase <;> cases phase) ?_
      intro requester
      obtain ⟨g, granted⟩ := enabled
      cases granted.symm.trans (waits requester)
  | drop i | surrender i | share i =>
      apply unowned.node
      · intro _ _ h
        cases h
      · intro _ _ h
        cases h
  | own i keep =>
      obtain ⟨sent, -, head⟩ := enabled
      refine unowned.node (fun _ promised => ?_) fun requester write _ => ?_
      · rcases promised with fetching | granted
        · cases ((inv.slots i).fetching _ fetching).symm.trans sent
        · exact absurd granted (head _)
      · obtain ⟨r, c, mode⟩ := inv.own_forward sent
        have serves := inv.serves i requester
        rw [mode] at serves
        cases serves.symm.trans write
  | evict i | lose i | refill i =>
      exact unowned.node ((unowned.slots i).of_same rfl rfl rfl) (unowned.rounds i)
  | respond i g =>
      refine unowned.node (fun write promised => ?_) fun requester => ?_
      · refine unowned.slots i write ?_
        rcases promised with phase | phase <;> cases phase
        exact .inl enabled
      · cases enabled.symm.trans (waits requester)
  | grantExclusive i =>
      refine unowned.fetched rfl fun _ write owned => ?_
      have mem := known i rfl write owned
      simp only [ModeOk, enabled.2.1] at rights
      simp [rights] at mem
  | grantShared i | join i =>
      refine unowned.fetched rfl fun _ write => ?_
      cases (reads enabled.2.2).symm.trans write
  | grantClean i => exact unowned.fetched rfl (by simp)
  | promote h i => exact unowned.served rfl (by simp)
  | takeover h i c =>
      refine unowned.begin (same_modify (Slot.same_send · .giveBack)) rfl fun write owned => ?_
      obtain ⟨-, mode, asks⟩ := enabled
      simp only [ModeOk, mode] at rights
      have holder : i = h := by simpa [rights.1] using known i rfl write owned
      subst holder
      cases (right_of_holds rights.2 (effective_of_asksWrite asks)).symm.trans owned
  | downgrade h i c =>
      refine unowned.begin (same_modify (Slot.same_send · .share)) rfl fun write _ => ?_
      cases (reads enabled.2.2).symm.trans write
  | forward h i c k =>
      refine unowned.begin (same_modify (Slot.same_send · (.own k))) rfl fun write _ => ?_
      cases (reads enabled.2.2).symm.trans write
  | takenOver h i =>
      obtain ⟨-, mode, -⟩ := enabled
      exact unowned.finish rfl fun _ => round (by rw [mode]; rfl) (by rw [mode]; rfl)
  | downgraded h i =>
      obtain ⟨-, mode, -⟩ := enabled
      exact unowned.finish rfl fun _ => round (by rw [mode]; rfl) (by rw [mode]; rfl)
  | forwarded h i c =>
      obtain ⟨-, mode, -⟩ := enabled
      refine unowned.finish rfl fun _ write => ?_
      have serves := inv.serves i (by rw [mode]; rfl)
      rw [mode] at serves
      cases serves.symm.trans write
  | upgrade i => exact unowned.served rfl (by simp)
  | invalidate i =>
      refine unowned.begin same_order rfl fun write owned => ?_
      obtain ⟨-, mode, asks⟩ := enabled
      simp only [ModeOk, mode] at rights
      exact absurd owned (sharer (rights.2 i (known i rfl write owned)) (effective_of_asksWrite asks))
  | reclaim o i c all =>
      refine unowned.begin same_order rfl fun write owned => ?_
      obtain ⟨-, mode, asks, -⟩ := enabled
      simp only [ModeOk, mode] at rights
      by_cases eq : i = o
      · rw [eq]
        rfl
      · exact absurd owned
          (sharer (rights.2.2 i (known i rfl write owned) eq) (effective_of_asksWrite asks))
  | collect r i => exact ⟨(unowned.settle i).slots, (unowned.settle i).rounds⟩
  | collectOwned o r i c => exact ⟨(unowned.settle i).slots, (unowned.settle i).rounds⟩
  | collected r =>
      obtain ⟨-, mode, -⟩ := enabled
      simp only [Block.after]
      split
      · exact unowned.served rfl (by simp)
      · exact unowned.fetched rfl fun _ => round (by rw [mode]; rfl) (by rw [mode]; rfl)
  | upgradeOwner o c => exact unowned.served rfl (by simp)
  | recallOwner o r c =>
      obtain ⟨-, mode, -⟩ := enabled
      have told := unowned.node (i := o) (f := .send .giveBack)
        ((unowned.slots o).of_same rfl rfl rfl) (unowned.rounds o)
      have rounds := told.rounds
      simp only [modify_mode, mode] at rounds
      exact ⟨told.slots, rounds⟩
  | reclaimed o r c =>
      obtain ⟨-, mode, answered⟩ := enabled
      simp only [Block.after]
      split
      · exact unowned.finish rfl (by simp)
      · refine unowned.finish rfl fun _ write owned => ?_
        -- The requester would have to be the owner, which has just given its copy up.
        have same := unowned.rounds r (by rw [mode]; rfl) write owned
        rw [mode] at same
        cases same
        simp only [ModeOk, mode] at rights
        rcases rights.2.1 with ⟨sent, -⟩ | ⟨-, gone⟩
        · cases sent.symm.trans answered
        · cases gone.1.symm.trans owned
  | writeback i =>
      refine Unowned.of_slots ?_ (without_stable enabled.2.1 _ i)
      exact forall_modify unowned.slots ((unowned.slots i).of_same rfl rfl rfl)

end Block

end DirectoryProtocol
