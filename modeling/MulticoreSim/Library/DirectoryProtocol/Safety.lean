import MulticoreSim.Library.DirectoryProtocol.Closed

/-! # What the invariants give

Which node an outstanding order or answer belongs to, that every order meets a
copy it can be answered from, and that a writer excludes every other copy.
-/

namespace DirectoryProtocol

variable {ι : Type} [DecidableEq ι]

/-- No more than a shared copy. -/
def Right.Weak (r : Right) : Prop := r = .none ∨ r = .shared

instance (r : Right) : Decidable r.Weak := by
  unfold Right.Weak
  infer_instance

namespace Slot

variable {s : Slot}

theorem weak_of_shared (ok : s.Ok) (shared : s.effective = .shared) : s.right.Weak := by
  by_cases promised : s.Promised
  · obtain ⟨g, phase⟩ := promised
    have carried : g.right s.want = .shared := by
      rcases phase with phase | phase <;> simpa [effective, phase] using shared
    have read : s.want = .read := by
      cases g <;> cases want : s.want <;> simp_all [Grant.right]
    exact .inl (ok.reads read)
  · rw [effective_of_not_promised promised] at shared
    exact .inr shared

theorem right_of_owned (owned : s.effective = .owned) : s.right = .owned := by
  by_cases promised : s.Promised
  · obtain ⟨g, phase⟩ := promised
    have carried : g.right s.want = .owned := by
      rcases phase with phase | phase <;> simpa [effective, phase] using owned
    cases g <;> cases want : s.want <;> simp_all [Grant.right]
  · rwa [effective_of_not_promised promised] at owned

theorem Holds.weak (ok : s.Ok) (holds : s.Holds .shared) : s.right.Weak := weak_of_shared ok holds.2

theorem Leaving.weak (ok : s.Ok) (leaving : s.Leaving) : s.right.Weak := by
  rcases leaving with ⟨-, shared⟩ | ⟨-, gone⟩
  · exact weak_of_shared ok shared
  · exact .inl gone.1

theorem Gone.weak (gone : s.Gone) : s.right.Weak := .inl gone.1

/-- A copy an exclusive grant is not already replacing is what its holder has. -/
theorem exclusive_of_right
    (eff : s.effective = .exclusive ∨ s.effective = .owned) (exclusive : s.right = .exclusive) :
    s.effective = .exclusive := by
  rcases eff with eff | eff
  · exact eff
  · cases exclusive.symm.trans (right_of_owned eff)

end Slot

namespace Block

variable {B : Block ι}

/-! ## Whose an order or answer is -/

/-- Where in a round a node with an order or an answer outstanding stands. -/
inductive Disturbed (B : Block ι) (i : ι) : Prop where
  | takeover {r : ι} : B.mode = .takeover i r → (B.slot i).Yielding .exclusive → Disturbed B i
  | downgrade {r : ι} : B.mode = .downgrade i r → (B.slot i).Sharing → Disturbed B i
  | forward {r : ι} {c : Bool} : B.mode = .forward i r c → (B.slot i).Serving → Disturbed B i
  | invalidate {r : ι} : B.mode = .invalidate r → i ≠ r → (B.slot i).Leaving → Disturbed B i
  | trapped {r : ι} {c : Bool} : B.mode = .reclaim i r c false → (B.slot i).Trapped → Disturbed B i
  | reclaim {o r : ι} {c : Bool} : B.mode = .reclaim o r c false → i ≠ o → i ≠ r →
      (B.slot i).Leaving → Disturbed B i
  | recalled {r : ι} {c : Bool} : B.mode = .reclaim i r c true → (B.slot i).Yielding .owned →
      Disturbed B i

omit [DecidableEq ι] in
/-- Orders and answers are those the mode explains. -/
theorem Inv.disturbed (inv : B.Inv) {i : ι} (busy : (B.slot i).probe ≠ .idle) :
    i ∈ B.members ∧ B.Disturbed i := by
  have mem : i ∈ B.members := by
    by_contra out
    exact busy (inv.outsiders i out)
  refine ⟨mem, ?_⟩
  have not_held : ∀ r, ¬ (B.slot i).Holds r := fun r holds => busy holds.1
  have rights := inv.rights
  cases mode : B.mode <;> simp only [ModeOk, mode] at rights
  case idle => simp [rights] at mem
  case exclusive h c =>
    rw [rights.1, Finset.mem_singleton] at mem
    exact absurd (mem ▸ rights.2) (not_held _)
  case shared => exact absurd (rights.2 i mem) (not_held _)
  case owned o c =>
    by_cases eq : i = o
    · exact absurd (eq ▸ rights.2.1) (not_held _)
    · exact absurd (rights.2.2 i mem eq) (not_held _)
  case takeover h r =>
    rw [rights.1, Finset.mem_singleton] at mem
    subst mem
    exact .takeover mode rights.2
  case downgrade h r =>
    rw [rights.1, Finset.mem_singleton] at mem
    subst mem
    exact .downgrade mode rights.2
  case forward o r c =>
    by_cases eq : i = o
    · subst eq
      exact .forward mode rights.2.1
    · exact absurd (rights.2.2.2 i mem eq) (not_held _)
  case invalidate r =>
    by_cases eq : i = r
    · exact absurd ((rights i mem).1 eq) (not_held _)
    · exact .invalidate mode eq ((rights i mem).2 eq)
  case reclaim o r c recalled =>
    cases recalled with
    | false =>
        by_cases eq : i = o
        · subst eq
          rcases rights.2.1 with holds | ⟨-, trapped⟩
          · exact absurd holds (not_held _)
          · exact .trapped mode trapped
        · by_cases eq' : i = r
          · exact absurd ((rights.2.2 i mem eq).1 eq') (not_held _)
          · exact .reclaim mode eq eq' ((rights.2.2 i mem eq).2 eq')
    | true =>
        by_cases eq : i = o
        · subst eq
          exact .recalled mode rights.2.1
        · exact absurd (rights.2.2 i mem eq).2 (not_held _)

omit [DecidableEq ι] in
/-- An order out is one the mode explains, and it meets a copy. -/
theorem Inv.order_effective (inv : B.Inv) {i : ι} {o : Order} (sent : (B.slot i).probe = .sent o) :
    match o with
    | .invalidate => (B.slot i).effective = .shared ∨ (B.slot i).Trapped
    | .giveBack | .own _ => (B.slot i).effective = .exclusive ∨ (B.slot i).effective = .owned
    | .share => (B.slot i).effective = .exclusive := by
  have leaving : (B.slot i).Leaving → o = .invalidate ∧ (B.slot i).effective = .shared := by
    rintro (⟨sent', eff⟩ | ⟨answered, -⟩)
    · cases sent'.symm.trans sent
      exact ⟨rfl, eff⟩
    · cases answered.symm.trans sent
  have yielding : ∀ r, (B.slot i).Yielding r → o = .giveBack ∧ (B.slot i).effective = r := by
    rintro r (⟨sent', eff⟩ | ⟨answered, -⟩)
    · cases sent'.symm.trans sent
      exact ⟨rfl, eff⟩
    · cases answered.symm.trans sent
  cases (inv.disturbed (i := i) (by simp [sent])).2 with
  | takeover _ holder =>
      obtain ⟨rfl, eff⟩ := yielding _ holder
      exact .inl eff
  | downgrade _ holder =>
      rcases holder with ⟨sent', eff⟩ | ⟨answered, -⟩
      · cases sent'.symm.trans sent
        exact eff
      · cases answered.symm.trans sent
  | forward _ owner =>
      rcases owner with ⟨⟨k, sent'⟩, eff⟩ | ⟨answered, -⟩
      · cases sent'.symm.trans sent
        exact eff
      · cases answered.symm.trans sent
  | invalidate _ _ sharer | reclaim _ _ _ sharer =>
      obtain ⟨rfl, eff⟩ := leaving sharer
      exact .inl eff
  | trapped _ owner =>
      cases owner.1.symm.trans sent
      exact .inr owner
  | recalled _ owner =>
      obtain ⟨rfl, eff⟩ := yielding _ owner
      exact .inr eff

omit [DecidableEq ι] in
/-- An invalidation answer belongs to a round that waits for it. -/
theorem Inv.answered_ack (inv : B.Inv) {i : ι} (answered : (B.slot i).probe = .answered .ack) :
    i ∈ B.members ∧ ((∃ r, B.mode = .invalidate r ∧ i ≠ r) ∨
      ∃ o r c, B.mode = .reclaim o r c false ∧ i ≠ o ∧ i ≠ r) := by
  have not_yielding : ∀ r, ¬ (B.slot i).Yielding r := by
    rintro r (⟨other, -⟩ | ⟨other, -⟩) <;> cases other.symm.trans answered
  obtain ⟨mem, place⟩ := inv.disturbed (i := i) (by simp [answered])
  refine ⟨mem, ?_⟩
  cases place with
  | takeover _ holder => exact absurd holder (not_yielding _)
  | downgrade _ holder =>
      rcases holder with ⟨other, -⟩ | ⟨other, -⟩ <;> cases other.symm.trans answered
  | forward _ owner =>
      rcases owner with ⟨⟨k, other⟩, -⟩ | ⟨other, -⟩ <;> cases other.symm.trans answered
  | invalidate mode ne _ => exact .inl ⟨_, mode, ne⟩
  | trapped _ owner => cases owner.1.symm.trans answered
  | reclaim mode own ne _ => exact .inr ⟨_, _, _, mode, own, ne⟩
  | recalled _ owner => exact absurd owner (not_yielding _)

omit [DecidableEq ι] in
/-- Returned data comes from the node the round is about. -/
theorem Inv.answered_data (inv : B.Inv) {i : ι} (answered : (B.slot i).probe = .answered .data) :
    (∃ r, B.mode = .takeover i r) ∨ (∃ r, B.mode = .downgrade i r) ∨
      (∃ r c, B.mode = .forward i r c) ∨ ∃ r c, B.mode = .reclaim i r c true := by
  have not_leaving : ¬ (B.slot i).Leaving := by
    rintro (⟨other, -⟩ | ⟨other, -⟩) <;> cases other.symm.trans answered
  cases (inv.disturbed (i := i) (by simp [answered])).2 with
  | takeover mode _ => exact .inl ⟨_, mode⟩
  | downgrade mode _ => exact .inr (.inl ⟨_, mode⟩)
  | forward mode _ => exact .inr (.inr (.inl ⟨_, _, mode⟩))
  | invalidate _ _ sharer | reclaim _ _ _ sharer => exact absurd sharer not_leaving
  | trapped _ owner => cases owner.1.symm.trans answered
  | recalled mode _ => exact .inr (.inr (.inr ⟨_, _, mode⟩))

omit [DecidableEq ι] in
/-- An order to stay on as owner belongs to a round for a reader. -/
theorem Inv.own_forward (inv : B.Inv) {i : ι} {keep : Bool}
    (sent : (B.slot i).probe = .sent (.own keep)) : ∃ r c, B.mode = .forward i r c := by
  have not_leaving : ¬ (B.slot i).Leaving := by
    rintro (⟨other, -⟩ | ⟨other, -⟩) <;> cases other.symm.trans sent
  have not_yielding : ∀ r, ¬ (B.slot i).Yielding r := by
    rintro r (⟨other, -⟩ | ⟨other, -⟩) <;> cases other.symm.trans sent
  cases (inv.disturbed (i := i) (by simp [sent])).2 with
  | takeover _ holder => exact absurd holder (not_yielding _)
  | downgrade _ holder => rcases holder with ⟨other, -⟩ | ⟨other, -⟩ <;> cases other.symm.trans sent
  | forward mode _ => exact ⟨_, _, mode⟩
  | invalidate _ _ sharer | reclaim _ _ _ sharer => exact absurd sharer not_leaving
  | trapped _ owner => cases owner.1.symm.trans sent
  | recalled _ owner => exact absurd owner (not_yielding _)

/-! ## Writers and owners -/

omit [DecidableEq ι] in
/-- At most one member, named by the mode, has more than a shared copy. -/
theorem Inv.weak_or_named (inv : B.Inv) :
    (∀ j ∈ B.members, (B.slot j).right.Weak) ∨
      ∃ h, (∀ j ∈ B.members, j ≠ h → (B.slot j).right.Weak) ∧
        ((B.slot h).right = .exclusive → B.members = {h}) := by
  have ok := inv.slots
  have rights := inv.rights
  have alone : ∀ h, B.members = {h} → ∃ h, (∀ j ∈ B.members, j ≠ h → (B.slot j).right.Weak) ∧
      ((B.slot h).right = .exclusive → B.members = {h}) := by
    intro h members
    refine ⟨h, fun j mem ne => ?_, fun _ => members⟩
    rw [members, Finset.mem_singleton] at mem
    exact absurd mem ne
  cases mode : B.mode <;> simp only [ModeOk, mode] at rights
  case idle => exact .inl fun j mem => by simp [rights] at mem
  case exclusive h c => exact .inr (alone h rights.1)
  case takeover h r => exact .inr (alone h rights.1)
  case downgrade h r => exact .inr (alone h rights.1)
  case shared => exact .inl fun j mem => (rights.2 j mem).weak (ok j)
  case owned o c =>
    refine .inr ⟨o, fun j mem ne => (rights.2.2 j mem ne).weak (ok j), ?_⟩
    intro exclusive
    cases exclusive.symm.trans (Slot.right_of_owned rights.2.1.2)
  case forward o r c =>
    obtain ⟨-, serving, single, sharers⟩ := rights
    refine .inr ⟨o, fun j mem ne => (sharers j mem ne).weak (ok j), ?_⟩
    intro exclusive
    rcases serving with ⟨-, eff⟩ | ⟨-, owned, -⟩
    · exact single (Slot.exclusive_of_right eff exclusive)
    · cases exclusive.symm.trans owned
  case invalidate r =>
    refine .inl fun j mem => ?_
    by_cases eq : j = r
    · exact ((rights j mem).1 eq).weak (ok j)
    · exact ((rights j mem).2 eq).weak (ok j)
  case reclaim o r c recalled =>
    cases recalled with
    | false =>
        obtain ⟨-, owner, sharers⟩ := rights
        refine .inr ⟨o, fun j mem ne => ?_, ?_⟩
        · by_cases eq : j = r
          · exact ((sharers j mem ne).1 eq).weak (ok j)
          · exact ((sharers j mem ne).2 eq).weak (ok j)
        · intro exclusive
          rcases owner with ⟨-, owned⟩ | ⟨-, -, owned⟩ <;>
            cases exclusive.symm.trans (Slot.right_of_owned owned)
    | true =>
        obtain ⟨-, yielding, sharers⟩ := rights
        refine .inr ⟨o, fun j mem ne => (sharers j mem ne).2.weak (ok j), ?_⟩
        intro exclusive
        rcases yielding with ⟨-, owned⟩ | ⟨-, gone⟩
        · cases exclusive.symm.trans (Slot.right_of_owned owned)
        · cases exclusive.symm.trans gone.1

/-- At most one node, named by the mode, has more than a shared copy. -/
theorem Closed.weak_or_named {P : Profile} (inv : B.Inv) (closed : B.Closed P) :
    (∀ j, (B.slot j).right.Weak) ∨
      ∃ h, (∀ j, j ≠ h → (B.slot j).right.Weak) ∧
        ((B.slot h).right = .exclusive → B.members = {h}) := by
  have all : ∀ j, (j ∈ B.members → (B.slot j).right.Weak) → (B.slot j).right.Weak := by
    intro j weak
    by_cases mem : j ∈ B.members
    · exact weak mem
    · exact (closed.outside j mem).weak
  rcases inv.weak_or_named with weak | ⟨h, weak, single⟩
  · exact .inl fun j => all j (weak j)
  · exact .inr ⟨h, fun j ne => all j fun mem => weak j mem ne, single⟩

/-- Two nodes with more than a shared copy are one node. -/
theorem Closed.one_owner {P : Profile} (inv : B.Inv) (closed : B.Closed P) {i j : ι}
    (strong : ¬ (B.slot i).right.Weak) (strong' : ¬ (B.slot j).right.Weak) : i = j := by
  rcases closed.weak_or_named inv with weak | ⟨h, weak, -⟩
  · exact absurd (weak i) strong
  · have hi : i = h := by
      by_contra ne
      exact strong (weak i ne)
    have hj : j = h := by
      by_contra ne
      exact strong' (weak j ne)
    rw [hi, hj]

/-- An exclusive holder is alone with its copy. -/
theorem Closed.exclusive_alone {P : Profile} (inv : B.Inv) (closed : B.Closed P) {i j : ι}
    (exclusive : (B.slot i).right = .exclusive) (ne : j ≠ i) : (B.slot j).right = .none := by
  have strong : ¬ (B.slot i).right.Weak := by simp [Right.Weak, exclusive]
  rcases closed.weak_or_named inv with weak | ⟨h, weak, single⟩
  · exact absurd (weak i) strong
  · have eq : i = h := by
      by_contra ne
      exact strong (weak i ne)
    subst eq
    exact (closed.outside j (by simpa [single exclusive] using ne)).1

end Block

end DirectoryProtocol
