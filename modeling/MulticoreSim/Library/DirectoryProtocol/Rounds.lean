import Mathlib.Logic.Relation
import MulticoreSim.Library.DirectoryProtocol.Safety

/-! # Rounds of the directory

Several events in a row, as one message may cause them, and what keeps a round
going: while the directory collects invalidation answers somebody is on its way
out, provided it never begins to collect from nobody.
-/

namespace DirectoryProtocol

variable {ι : Type} [DecidableEq ι]

namespace Block

/-- Enabled events one after the other, each meeting `ok`. -/
def Steps (ok : Block ι → Event ι → Prop) : Block ι → Block ι → Prop :=
  Relation.ReflTransGen fun B B' => ∃ e, ok B e ∧ B.Enabled e ∧ B' = B.after e

variable {ok : Block ι → Event ι → Prop} {B B' : Block ι}

theorem Steps.single {e : Event ι} (meets : ok B e) (enabled : B.Enabled e) :
    Steps ok B (B.after e) :=
  Relation.ReflTransGen.single ⟨e, meets, enabled, rfl⟩

theorem Steps.mono {ok' : Block ι → Event ι → Prop} (steps : Steps ok B B')
    (weaker : ∀ B e, ok B e → ok' B e) : Steps ok' B B' := by
  refine Relation.ReflTransGen.mono ?_ B B' steps
  rintro B B' ⟨e, meets, step⟩
  exact ⟨e, weaker B e meets, step⟩

/-- What every event keeps, a row of events keeps. -/
theorem Steps.keep {I : Block ι → Prop} (steps : Steps ok B B') (base : I B)
    (kept : ∀ B e, I B → ok B e → B.Enabled e → I (B.after e)) : I B' := by
  induction steps with
  | refl => exact base
  | tail _ step ih =>
      obtain ⟨e, meets, enabled, rfl⟩ := step
      exact kept _ e ih meets enabled

theorem Steps.inv (steps : Steps ok B B') (inv : B.Inv) : B'.Inv :=
  steps.keep inv fun _ _ inv _ enabled => inv.after enabled

theorem Steps.within {P : Profile} (steps : Steps ok B B') (chosen : ∀ B e, ok B e → P.Event e)
    (within : P.Within B) : P.Within B' :=
  steps.keep within fun B e within meets enabled => within.after enabled (chosen B e meets)

theorem Steps.closed {P : Profile} (steps : Steps ok B B') (chosen : ∀ B e, ok B e → P.Event e)
    (keeps : ∀ B e, ok B e → e.Keeps) (inv : B.Inv) (within : P.Within B) (closed : B.Closed P) :
    B'.Closed P := by
  have all := steps.keep (I := fun B => B.Inv ∧ P.Within B ∧ B.Closed P) ⟨inv, within, closed⟩ ?_
  · exact all.2.2
  · rintro B e ⟨inv, within, closed⟩ meets enabled
    exact ⟨inv.after enabled, within.after enabled (chosen B e meets),
      closed.after inv within enabled (chosen B e meets) (keeps B e meets)⟩

/-! ## Collecting -/

/-- The directory waits for invalidation answers. -/
def Collecting (B : Block ι) : Prop :=
  (∃ r, B.mode = .invalidate r) ∨ ∃ o r c, B.mode = .reclaim o r c false

/-- The directory collects only while somebody owes it an answer. -/
def Awaiting (B : Block ι) : Prop := B.Collecting → B.owing.Nonempty

/-- While the directory collects, a member is on its way out. -/
def Live (B : Block ι) : Prop := B.Collecting → ∃ i ∈ B.members, (B.slot i).Leaving

/-- The owner was not sent an invalidation. -/
def Untrapped (B : Block ι) : Prop :=
  ∀ o r c, B.mode = .reclaim o r c false → (B.slot o).Holds .owned

omit [DecidableEq ι] in
theorem Live.initial : (Block.initial ι).Live := by
  rintro (⟨r, mode⟩ | ⟨o, r, c, mode⟩) <;> cases mode

omit [DecidableEq ι] in
theorem Untrapped.initial : (Block.initial ι).Untrapped := by
  rintro o r c mode
  cases mode

theorem Live.node (live : B.Live) {i : ι} {f : Slot → Slot}
    (keeps : (B.slot i).Keeps (f (B.slot i))) : (B.modify i f).Live := by
  intro collecting
  obtain ⟨j, mem, leaving⟩ := live collecting
  refine ⟨j, mem, ?_⟩
  rw [modify_slot]
  split
  · next eq => exact eq ▸ keeps.leaving (eq ▸ leaving)
  · exact leaving

theorem Untrapped.node (untrapped : B.Untrapped) {i : ι} {f : Slot → Slot}
    (keeps : (B.slot i).Keeps (f (B.slot i))) : (B.modify i f).Untrapped := by
  intro o r c mode
  have holds := untrapped o r c mode
  rw [modify_slot]
  split
  · next eq => exact eq ▸ keeps.holds _ (eq ▸ holds)
  · exact holds

/-- Only a round that includes its owner among the invalidated traps it. -/
theorem Untrapped.after (untrapped : B.Untrapped) (inv : B.Inv) {e : Event ι}
    (enabled : B.Enabled e) (own : ∀ o i c, e = .reclaim o i c true → i = o) :
    (B.after e).Untrapped := by
  cases e with
  | ask | accept | drop | surrender | share | own | evict | lose | refill | respond =>
      exact untrapped.node (inv.keeps enabled rfl)
  | reclaim o i c all =>
      obtain ⟨-, mode, asks, -⟩ := enabled
      have rights := inv.rights
      simp only [ModeOk, mode] at rights
      rintro o' r' c' mode'
      cases mode'
      refine purge_other ?_ (effective_of_asksWrite asks) rights.2.1
      cases all with
      | false => simp
      | true => simp [own o i c rfl]
  | collectOwned o r i c =>
      obtain ⟨-, mode, answered⟩ := enabled
      have holds := untrapped o r c mode
      rintro o' r' c' mode'
      simp only [Block.after, modify_mode, mode] at mode'
      cases mode'
      have ne : o ≠ i := by
        rintro rfl
        cases holds.1.symm.trans answered
      simp only [Block.after, modify_slot, ne, if_false]
      exact holds
  | collect r i =>
      rintro o' r' c' mode'
      simp [Block.after, enabled.2.1] at mode'
  | collected r | reclaimed o r c =>
      rintro o' r' c' mode'
      simp only [Block.after] at mode'
      split at mode' <;> cases mode'
  | writeback i =>
      rintro o' r' c' mode'
      have stable := without_stable enabled.2.1 (B.members.erase i) i
      rw [show B.mode.without (B.members.erase i) i = _ from mode'] at stable
      cases stable
  | _ =>
      rintro o' r' c' mode'
      cases mode'

omit [DecidableEq ι] in
theorem Untrapped.not_trapped (untrapped : B.Untrapped) (inv : B.Inv) (i : ι) :
    ¬ (B.slot i).Trapped := by
  rintro ⟨sent, owned⟩
  have not_leaving : ¬ (B.slot i).Leaving := by
    rintro (⟨-, shared⟩ | ⟨answered, -⟩)
    · cases shared.symm.trans owned
    · cases answered.symm.trans sent
  have not_yielding : ∀ r, ¬ (B.slot i).Yielding r := by
    rintro r (⟨other, -⟩ | ⟨other, -⟩) <;> cases other.symm.trans sent
  cases (inv.disturbed (i := i) (by simp [sent])).2 with
  | takeover _ holder => exact not_yielding _ holder
  | downgrade _ holder => rcases holder with ⟨other, -⟩ | ⟨other, -⟩ <;> cases other.symm.trans sent
  | forward _ owner =>
      rcases owner with ⟨⟨k, other⟩, -⟩ | ⟨other, -⟩ <;> cases other.symm.trans sent
  | invalidate _ _ sharer | reclaim _ _ _ sharer => exact not_leaving sharer
  | trapped mode _ => cases (untrapped i _ _ mode).1.symm.trans sent
  | recalled _ owner => exact not_yielding _ owner

omit [DecidableEq ι] in
/-- Somebody who owes an answer is on its way out, unless it is a trapped owner. -/
theorem leaving_of_owing (inv : B.Inv) (untrapped : B.Untrapped) (collecting : B.Collecting)
    {i : ι} (mem : i ∈ B.members) (owing : (B.slot i).Owing) : (B.slot i).Leaving := by
  have not_held : ∀ r, ¬ (B.slot i).Holds r := by
    rintro r ⟨idle, -⟩
    rcases owing with probe | probe <;> cases idle.symm.trans probe
  have rights := inv.rights
  rcases collecting with ⟨r, mode⟩ | ⟨o, r, c, mode⟩ <;> simp only [ModeOk, mode] at rights
  · exact (rights i mem).2 fun eq => not_held _ ((rights i mem).1 eq)
  · have ne : i ≠ o := by
      rintro rfl
      exact not_held _ (untrapped _ r c mode)
    exact (rights.2.2 i mem ne).2 fun eq => not_held _ ((rights.2.2 i mem ne).1 eq)

omit [DecidableEq ι] in
theorem Live.awaiting (live : B.Live) : B.Awaiting := by
  intro collecting
  obtain ⟨i, mem, leaving⟩ := live collecting
  refine ⟨i, Finset.mem_filter.mpr ⟨mem, ?_⟩⟩
  exact leaving.imp And.left And.left

omit [DecidableEq ι] in
theorem Awaiting.live (awaiting : B.Awaiting) (inv : B.Inv) (untrapped : B.Untrapped) : B.Live := by
  intro collecting
  obtain ⟨i, owes⟩ := awaiting collecting
  obtain ⟨mem, owing⟩ := Finset.mem_filter.mp owes
  exact ⟨i, mem, leaving_of_owing inv untrapped collecting mem owing⟩

end Block

end DirectoryProtocol
