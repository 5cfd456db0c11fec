import MulticoreSim.Library.DirectoryProtocol.Event

/-! # What a directory knows

The invariant of the protocol proper: whatever the nodes' caches do with their
copies, the members of a line have the rights the directory's mode gives them,
every outstanding request is in one place, and every order is accounted for.
-/

namespace DirectoryProtocol

variable {ι : Type} [DecidableEq ι]

namespace Slot

/-- A slot's request and rights fit together. -/
structure Ok (s : Slot) : Prop where
  rest : s.want = .nothing ↔ s.phase = .rest
  asked : ∀ r, s.phase = .asked r → s.want = r.want
  reads : s.want = .read → s.right = .none
  clean : s.phase = .fetching .cleanExclusive ∨ s.phase = .granted .cleanExclusive →
    s.want = .read
  acked : s.phase = .granted .ack → s.want = .write
  memory : s.phase ≠ .fetching .ack
  fetching : ∀ g, s.phase = .fetching g → s.probe = .idle

/-- An owner that was sent an invalidation it has no answer to. -/
def Trapped (s : Slot) : Prop := s.probe = .sent .invalidate ∧ s.effective = .owned

/-- A node's own event: the directory's view of the slot stays. -/
structure Keeps (s s' : Slot) : Prop where
  ok : s.Ok → s'.Ok
  idle : s.probe = .idle → s'.probe = .idle
  waiting : s'.phase = .waiting ↔ s.phase = .waiting
  want : s.phase = .waiting → s'.want = s.want
  exclusive : s'.effective = .exclusive → s.effective = .exclusive
  holds : ∀ r, s.Holds r → s'.Holds r
  leaving : s.Leaving → s'.Leaving
  yielding : ∀ r, s.Yielding r → s'.Yielding r
  sharing : s.Sharing → s'.Sharing
  serving : s.Serving → s'.Serving
  trapped : s.Trapped → s'.Trapped

end Slot

namespace Block

/-- The bookkeeping of requests and orders. -/
structure Books (B : Block ι) : Prop where
  slots : ∀ i, (B.slot i).Ok
  outsiders : ∀ i, i ∉ B.members → (B.slot i).probe = .idle
  waiting : ∀ i, (B.slot i).phase = .waiting ↔ B.mode.requester = some i
  serves : ∀ r, B.mode.requester = some r → (B.slot r).want = B.mode.serves

/-- The members' rights in each mode. -/
def ModeOk (B : Block ι) : Prop :=
  match B.mode with
  | .idle => B.members = ∅
  | .exclusive h _ => B.members = {h} ∧ (B.slot h).Holds .exclusive
  | .shared => B.members.Nonempty ∧ ∀ i ∈ B.members, (B.slot i).Holds .shared
  | .owned o _ => o ∈ B.members ∧ (B.slot o).Holds .owned ∧
      ∀ i ∈ B.members, i ≠ o → (B.slot i).Holds .shared
  | .takeover h _ => B.members = {h} ∧ (B.slot h).Yielding .exclusive
  | .downgrade h _ => B.members = {h} ∧ (B.slot h).Sharing
  | .forward o _ _ => o ∈ B.members ∧ (B.slot o).Serving ∧
      ((B.slot o).effective = .exclusive → B.members = {o}) ∧
      ∀ i ∈ B.members, i ≠ o → (B.slot i).Holds .shared
  | .invalidate r => ∀ i ∈ B.members,
      (i = r → (B.slot i).Holds .shared) ∧ (i ≠ r → (B.slot i).Leaving)
  | .reclaim o r _ false => o ∈ B.members ∧
      ((B.slot o).Holds .owned ∨ o ≠ r ∧ (B.slot o).Trapped) ∧
      ∀ i ∈ B.members, i ≠ o →
        (i = r → (B.slot i).Holds .shared) ∧ (i ≠ r → (B.slot i).Leaving)
  | .reclaim o r _ true => o ∈ B.members ∧ (B.slot o).Yielding .owned ∧
      ∀ i ∈ B.members, i ≠ o → i = r ∧ (B.slot i).Holds .shared

/-- The protocol invariant. -/
structure Inv (B : Block ι) : Prop extends B.Books where
  rights : B.ModeOk

omit [DecidableEq ι] in
theorem Inv.initial : (Block.initial ι).Inv where
  slots := fun _ => by constructor <;> simp [Block.initial]
  outsiders := fun _ _ => rfl
  waiting := by simp [Block.initial, Mode.requester]
  serves := by simp [Block.initial, Mode.requester]
  rights := rfl

/-! ## Events of the nodes -/

/-- An event of one node that keeps its standing keeps the invariant. -/
theorem Inv.node {B : Block ι} (inv : B.Inv) (i : ι) (f : Slot → Slot)
    (keeps : (B.slot i).Keeps (f (B.slot i))) : (B.modify i f).Inv := by
  have at_slot : ∀ (P : Slot → Prop) j, P (B.slot j) → (P (B.slot i) → P (f (B.slot i))) →
      P ((B.modify i f).slot j) := by
    intro P j old step
    rw [modify_slot]
    split
    · subst j
      exact step old
    · exact old
  have holds : ∀ r j, (B.slot j).Holds r → ((B.modify i f).slot j).Holds r :=
    fun r j old => at_slot (·.Holds r) j old (keeps.holds r)
  have exclusive : ∀ j, ((B.modify i f).slot j).effective = .exclusive →
      (B.slot j).effective = .exclusive := by
    intro j
    rw [modify_slot]
    split
    · subst j
      exact keeps.exclusive
    · exact id
  have leaving : ∀ j, (B.slot j).Leaving → ((B.modify i f).slot j).Leaving :=
    fun j old => at_slot _ j old keeps.leaving
  refine ⟨⟨?_, ?_, ?_, ?_⟩, ?_⟩
  · exact fun j => at_slot _ j (inv.slots j) keeps.ok
  · exact fun j out => at_slot (·.probe = .idle) j (inv.outsiders j out) keeps.idle
  · intro j
    rw [modify_mode, ← inv.waiting j, modify_slot]
    split
    · subst j
      exact keeps.waiting
    · rfl
  · intro r requester
    rw [modify_mode] at requester ⊢
    have waits := (inv.waiting r).mpr requester
    rw [← inv.serves r requester, modify_slot]
    split
    · subst r
      exact keeps.want waits
    · rfl
  · have rights := inv.rights
    unfold ModeOk at rights ⊢
    simp only [modify_mode, modify_members]
    split at rights
    · exact rights
    · exact ⟨rights.1, holds _ _ rights.2⟩
    · exact ⟨rights.1, fun j mem => holds _ _ (rights.2 j mem)⟩
    · exact ⟨rights.1, holds _ _ rights.2.1, fun j mem ne => holds _ _ (rights.2.2 j mem ne)⟩
    · exact ⟨rights.1, at_slot (·.Yielding .exclusive) _ rights.2 (keeps.yielding _)⟩
    · exact ⟨rights.1, at_slot _ _ rights.2 keeps.sharing⟩
    · exact ⟨rights.1, at_slot _ _ rights.2.1 keeps.serving,
        fun new => rights.2.2.1 (exclusive _ new), fun j mem ne => holds _ _ (rights.2.2.2 j mem ne)⟩
    · exact fun j mem => ⟨fun eq => holds _ _ ((rights j mem).1 eq),
        fun ne => leaving _ ((rights j mem).2 ne)⟩
    · refine ⟨rights.1, ?_, fun j mem ne => ⟨fun eq => holds _ _ ((rights.2.2 j mem ne).1 eq),
        fun ne' => leaving _ ((rights.2.2 j mem ne).2 ne')⟩⟩
      exact rights.2.1.imp (holds _ _) fun trapped =>
        ⟨trapped.1, at_slot _ _ trapped.2 keeps.trapped⟩
    · exact ⟨rights.1, at_slot (·.Yielding .owned) _ rights.2.1 (keeps.yielding _),
        fun j mem ne => ⟨(rights.2.2 j mem ne).1, holds _ _ (rights.2.2 j mem ne).2⟩⟩

end Block

namespace Slot

/-- Neither in memory nor on its way: a node that may take in an order. -/
theorem not_promised {s : Slot} (ok : s.Ok) {o : Order} (sent : s.probe = .sent o)
    (head : ∀ g, s.phase ≠ .granted g) : ¬ s.Promised := by
  rintro ⟨g, fetching | granted⟩
  · rw [ok.fetching g fetching] at sent
    cases sent
  · exact head g granted

theorem effective_of_not_promised {s : Slot} (none : ¬ s.Promised) : s.effective = s.right := by
  unfold effective
  split
  · next g phase => exact absurd ⟨g, .inl phase⟩ none
  · next g phase => exact absurd ⟨g, .inr phase⟩ none
  · rfl

/-- Copies and eviction notices are not the directory's concern. -/
theorem keeps_copy (s : Slot) (writebacks : Nat) (resident : Bool) :
    s.Keeps { s with writebacks := writebacks, resident := resident } where
  ok ok := ⟨ok.rest, ok.asked, ok.reads, ok.clean, ok.acked, ok.memory, ok.fetching⟩
  idle := id
  waiting := Iff.rfl
  want _ := rfl
  exclusive := id
  holds _ := id
  leaving := id
  yielding _ := id
  sharing := id
  serving := id
  trapped := id

theorem keeps_ask {s : Slot} {r : Request} (rest : s.phase = .rest)
    (reads : r = .read → s.right = .none) : s.Keeps (s.ask r) := by
  obtain ⟨right, want, phase, probe, writebacks, resident⟩ := s
  cases rest
  constructor
  · intro ok
    constructor <;> cases r <;> simp_all [ask, Request.want]
  all_goals
    simp_all [ask, Holds, Leaving, Yielding, Sharing, Serving, Trapped, Gone, Promised, effective]

theorem keeps_accept {s : Slot} {g : Grant} (ok : s.Ok) (granted : s.phase = .granted g) :
    s.Keeps s.accept := by
  obtain ⟨right, want, phase, probe, writebacks, resident⟩ := s
  cases granted
  constructor
  · intro ok
    constructor <;> simp_all [accept]
  all_goals
    simp_all [accept, Holds, Leaving, Yielding, Sharing, Serving, Trapped, Gone, Promised,
      effective]

theorem keeps_respond {s : Slot} {g : Grant} (fetching : s.phase = .fetching g) :
    s.Keeps (s.grant g) := by
  obtain ⟨right, want, phase, probe, writebacks, resident⟩ := s
  cases fetching
  constructor
  · intro ok
    have := ok.rest
    have := ok.clean
    have := ok.memory
    have := ok.reads
    constructor <;> simp_all [grant]
  all_goals
    simp_all [grant, Holds, Leaving, Yielding, Sharing, Serving, Trapped, Gone, Promised, effective]

/-- An order is answered: what the directory then knows of the node. -/
theorem keeps_answer {s : Slot} {o : Order} {right : Right} {reply : Reply} (ok : s.Ok)
    (sent : s.probe = .sent o) (head : ∀ g, s.phase ≠ .granted g)
    (lower : s.want = .read → right = .none)
    (leaving : o = .invalidate → s.right = .shared ∧ right = .none ∧ reply = .ack)
    (yielding : o = .giveBack → right = .none ∧ reply = .data)
    (sharing : o = .share → right = .shared ∧ reply = .data)
    (serving : ∀ keep, o = .own keep → right = .owned ∧ reply = .data) :
    s.Keeps (s.answer right reply) := by
  have none := not_promised ok sent head
  have eff := effective_of_not_promised none
  have eff' : (s.answer right reply).effective = right := effective_of_not_promised none
  have lowered : right ≠ .exclusive := by
    cases o <;> grind
  obtain ⟨right', want, phase, probe, writebacks, resident⟩ := s
  simp only at sent leaving eff
  subst sent
  constructor
  case exclusive => exact fun exclusive => absurd (eff'.symm.trans exclusive) lowered
  · intro ok
    have := ok.rest
    have := ok.asked
    have := ok.clean
    have := ok.acked
    have := ok.memory
    constructor <;> simp_all [answer, Promised]
  all_goals
    simp only [answer, Holds, Leaving, Yielding, Sharing, Serving, Trapped, Gone, Promised, eff]
      at none ⊢ <;>
    grind

end Slot

end DirectoryProtocol
