import MulticoreSim.Library.DirectoryProtocol.Invariant

/-! # Every event keeps the invariant

The events of the directory, one lemma each for the members' rights, over two
lemmas about the bookkeeping: `Books.serve` for the events that move a request
on, `Books.settle` for those that only move orders.
-/

namespace DirectoryProtocol

variable {ι : Type} [DecidableEq ι]

namespace Slot

/-- Only the order, the eviction notices and the copy differ. -/
structure SameRequest (s s' : Slot) : Prop where
  right : s'.right = s.right
  want : s'.want = s.want
  phase : s'.phase = s.phase

theorem SameRequest.refl (s : Slot) : s.SameRequest s := ⟨rfl, rfl, rfl⟩

theorem same_send (s : Slot) (o : Order) : s.SameRequest (s.send o) := ⟨rfl, rfl, rfl⟩

theorem same_settle (s : Slot) : s.SameRequest s.settle := ⟨rfl, rfl, rfl⟩

theorem SameRequest.ok {s s' : Slot} (same : s.SameRequest s') (ok : s.Ok)
    (quiet : ∀ g, s.phase ≠ .fetching g) : s'.Ok := by
  obtain ⟨right, want, phase⟩ := same
  constructor
  · rw [want, phase]
    exact ok.rest
  · rw [want, phase]
    exact ok.asked
  · rw [want, right]
    exact ok.reads
  · rw [want, phase]
    exact ok.clean
  · rw [want, phase]
    exact ok.acked
  · rw [phase]
    exact ok.memory
  · rw [phase]
    exact fun g fetching => absurd fetching (quiet g)

@[simp] theorem probe_send (s : Slot) (o : Order) : (s.send o).probe = .sent o := rfl

@[simp] theorem probe_settle (s : Slot) : s.settle.probe = .idle := rfl

@[simp] theorem probe_wait (s : Slot) : s.wait.probe = s.probe := rfl

@[simp] theorem probe_grant (s : Slot) (g : Grant) : (s.grant g).probe = s.probe := rfl

@[simp] theorem probe_fetch (s : Slot) (g : Grant) : (s.fetch g).probe = s.probe := rfl

@[simp] theorem right_send (s : Slot) (o : Order) : (s.send o).right = s.right := rfl

@[simp] theorem right_settle (s : Slot) : s.settle.right = s.right := rfl

@[simp] theorem want_settle (s : Slot) : s.settle.want = s.want := rfl

@[simp] theorem effective_send (s : Slot) (o : Order) : (s.send o).effective = s.effective := rfl

@[simp] theorem effective_settle (s : Slot) : s.settle.effective = s.effective := rfl

@[simp] theorem effective_wait (s : Slot) : s.wait.effective = s.right := rfl

@[simp] theorem effective_grant (s : Slot) (g : Grant) :
    (s.grant g).effective = g.right s.want := rfl

@[simp] theorem effective_fetch (s : Slot) (g : Grant) :
    (s.fetch g).effective = g.right s.want := rfl

theorem effective_of_asked {s : Slot} {r : Request} (asked : s.phase = .asked r) :
    s.effective = s.right := by rw [effective, asked]

theorem effective_of_waiting {s : Slot} (waiting : s.phase = .waiting) :
    s.effective = s.right := by rw [effective, waiting]

/-- A slot whose request the directory has just moved on. -/
structure Served (s s' : Slot) (waits : Prop) : Prop where
  right : s'.right = s.right
  want : s'.want = s.want
  next : s'.phase = .waiting ∧ waits ∨ ∃ g, ¬ waits ∧
    (s'.phase = .granted g ∨ s'.phase = .fetching g ∧ g ≠ .ack ∧ s'.probe = .idle) ∧
    (g = .cleanExclusive → s.want = .read) ∧ (g = .ack → s.want = .write)

theorem Served.ok {s s' : Slot} {waits : Prop} (served : s.Served s' waits) (ok : s.Ok)
    (wants : s.want ≠ .nothing) : s'.Ok := by
  obtain ⟨right, want, next⟩ := served
  have reads := ok.reads
  constructor <;> grind

end Slot

namespace Block

omit [DecidableEq ι] in
/-- The directory moves orders about, no request. -/
theorem Books.settle {B B' : Block ι} (books : B.Books) (quiet : B.Quiet)
    (same : ∀ j, (B.slot j).SameRequest (B'.slot j))
    (outsiders : ∀ j, j ∉ B'.members → (B'.slot j).probe = .idle)
    (requester : B'.mode.requester = B.mode.requester) (serves : B'.mode.serves = B.mode.serves) :
    B'.Books where
  slots j := (same j).ok (books.slots j) (quiet j)
  outsiders := outsiders
  waiting j := by rw [(same j).phase, requester, books.waiting j]
  serves r eq := by rw [(same r).want, serves, books.serves r (requester ▸ eq)]

/-- The directory moves the request of node `i` on. -/
theorem Books.serve {B B' : Block ι} {i : ι} (books : B.Books) (quiet : B.Quiet)
    (alone : B.mode.requester = none ∨ B.mode.requester = some i)
    (wants : (B.slot i).want ≠ .nothing)
    (others : ∀ j, j ≠ i → (B.slot j).SameRequest (B'.slot j))
    (served : (B.slot i).Served (B'.slot i) (B'.mode.requester = some i))
    (only : ∀ r, B'.mode.requester = some r → r = i ∧ (B.slot i).want = B'.mode.serves)
    (outsiders : ∀ j, j ∉ B'.members → (B'.slot j).probe = .idle) : B'.Books where
  slots j := by
    by_cases eq : j = i
    · subst j
      exact served.ok (books.slots i) wants
    · exact (others j eq).ok (books.slots j) (quiet j)
  outsiders := outsiders
  waiting j := by
    by_cases eq : j = i
    · subst j
      rcases served.next with ⟨phase, waits⟩ | ⟨g, nowait, phase | ⟨phase, -⟩, -⟩ <;>
        simp [*]
    · have idle : (B.slot j).phase ≠ .waiting := by
        rw [ne_eq, books.waiting j]
        rcases alone with none | self
        · simp [none]
        · simpa [self] using Ne.symm eq
      rw [(others j eq).phase]
      constructor
      · exact fun waiting => absurd waiting idle
      · exact fun requester => absurd (only j requester).1 eq
  serves r requester := by
    obtain ⟨rfl, eq⟩ := only r requester
    rw [served.want, eq]

/-- A round begins: the orders of `X` are out and node `i` waits. -/
theorem Books.begin {B X : Block ι} {i : ι} {m : Mode ι} (books : B.Books) (quiet : B.Quiet)
    (stable : B.mode.requester = none) (wants : (B.slot i).want = m.serves)
    (same : ∀ j, (B.slot j).SameRequest (X.slot j))
    (outsiders : ∀ j, j ∉ X.members → (X.slot j).probe = .idle)
    (requester : m.requester = some i) : Books { X.modify i .wait with mode := m } := by
  apply books.serve quiet (i := i) (.inl stable)
  · cases m <;> simp_all [Mode.serves]
  · intro j ne
    simpa [modify_slot, ne] using same j
  · refine ⟨?_, ?_, .inl ⟨?_, requester⟩⟩ <;> simp [Slot.wait, (same i).right, (same i).want]
  · intro r eq
    rw [requester] at eq
    cases eq
    exact ⟨rfl, wants⟩
  · intro j out
    have idle := outsiders j out
    simp only [modify_slot]
    split <;> exact idle

/-- Node `i` is answered, and the directory is at rest again. -/
theorem Books.finish {B X : Block ι} {i : ι} {g : Grant} {m : Mode ι} {members : Finset ι}
    (books : B.Books) (quiet : B.Quiet)
    (alone : B.mode.requester = none ∨ B.mode.requester = some i)
    (wants : (B.slot i).want ≠ .nothing) (fits : g = .data ∨ g = .ack ∧ (B.slot i).want = .write)
    (same : ∀ j, (B.slot j).SameRequest (X.slot j))
    (outsiders : ∀ j, j ∉ members → (X.slot j).probe = .idle)
    (stable : m.requester = none) :
    (X.serve i g m members).Books := by
  apply books.serve quiet alone wants
  · intro j ne
    simpa [modify_slot, ne] using same j
  · refine ⟨?_, ?_, .inr ⟨g, ?_, .inl ?_, ?_, ?_⟩⟩
    · simp [Slot.grant, (same i).right]
    · simp [Slot.grant, (same i).want]
    · simp [stable]
    · simp [Slot.grant]
    · rintro rfl
      simp at fits
    · rintro rfl
      simpa using fits
  · simp [stable]
  · intro j out
    have idle := outsiders j out
    simp only [serve_slot, modify_slot]
    split <;> exact idle

/-- Memory is asked for node `i`'s data, and the directory is at rest again. -/
theorem Books.fetch {B : Block ι} {i : ι} {g : Grant} {m : Mode ι} {members : Finset ι}
    (books : B.Books) (quiet : B.Quiet)
    (alone : B.mode.requester = none ∨ B.mode.requester = some i)
    (wants : (B.slot i).want ≠ .nothing)
    (fits : g = .data ∨ g = .cleanExclusive ∧ (B.slot i).want = .read)
    (idle : (B.slot i).probe = .idle)
    (outsiders : ∀ j, j ∉ members → (B.slot j).probe = .idle)
    (stable : m.requester = none) :
    (B.fetch i g m members).Books := by
  apply books.serve quiet alone wants
  · intro j ne
    simpa [modify_slot, ne] using Slot.SameRequest.refl _
  · refine ⟨?_, ?_, .inr ⟨g, ?_, .inr ⟨?_, ?_, ?_⟩, ?_, ?_⟩⟩
    · simp [Slot.fetch]
    · simp [Slot.fetch]
    · simp [stable]
    · simp [Slot.fetch]
    · rintro rfl
      simp at fits
    · simpa [Slot.fetch] using idle
    · rintro rfl
      simpa using fits
    · rintro rfl
      simp at fits
  · simp [stable]
  · intro j out
    have idle := outsiders j out
    simp only [fetch_slot, modify_slot]
    split <;> exact idle

omit [DecidableEq ι] in
theorem Books.wants_of_asks {B : Block ι} (books : B.Books) {i : ι} {r : Request}
    (asks : B.Asks i r) : (B.slot i).want = r.want := (books.slots i).asked r asks

omit [DecidableEq ι] in
theorem Books.wants_of_asksWrite {B : Block ι} (books : B.Books) {i : ι}
    (asks : B.AsksWrite i) : (B.slot i).want = .write := by
  rcases asks with asks | asks <;> exact books.wants_of_asks asks

omit [DecidableEq ι] in
theorem effective_of_asks {B : Block ι} {i : ι} {r : Request} (asks : B.Asks i r) :
    (B.slot i).effective = (B.slot i).right := Slot.effective_of_asked asks

omit [DecidableEq ι] in
theorem effective_of_asksWrite {B : Block ι} {i : ι} (asks : B.AsksWrite i) :
    (B.slot i).effective = (B.slot i).right := by
  rcases asks with asks | asks <;> exact effective_of_asks asks

/-! ## Rounds begin -/

variable {B : Block ι}

theorem Inv.tell {h i : ι} {o : Order} {m : Mode ι} (inv : B.Inv) (quiet : B.Quiet)
    (stable : B.mode.requester = none) (wants : (B.slot i).want = m.serves) (mem : h ∈ B.members)
    (requester : m.requester = some i) : (B.tell h i o m).Books := by
  apply inv.begin quiet stable wants _ _ requester
  · intro j
    rw [modify_slot]
    split
    · exact Slot.same_send _ _
    · exact .refl _
  · intro j out
    rw [modify_slot_of_ne]
    · exact inv.outsiders j out
    · rintro rfl
      exact out mem

theorem tell_target {h i : ι} {o : Order} {m : Mode ι}
    (asking : (B.slot i).effective = (B.slot i).right) :
    ((B.tell h i o m).slot h).probe = .sent o ∧
      ((B.tell h i o m).slot h).effective = (B.slot h).effective := by
  simp only [tell_slot, modify_slot]
  by_cases eq : h = i
  · subst h
    simpa using asking.symm
  · simp [eq]

theorem tell_others {h i : ι} {o : Order} {m : Mode ι}
    (asking : (B.slot i).effective = (B.slot i).right) {j : ι} (ne : j ≠ h) {right : Right}
    (holds : (B.slot j).Holds right) : ((B.tell h i o m).slot j).Holds right := by
  simp only [tell_slot, modify_slot, ne, if_false]
  split
  · subst j
    exact ⟨holds.1, by simpa [← asking] using holds.2⟩
  · exact holds

theorem Inv.takeover {h i : ι} {c : Bool} (inv : B.Inv) (enabled : B.Enabled (.takeover h i c)) :
    (B.after (.takeover h i c)).Inv := by
  obtain ⟨quiet, mode, asks⟩ := enabled
  have rights := inv.rights
  simp only [ModeOk, mode] at rights
  obtain ⟨members, holds⟩ := rights
  refine ⟨inv.tell quiet ?_ (inv.wants_of_asksWrite asks) ?_ rfl, members, .inl ?_⟩
  · simp [mode, Mode.requester]
  · simp [members]
  · rw [← holds.2]
    exact tell_target (effective_of_asksWrite asks)

theorem Inv.downgrade {h i : ι} {c : Bool} (inv : B.Inv)
    (enabled : B.Enabled (.downgrade h i c)) : (B.after (.downgrade h i c)).Inv := by
  obtain ⟨quiet, mode, asks⟩ := enabled
  have rights := inv.rights
  simp only [ModeOk, mode] at rights
  obtain ⟨members, holds⟩ := rights
  refine ⟨inv.tell quiet ?_ (inv.wants_of_asks asks) ?_ rfl, members, .inl ?_⟩
  · simp [mode, Mode.requester]
  · simp [members]
  · rw [← holds.2]
    exact tell_target (effective_of_asks asks)

theorem Inv.forward {o i : ι} {c k : Bool} (inv : B.Inv)
    (enabled : B.Enabled (.forward o i c k)) : (B.after (.forward o i c k)).Inv := by
  obtain ⟨quiet, mode, asks⟩ := enabled
  have rights := inv.rights
  have asking := effective_of_asks asks
  rcases mode with mode | mode <;> simp only [ModeOk, mode] at rights
  · obtain ⟨members, holds⟩ := rights
    have target := tell_target (B := B) (h := o) (o := .own k) (m := .forward o i c) asking
    refine ⟨inv.tell quiet ?_ (inv.wants_of_asks asks) ?_ rfl, ?_,
      .inl ⟨⟨k, target.1⟩, .inl (target.2.trans holds.2)⟩, fun _ => members, ?_⟩
    · simp [mode, Mode.requester]
    · simp [members]
    · simp [after, members]
    · simp [after, members]
  · obtain ⟨mem, holds, sharers⟩ := rights
    have target := tell_target (B := B) (h := o) (o := .own k) (m := .forward o i c) asking
    have owned := target.2.trans holds.2
    refine ⟨inv.tell quiet (by simp [mode, Mode.requester]) (inv.wants_of_asks asks) mem rfl, mem,
      .inl ⟨⟨k, target.1⟩, .inr owned⟩, fun exclusive => ?_,
      fun j mem ne => tell_others asking ne (sharers j mem ne)⟩
    cases owned.symm.trans exclusive

theorem Inv.purge {targets : Finset ι} {i : ι} {m : Mode ι} (inv : B.Inv) (quiet : B.Quiet)
    (stable : B.mode.requester = none) (wants : (B.slot i).want = m.serves)
    (sub : targets ⊆ B.members) (requester : m.requester = some i) :
    (B.purge targets i m).Books := by
  apply inv.begin quiet stable wants _ _ requester
  · intro j
    rw [order_slot]
    split
    · exact Slot.same_send _ _
    · exact .refl _
  · intro j out
    rw [order_slot, if_neg fun mem => out (sub mem)]
    exact inv.outsiders j out

theorem purge_target {targets : Finset ι} {i j : ι} {m : Mode ι} (mem : j ∈ targets) (ne : j ≠ i) :
    ((B.purge targets i m).slot j).probe = .sent .invalidate ∧
      ((B.purge targets i m).slot j).effective = (B.slot j).effective := by
  simp only [purge_slot, modify_slot, ne, if_false, order_slot, mem, if_true, true_and]
  rfl

theorem purge_other {targets : Finset ι} {i j : ι} {m : Mode ι} (out : j ∉ targets)
    (asking : (B.slot i).effective = (B.slot i).right) {right : Right}
    (holds : (B.slot j).Holds right) : ((B.purge targets i m).slot j).Holds right := by
  simp only [purge_slot, modify_slot, order_slot, out, if_false]
  split
  · subst j
    exact ⟨holds.1, by simpa [← asking] using holds.2⟩
  · exact holds

theorem Inv.invalidate {i : ι} (inv : B.Inv) (enabled : B.Enabled (.invalidate i)) :
    (B.after (.invalidate i)).Inv := by
  obtain ⟨quiet, mode, asks⟩ := enabled
  have rights := inv.rights
  simp only [ModeOk, mode] at rights
  obtain ⟨-, sharers⟩ := rights
  refine ⟨inv.purge quiet ?_ (inv.wants_of_asksWrite asks) (B.members.erase_subset i) rfl, ?_⟩
  · simp [mode, Mode.requester]
  · intro j mem
    constructor
    · rintro rfl
      exact purge_other (by simp) (effective_of_asksWrite asks) (sharers j mem)
    · intro ne
      have target := purge_target (B := B) (m := .invalidate i) (Finset.mem_erase.mpr ⟨ne, mem⟩) ne
      exact .inl ⟨target.1, target.2.trans (sharers j mem).2⟩

theorem Inv.reclaim {o i : ι} {c all : Bool} (inv : B.Inv)
    (enabled : B.Enabled (.reclaim o i c all)) : (B.after (.reclaim o i c all)).Inv := by
  obtain ⟨quiet, mode, asks, -⟩ := enabled
  have rights := inv.rights
  have asking := effective_of_asksWrite asks
  simp only [ModeOk, mode] at rights
  obtain ⟨mem, holds, sharers⟩ := rights
  simp only [after]
  generalize eq : (if all then B.members else B.members.erase o).erase i = targets
  have sub : targets ⊆ B.members := by
    subst eq
    cases all
    · exact (Finset.erase_subset _ _).trans (Finset.erase_subset _ _)
    · exact Finset.erase_subset _ _
  have target : ∀ j ∈ B.members, j ≠ o → j ≠ i → j ∈ targets := by
    subst eq
    cases all <;> simp +contextual
  have self : i ∉ targets := by simp [← eq]
  refine ⟨inv.purge quiet ?_ (inv.wants_of_asksWrite asks) sub rfl, mem, ?_, ?_⟩
  · simp [mode, Mode.requester]
  · by_cases told : o ∈ targets
    · have ne : o ≠ i := fun eq => self (eq ▸ told)
      have told := purge_target (B := B) (m := .reclaim o i c false) told ne
      exact .inr ⟨ne, told.1, told.2.trans holds.2⟩
    · exact .inl (purge_other told asking holds)
  · intro j memj ne
    constructor
    · rintro rfl
      exact purge_other self asking (sharers j memj ne)
    · intro nei
      have told := purge_target (B := B) (m := .reclaim o i c false) (target j memj ne nei) nei
      exact .inl ⟨told.1, told.2.trans (sharers j memj ne).2⟩

/-! ## Rounds end -/

theorem Inv.settled {h i : ι} {g : Grant} {m : Mode ι} {members : Finset ι} (inv : B.Inv)
    (quiet : B.Quiet) (requester : B.mode.requester = some i)
    (fits : g = .data ∨ g = .ack ∧ (B.slot i).want = .write)
    (sub : B.members.erase h ⊆ members) (stable : m.requester = none) :
    ((B.modify h .settle).serve i g m members).Books := by
  apply inv.finish quiet (.inr requester) _ fits _ _ stable
  · intro nothing
    have rest := (inv.slots i).rest.mp nothing
    rw [(inv.waiting i).mpr requester] at rest
    cases rest
  · intro j
    rw [modify_slot]
    split
    · exact Slot.same_settle _
    · exact .refl _
  · intro j out
    rw [modify_slot]
    split
    · rfl
    · next ne =>
        apply inv.outsiders j
        intro mem
        exact out (sub (Finset.mem_erase.mpr ⟨ne, mem⟩))

/-- The requester of a round holds what it asked for when the round ends. -/
theorem settled_requester {h i : ι} {g : Grant} {m : Mode ι} {s : Finset ι}
    (idle : i ≠ h → (B.slot i).probe = .idle) :
    (((B.modify h .settle).serve i g m s).slot i).Holds (g.right (B.slot i).want) := by
  simp only [serve_slot, modify_slot, if_true, Slot.Holds, Slot.probe_grant, Slot.effective_grant]
  split
  · exact ⟨rfl, rfl⟩
  · next ne => exact ⟨idle ne, rfl⟩

theorem settled_other {h i j : ι} {g : Grant} {m : Mode ι} {s : Finset ι} (ne : j ≠ i)
    {right : Right} (eff : (B.slot j).effective = right) (idle : j ≠ h → (B.slot j).probe = .idle) :
    (((B.modify h .settle).serve i g m s).slot j).Holds right := by
  simp only [serve_slot, modify_slot, ne, if_false, Slot.Holds]
  split
  · exact ⟨rfl, eff⟩
  · next ne' => exact ⟨idle ne', eff⟩

theorem Inv.takenOver {h i : ι} (inv : B.Inv) (enabled : B.Enabled (.takenOver h i)) :
    (B.after (.takenOver h i)).Inv := by
  obtain ⟨quiet, mode, -⟩ := enabled
  have rights := inv.rights
  simp only [ModeOk, mode] at rights
  obtain ⟨members, -⟩ := rights
  have requester : B.mode.requester = some i := by rw [mode]; rfl
  have want := inv.serves i requester
  rw [mode] at want
  refine ⟨inv.settled quiet requester (.inl rfl) ?_ rfl, rfl, ?_⟩
  · simp [members]
  · have := settled_requester (B := B) (h := h) (i := i) (g := .data)
      (m := .exclusive i false) (s := {i}) fun ne => inv.outsiders i (by simpa [members] using ne)
    rwa [want] at this

theorem Inv.downgraded {h i : ι} (inv : B.Inv) (enabled : B.Enabled (.downgraded h i)) :
    (B.after (.downgraded h i)).Inv := by
  obtain ⟨quiet, mode, answered⟩ := enabled
  have rights := inv.rights
  simp only [ModeOk, mode] at rights
  obtain ⟨members, sharing⟩ := rights
  have requester : B.mode.requester = some i := by rw [mode]; rfl
  have want := inv.serves i requester
  rw [mode] at want
  have idle : ∀ j, j ≠ h → (B.slot j).probe = .idle :=
    fun j ne => inv.outsiders j (by simpa [members] using ne)
  have shared : (B.slot h).effective = .shared := by
    rcases sharing with ⟨sent, -⟩ | ⟨-, right, gone⟩
    · simp [sent] at answered
    · rwa [Slot.effective_of_not_promised gone]
  refine ⟨inv.settled quiet requester (.inl rfl) ?_ rfl, Finset.insert_nonempty _ _, ?_⟩
  · exact (Finset.erase_subset _ _).trans (Finset.subset_insert _ _)
  · intro j mem
    by_cases eq : j = i
    · subst j
      have := settled_requester (B := B) (h := h) (i := i) (g := .data) (m := .shared)
        (s := insert i B.members) (idle i)
      rwa [want] at this
    · apply settled_other eq _ (idle j)
      have old : j ∈ B.members := (Finset.mem_insert.mp mem).resolve_left eq
      rw [members, Finset.mem_singleton] at old
      rw [old, shared]

theorem Inv.forwarded {o i : ι} {c : Bool} (inv : B.Inv) (enabled : B.Enabled (.forwarded o i c)) :
    (B.after (.forwarded o i c)).Inv := by
  obtain ⟨quiet, mode, answered⟩ := enabled
  have rights := inv.rights
  simp only [ModeOk, mode] at rights
  obtain ⟨mem, serving, -, sharers⟩ := rights
  have requester : B.mode.requester = some i := by rw [mode]; rfl
  have want := inv.serves i requester
  rw [mode] at want
  have owned : (B.slot o).right = .owned ∧ (B.slot o).effective = .owned := by
    rcases serving with ⟨⟨k, sent⟩, -⟩ | ⟨-, right, gone⟩
    · simp [sent] at answered
    · exact ⟨right, by rwa [Slot.effective_of_not_promised gone]⟩
  -- The reader has no copy, so it is not the owner.
  have ne : o ≠ i := by
    rintro rfl
    have := (inv.slots o).reads want
    simp [owned.1] at this
  have idle : ∀ j, j ≠ o → (B.slot j).probe = .idle := by
    intro j ne
    by_cases memj : j ∈ B.members
    · exact (sharers j memj ne).1
    · exact inv.outsiders j memj
  refine ⟨inv.settled quiet requester (.inl rfl) ?_ rfl, Finset.mem_insert_of_mem mem, ?_, ?_⟩
  · exact (Finset.erase_subset _ _).trans (Finset.subset_insert _ _)
  · exact settled_other ne owned.2 (idle o)
  · intro j memj nej
    by_cases eq : j = i
    · subst j
      have := settled_requester (B := B) (h := o) (i := i) (g := .data) (m := .owned o c)
        (s := insert i B.members) (idle i)
      rwa [want] at this
    · have old := (Finset.mem_insert.mp memj).resolve_left eq
      exact settled_other eq (sharers j old nej).2 (idle j)

theorem Inv.reclaimed {o r : ι} {c : Bool} (inv : B.Inv)
    (enabled : B.Enabled (.reclaimed o r c)) : (B.after (.reclaimed o r c)).Inv := by
  obtain ⟨quiet, mode, answered⟩ := enabled
  have rights := inv.rights
  simp only [ModeOk, mode] at rights
  obtain ⟨mem, yielding, sharers⟩ := rights
  have requester : B.mode.requester = some r := by rw [mode]; rfl
  have want := inv.serves r requester
  rw [mode] at want
  have others : ∀ j ∈ B.members.erase o, j = r :=
    fun j mem => (sharers j (Finset.mem_of_mem_erase mem) (Finset.ne_of_mem_erase mem)).1
  have idle : r ≠ o → (B.slot r).probe = .idle := by
    intro ne
    by_cases memr : r ∈ B.members
    · exact (sharers r memr ne).2.1
    · exact inv.outsiders r memr
  simp only [after]
  split
  · next memr =>
      have := settled_requester (B := B) (g := .ack) (m := .exclusive r false)
        (s := B.members.erase o) idle
      rw [want] at this
      exact ⟨inv.settled quiet requester (.inr ⟨rfl, want⟩) subset_rfl rfl,
        Finset.eq_singleton_iff_unique_mem.mpr ⟨memr, others⟩, this⟩
  · next out =>
      have := settled_requester (B := B) (g := .data) (m := .exclusive r false)
        (s := insert r (B.members.erase o)) idle
      rw [want] at this
      refine ⟨inv.settled quiet requester (.inl rfl) (Finset.subset_insert _ _) rfl, ?_, this⟩
      have none : B.members.erase o = ∅ := by
        rw [Finset.eq_empty_iff_forall_notMem]
        rintro j memj
        exact out (others j memj ▸ memj)
      simp [none]

/-! ## Answers without a round -/

/-- The node served holds what it asked for. -/
theorem served_holds {i : ι} {g : Grant} {m : Mode ι} {s : Finset ι}
    (idle : (B.slot i).probe = .idle) :
    ((B.serve i g m s).slot i).Holds (g.right (B.slot i).want) := by
  simpa [Slot.Holds] using idle

theorem fetched_holds {i : ι} {g : Grant} {m : Mode ι} {s : Finset ι}
    (idle : (B.slot i).probe = .idle) :
    ((B.fetch i g m s).slot i).Holds (g.right (B.slot i).want) := by
  simpa [Slot.Holds] using idle

omit [DecidableEq ι] in
theorem idle_of_idle (inv : B.Inv) (mode : B.mode = .idle) (i : ι) : (B.slot i).probe = .idle := by
  have rights := inv.rights
  simp only [ModeOk, mode] at rights
  exact inv.outsiders i (by simp [rights])

omit [DecidableEq ι] in
theorem idle_of_shared (inv : B.Inv) (mode : B.mode = .shared) (i : ι) :
    (B.slot i).probe = .idle := by
  have rights := inv.rights
  simp only [ModeOk, mode] at rights
  by_cases mem : i ∈ B.members
  · exact (rights.2 i mem).1
  · exact inv.outsiders i mem

theorem Inv.grantExclusive {i : ι} (inv : B.Inv) (enabled : B.Enabled (.grantExclusive i)) :
    (B.after (.grantExclusive i)).Inv := by
  obtain ⟨quiet, mode, asks⟩ := enabled
  have idle := idle_of_idle inv mode
  have want := inv.wants_of_asksWrite asks
  have holds := fetched_holds (g := .data) (m := .exclusive i false) (s := {i}) (idle i)
  rw [want] at holds
  exact ⟨inv.fetch quiet (.inl (by simp [mode, Mode.requester])) (by simp [want]) (.inl rfl) (idle i)
    (fun j _ => idle j) rfl, rfl, holds⟩

theorem Inv.grantShared {i : ι} (inv : B.Inv) (enabled : B.Enabled (.grantShared i)) :
    (B.after (.grantShared i)).Inv := by
  obtain ⟨quiet, mode, asks⟩ := enabled
  have idle := idle_of_idle inv mode
  have want := inv.wants_of_asks asks
  have holds := fetched_holds (g := .data) (m := .shared) (s := {i}) (idle i)
  rw [want] at holds
  refine ⟨inv.fetch quiet (.inl (by simp [mode, Mode.requester])) (by simp [want, Request.want])
    (.inl rfl) (idle i) (fun j _ => idle j) rfl, Finset.singleton_nonempty i, ?_⟩
  intro j mem
  cases Finset.mem_singleton.mp mem
  exact holds

theorem Inv.grantClean {i : ι} (inv : B.Inv) (enabled : B.Enabled (.grantClean i)) :
    (B.after (.grantClean i)).Inv := by
  obtain ⟨quiet, mode, asks⟩ := enabled
  have idle := idle_of_idle inv mode
  have want := inv.wants_of_asks asks
  have holds := fetched_holds (g := .cleanExclusive) (m := .exclusive i true) (s := {i})
    (idle i)
  rw [want] at holds
  exact ⟨inv.fetch quiet (.inl (by simp [mode, Mode.requester])) (by simp [want, Request.want])
    (.inr ⟨rfl, want⟩) (idle i) (fun j _ => idle j) rfl, rfl, holds⟩

theorem Inv.join {i : ι} (inv : B.Inv) (enabled : B.Enabled (.join i)) :
    (B.after (.join i)).Inv := by
  obtain ⟨quiet, mode, asks⟩ := enabled
  have idle := idle_of_shared inv mode
  have rights := inv.rights
  simp only [ModeOk, mode] at rights
  have want := inv.wants_of_asks asks
  have holds := fetched_holds (g := .data) (m := .shared) (s := insert i B.members) (idle i)
  rw [want] at holds
  refine ⟨inv.fetch quiet (.inl (by simp [mode, Mode.requester])) (by simp [want, Request.want])
    (.inl rfl) (idle i) (fun j _ => idle j) rfl, Finset.insert_nonempty _ _, ?_⟩
  intro j mem
  by_cases eq : j = i
  · subst j
    exact holds
  · simp only [after, fetch_slot, modify_slot, eq, if_false]
    exact rights.2 j ((Finset.mem_insert.mp mem).resolve_left eq)

theorem Inv.upgrade {i : ι} (inv : B.Inv) (enabled : B.Enabled (.upgrade i)) :
    (B.after (.upgrade i)).Inv := by
  obtain ⟨quiet, mode, asks, -⟩ := enabled
  have idle := idle_of_shared inv mode
  have want := inv.wants_of_asksWrite asks
  have holds := served_holds (g := .ack) (m := .exclusive i false) (s := {i}) (idle i)
  rw [want] at holds
  exact ⟨inv.finish quiet (.inl (by simp [mode, Mode.requester])) (by simp [want])
    (.inr ⟨rfl, want⟩) (fun _ => .refl _) (fun j _ => idle j) rfl, rfl, holds⟩

theorem Inv.promote {h i : ι} (inv : B.Inv) (enabled : B.Enabled (.promote h i)) :
    (B.after (.promote h i)).Inv := by
  obtain ⟨quiet, mode, asks⟩ := enabled
  have rights := inv.rights
  simp only [ModeOk, mode] at rights
  obtain ⟨members, holder⟩ := rights
  have want := inv.wants_of_asks asks
  refine ⟨inv.finish quiet (.inl (by simp [mode, Mode.requester])) (by simp [want, Request.want])
    (.inr ⟨rfl, want⟩) (fun _ => .refl _) inv.outsiders rfl, members, ?_⟩
  by_cases eq : h = i
  · subst h
    have holds := served_holds (g := .ack) (m := .exclusive i false) (s := B.members) holder.1
    rwa [want] at holds
  · simpa [after, modify_slot, eq] using holder

/-! ## Invalidations come in -/

/-- One answer less is awaited. -/
theorem Inv.collecting {i : ι} (inv : B.Inv) (quiet : B.Quiet) :
    Books { B.modify i .settle with members := B.members.erase i } := by
  refine Books.settle (B := B) inv.toBooks quiet ?_ ?_ rfl rfl
  · intro j
    simp only [modify_slot]
    split
    · exact Slot.same_settle _
    · exact .refl _
  · intro j out
    simp only [modify_slot]
    split
    · rfl
    · next ne => exact inv.outsiders j fun mem => out (Finset.mem_erase.mpr ⟨ne, mem⟩)

theorem Inv.collect {r i : ι} (inv : B.Inv) (enabled : B.Enabled (.collect r i)) :
    (B.after (.collect r i)).Inv := by
  obtain ⟨quiet, mode, -⟩ := enabled
  have rights := inv.rights
  refine ⟨inv.collecting quiet, ?_⟩
  simp only [ModeOk, mode, after, modify_mode] at rights ⊢
  intro j mem
  rw [modify_slot_of_ne _ _ (Finset.ne_of_mem_erase mem)]
  exact rights j (Finset.mem_of_mem_erase mem)

theorem Inv.collectOwned {o r i : ι} {c : Bool} (inv : B.Inv)
    (enabled : B.Enabled (.collectOwned o r i c)) : (B.after (.collectOwned o r i c)).Inv := by
  obtain ⟨quiet, mode, answered⟩ := enabled
  have rights := inv.rights
  refine ⟨inv.collecting quiet, ?_⟩
  simp only [ModeOk, mode, after, modify_mode] at rights ⊢
  obtain ⟨mem, owner, sharers⟩ := rights
  have ne : o ≠ i := by
    rintro rfl
    rcases owner with holds | ⟨-, sent, -⟩
    · simp [holds.1] at answered
    · simp [sent] at answered
  rw [modify_slot_of_ne _ _ ne]
  refine ⟨Finset.mem_erase.mpr ⟨ne, mem⟩, owner, ?_⟩
  intro j memj
  rw [modify_slot_of_ne _ _ (Finset.ne_of_mem_erase memj)]
  exact sharers j (Finset.mem_of_mem_erase memj)

omit [DecidableEq ι] in
/-- Nobody owes an answer: no member is on its way out. -/
theorem not_owing {i : ι} (none : B.owing = ∅) (mem : i ∈ B.members) : ¬ (B.slot i).Owing := by
  intro owing
  have : i ∈ B.owing := Finset.mem_filter.mpr ⟨mem, owing⟩
  simp [none] at this

theorem Slot.Leaving.owing {s : Slot} (leaving : s.Leaving) : s.Owing :=
  leaving.imp (·.1) (·.1)

theorem Inv.collected {r : ι} (inv : B.Inv) (enabled : B.Enabled (.collected r)) :
    (B.after (.collected r)).Inv := by
  obtain ⟨quiet, mode, none⟩ := enabled
  have rights := inv.rights
  simp only [ModeOk, mode] at rights
  have requester : B.mode.requester = some r := by rw [mode]; rfl
  have want := inv.serves r requester
  rw [mode] at want
  have only : ∀ j ∈ B.members, j = r := by
    intro j mem
    by_contra ne
    exact not_owing none mem (Slot.Leaving.owing ((rights j mem).2 ne))
  simp only [after]
  split
  · next mem =>
      have holds := (rights r mem).1 rfl
      have served := served_holds (g := .ack) (m := .exclusive r false) (s := B.members)
        holds.1
      rw [want] at served
      exact ⟨inv.finish quiet (.inr requester) (by simp [want, Mode.serves]) (.inr ⟨rfl, want⟩)
        (fun _ => .refl _) inv.outsiders rfl,
        Finset.eq_singleton_iff_unique_mem.mpr ⟨mem, only⟩, served⟩
  · next out =>
      have idle := inv.outsiders r out
      have fetched := fetched_holds (g := .data) (m := .exclusive r false)
        (s := insert r B.members) idle
      rw [want] at fetched
      have empty : B.members = ∅ := by
        rw [Finset.eq_empty_iff_forall_notMem]
        exact fun j mem => out (only j mem ▸ mem)
      refine ⟨inv.fetch quiet (.inr requester) (by simp [want, Mode.serves]) (.inl rfl) idle
        (fun j out => inv.outsiders j fun mem => out (Finset.mem_insert_of_mem mem)) rfl, ?_,
        fetched⟩
      simp [empty]

theorem Inv.upgradeOwner {o : ι} {c : Bool} (inv : B.Inv)
    (enabled : B.Enabled (.upgradeOwner o c)) : (B.after (.upgradeOwner o c)).Inv := by
  obtain ⟨quiet, mode, sub, none⟩ := enabled
  have rights := inv.rights
  simp only [ModeOk, mode] at rights
  obtain ⟨mem, owner, -⟩ := rights
  have requester : B.mode.requester = some o := by rw [mode]; rfl
  have want := inv.serves o requester
  rw [mode] at want
  have holds : (B.slot o).Holds .owned := owner.resolve_right fun trapped => trapped.1 rfl
  have served := served_holds (g := .ack) (m := .exclusive o false) (s := B.members) holds.1
  rw [want] at served
  exact ⟨inv.finish quiet (.inr requester) (by simp [want, Mode.serves]) (.inr ⟨rfl, want⟩)
    (fun _ => .refl _) inv.outsiders rfl,
    Finset.Subset.antisymm sub (Finset.singleton_subset_iff.mpr mem), served⟩

theorem Inv.recallOwner {o r : ι} {c : Bool} (inv : B.Inv)
    (enabled : B.Enabled (.recallOwner o r c)) : (B.after (.recallOwner o r c)).Inv := by
  obtain ⟨quiet, mode, none⟩ := enabled
  have rights := inv.rights
  simp only [ModeOk, mode] at rights
  obtain ⟨mem, owner, sharers⟩ := rights
  have holds : (B.slot o).Holds .owned :=
    owner.resolve_right fun trapped => not_owing none mem (.inl trapped.2.1)
  refine ⟨Books.settle (B := B) inv.toBooks quiet ?_ ?_ ?_ ?_, mem, .inl ?_, ?_⟩
  · intro j
    simp only [after, modify_slot]
    split
    · exact Slot.same_send _ _
    · exact .refl _
  · intro j out
    have ne : j ≠ o := by
      rintro rfl
      exact out mem
    simp only [after, modify_slot, ne, if_false]
    exact inv.outsiders j out
  · simp [after, mode, Mode.requester]
  · simp [after, mode, Mode.serves]
  · simpa [after] using holds.2
  · intro j memj ne
    have same : (B.after (.recallOwner o r c)).slot j = B.slot j := modify_slot_of_ne _ _ ne
    by_cases eq : j = r
    · exact ⟨eq, same ▸ (sharers j memj ne).1 eq⟩
    · exact absurd (Slot.Leaving.owing ((sharers j memj ne).2 eq)) (not_owing none memj)

/-! ## Evictions come in -/

omit [DecidableEq ι] in
/-- At rest the directory has no order out. -/
theorem idle_of_stable (inv : B.Inv) (stable : B.mode.Stable) (i : ι) : (B.slot i).probe = .idle := by
  by_cases mem : i ∈ B.members
  · have rights := inv.rights
    unfold ModeOk at rights
    unfold Mode.Stable at stable
    split at rights
    · simp [rights] at mem
    · rw [rights.1, Finset.mem_singleton] at mem
      exact mem ▸ rights.2.1
    · exact (rights.2 i mem).1
    · next o _ _ =>
        by_cases eq : i = o
        · exact eq ▸ rights.2.1.1
        · exact (rights.2.2 i mem eq).1
    all_goals simp_all [Mode.requester]
  · exact inv.outsiders i mem

theorem without_stable {m : Mode ι} (stable : m.Stable) (members : Finset ι) (i : ι) :
    (m.without members i).Stable := by
  unfold Mode.without
  by_cases empty : members = ∅
  · rw [if_pos empty]
    rfl
  · rw [if_neg empty]
    cases m with
    | owned o c =>
        simp only
        split <;> rfl
    | _ => exact stable

theorem without_rights {i : ι} (rights : B.ModeOk) (stable : B.mode.Stable) :
    ModeOk { B with mode := B.mode.without (B.members.erase i) i, members := B.members.erase i } := by
  by_cases empty : B.members.erase i = ∅
  · simp [ModeOk, Mode.without, empty]
  · have left : (B.members.erase i).Nonempty := Finset.nonempty_iff_ne_empty.mpr empty
    have other : ∀ j ∈ B.members.erase i, j ∈ B.members ∧ j ≠ i :=
      fun j mem => ⟨Finset.mem_of_mem_erase mem, Finset.ne_of_mem_erase mem⟩
    cases mode : B.mode with
    | idle =>
        simp only [ModeOk, mode] at rights
        simp [rights] at empty
    | exclusive h c =>
        simp only [ModeOk, mode] at rights
        have ne : i ≠ h := by
          rintro rfl
          simp [rights.1] at empty
        have same : B.members.erase i = {h} := by
          rw [Finset.erase_eq_of_notMem (by simpa [rights.1] using ne), rights.1]
        simp only [ModeOk, Mode.without, empty, if_false]
        exact ⟨same, rights.2⟩
    | shared =>
        simp only [ModeOk, mode] at rights
        simp only [ModeOk, Mode.without, empty, if_false]
        exact ⟨left, fun j mem => rights.2 j (other j mem).1⟩
    | owned o c =>
        simp only [ModeOk, mode] at rights
        simp only [Mode.without, empty, if_false]
        by_cases eq : i = o
        · subst i
          simp only [if_true, ModeOk]
          exact ⟨left, fun j mem => rights.2.2 j (other j mem).1 (other j mem).2⟩
        · simp only [eq, if_false, ModeOk]
          exact ⟨Finset.mem_erase.mpr ⟨Ne.symm eq, rights.1⟩, rights.2.1,
            fun j mem ne => rights.2.2 j (other j mem).1 ne⟩
    | takeover | downgrade | forward | invalidate | reclaim =>
        simp [Mode.Stable, mode, Mode.requester] at stable

omit [DecidableEq ι] in
theorem serves_of_stable {m : Mode ι} (stable : m.Stable) : m.serves = .write := by
  cases m with
  | downgrade | forward => simp [Mode.Stable, Mode.requester] at stable
  | _ => rfl

theorem Inv.writeback {i : ι} (inv : B.Inv) (enabled : B.Enabled (.writeback i)) :
    (B.after (.writeback i)).Inv := by
  obtain ⟨quiet, stable, -⟩ := enabled
  have noted := inv.node i .noted (Slot.keeps_copy _ _ _)
  have idle := idle_of_stable noted stable
  have stable' := without_stable stable (B.members.erase i) i
  have quiet' : (B.modify i .noted).Quiet := by
    intro j g
    rw [modify_slot]
    split <;> exact quiet j g
  refine ⟨noted.toBooks.settle quiet' (fun _ => .refl _) (fun j _ => idle j) ?_ ?_,
    without_rights noted.rights stable⟩
  · exact stable'.trans stable.symm
  · exact (serves_of_stable stable').trans (serves_of_stable stable).symm

/-! ## All events -/

omit [DecidableEq ι] in
/-- A node's event keeps its slot's standing with the directory. -/
theorem Inv.keeps (inv : B.Inv) {e : Event ι} (enabled : B.Enabled e) {i : ι} {f : Slot → Slot}
    (slot : e.slot = some (i, f)) : (B.slot i).Keeps (f (B.slot i)) := by
  have ok := inv.slots i
  cases e with
  | ask i r =>
      cases slot
      exact Slot.keeps_ask enabled.1 enabled.2.1
  | accept i =>
      cases slot
      obtain ⟨g, granted⟩ := enabled
      exact Slot.keeps_accept ok granted
  | drop i =>
      cases slot
      obtain ⟨sent, right, head⟩ := enabled
      apply Slot.keeps_answer ok sent head <;> simp [right]
  | surrender i =>
      cases slot
      obtain ⟨sent, right, head⟩ := enabled
      apply Slot.keeps_answer ok sent head <;> simp
  | share i =>
      cases slot
      obtain ⟨sent, right, head⟩ := enabled
      have writes : (B.slot i).want ≠ .read := fun read => by
        simpa [right] using ok.reads read
      apply Slot.keeps_answer ok sent head <;> simp [writes]
  | own i keep =>
      cases slot
      obtain ⟨sent, right, head⟩ := enabled
      have writes : (B.slot i).want ≠ .read := fun read => by
        simp [ok.reads read] at right
      apply Slot.keeps_answer ok sent head <;> simp [writes]
  | evict i | lose i | refill i =>
      cases slot
      exact Slot.keeps_copy _ _ _
  | respond i g =>
      cases slot
      exact Slot.keeps_respond enabled
  | _ => cases slot

/-- The protocol invariant is kept by every event. -/
theorem Inv.after (inv : B.Inv) {e : Event ι} (enabled : B.Enabled e) : (B.after e).Inv := by
  cases e with
  | ask | accept | drop | surrender | share | own | evict | lose | refill | respond =>
      exact inv.node _ _ (inv.keeps enabled rfl)
  | grantExclusive i => exact inv.grantExclusive enabled
  | grantShared i => exact inv.grantShared enabled
  | grantClean i => exact inv.grantClean enabled
  | join i => exact inv.join enabled
  | promote h i => exact inv.promote enabled
  | takeover h i c => exact inv.takeover enabled
  | downgrade h i c => exact inv.downgrade enabled
  | forward o i c k => exact inv.forward enabled
  | takenOver h i => exact inv.takenOver enabled
  | downgraded h i => exact inv.downgraded enabled
  | forwarded o i c => exact inv.forwarded enabled
  | upgrade i => exact inv.upgrade enabled
  | invalidate i => exact inv.invalidate enabled
  | collect r i => exact inv.collect enabled
  | collected r => exact inv.collected enabled
  | reclaim o i c all => exact inv.reclaim enabled
  | collectOwned o r i c => exact inv.collectOwned enabled
  | upgradeOwner o c => exact inv.upgradeOwner enabled
  | recallOwner o r c => exact inv.recallOwner enabled
  | reclaimed o r c => exact inv.reclaimed enabled
  | writeback i => exact inv.writeback enabled

end Block
end DirectoryProtocol
