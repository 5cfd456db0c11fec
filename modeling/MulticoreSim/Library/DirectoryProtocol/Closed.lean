import MulticoreSim.Library.DirectoryProtocol.Profile

/-! # Lines without evictions

When the nodes never give a line up on their own, the directory's members are
exactly the nodes with a copy. Then one writer excludes all others, every
message meets a node or directory that knows an answer, and every round waits
for somebody.
-/

namespace DirectoryProtocol

variable {ι : Type}

/-- The slot's part: grants match the copies the nodes hold. -/
structure Slot.Tight (P : Profile) (s : Slot) : Prop where
  notices : s.writebacks = 0
  grants : ∀ g, s.phase = .fetching g ∨ s.phase = .granted g → (g = .ack ↔ s.right ≠ .none)
  trapped : ¬ s.Trapped
  sharers : P.owners = true → s.phase = .asked .upgrade → s.right ≠ .shared

/-- Where an upgrade may still be asked for, and by whom. -/
def Mode.AllowsUpgrade : Mode ι → ι → Prop
  | .idle, _ => False
  | .exclusive h true, i => i = h
  | .owned o true, i | .forward o _ true, i => i = o
  | _, _ => True

/-- Shared lines have two members: one reader alone is made exclusive or owner. -/
def Block.Paired (P : Profile) (B : Block ι) : Prop :=
  match B.mode with
  | .owned o _ => ∃ j ∈ B.members, j ≠ o
  | .shared => P.clean = true → ∃ i ∈ B.members, ∃ j ∈ B.members, i ≠ j
  | _ => True

/-- No copy outside the member set. -/
structure Block.Closed (P : Profile) (B : Block ι) : Prop where
  slots : ∀ i, (B.slot i).Tight P
  outside : ∀ i, i ∉ B.members → (B.slot i).Gone
  upgrades : ∀ i, B.Asks i .upgrade → B.mode.AllowsUpgrade i
  paired : B.Paired P

theorem Block.Closed.initial (P : Profile) : (Block.initial ι).Closed P where
  slots i := by constructor <;> simp [Block.initial, Slot.Trapped]
  outside i _ := by simp [Block.initial, Slot.Gone, Slot.Promised]
  upgrades i asks := by simp [Block.initial, Block.Asks] at asks
  paired := trivial

/-- The event is not an eviction. -/
def Event.Keeps : Event ι → Prop
  | .evict _ => False
  | _ => True

namespace Slot

variable {P : Profile} {s : Slot}

theorem Tight.send (tight : s.Tight P) {o : Order} (owner : o = .invalidate → s.effective ≠ .owned) :
    (s.send o).Tight P where
  notices := tight.notices
  grants := tight.grants
  trapped := by
    rintro ⟨sent, owned⟩
    cases sent
    exact owner rfl owned
  sharers := tight.sharers

theorem Tight.settle (tight : s.Tight P) : s.settle.Tight P where
  notices := tight.notices
  grants := tight.grants
  trapped := fun trapped => nomatch trapped.1
  sharers := tight.sharers

theorem Tight.wait (tight : s.Tight P) (asking : s.effective = s.right) : s.wait.Tight P where
  notices := tight.notices
  grants g promised := by rcases promised with phase | phase <;> cases phase
  trapped := by
    rintro ⟨sent, owned⟩
    exact tight.trapped ⟨sent, asking.trans owned⟩
  sharers _ asked := by cases asked

theorem Tight.grant (tight : s.Tight P) {g : Grant} (idle : s.probe = .idle)
    (fits : g = .ack ↔ s.right ≠ .none) : (s.grant g).Tight P where
  notices := tight.notices
  grants g' promised := by
    rcases promised with phase | phase <;> cases phase
    exact fits
  trapped := by
    rintro ⟨sent, -⟩
    cases idle.symm.trans sent
  sharers _ asked := by cases asked

theorem Tight.fetch (tight : s.Tight P) {g : Grant} (idle : s.probe = .idle)
    (fits : g = .ack ↔ s.right ≠ .none) : (s.fetch g).Tight P where
  notices := tight.notices
  grants g' promised := by
    rcases promised with phase | phase <;> cases phase
    exact fits
  trapped := by
    rintro ⟨sent, -⟩
    cases idle.symm.trans sent
  sharers _ asked := by cases asked

theorem Tight.answer (tight : s.Tight P) (none : ¬ s.Promised) {right : Right} {reply : Reply}
    (kept : P.owners = true → s.phase = .asked .upgrade → right ≠ .shared) :
    (s.answer right reply).Tight P where
  notices := tight.notices
  grants g promised := absurd ⟨g, promised⟩ none
  trapped := fun trapped => nomatch trapped.1
  sharers := kept

end Slot

namespace Block

variable [DecidableEq ι] {P : Profile} {B : Block ι}

/-- A node's own event: its slot stays tight, and a stranger stays a stranger. -/
theorem Closed.node (closed : B.Closed P) {i : ι} {f : Slot → Slot}
    (tight : (f (B.slot i)).Tight P) (gone : (B.slot i).Gone → (f (B.slot i)).Gone)
    (asks : (f (B.slot i)).phase = .asked .upgrade → B.mode.AllowsUpgrade i) :
    (B.modify i f).Closed P := by
  refine ⟨fun j => ?_, fun j out => ?_, fun j => ?_, closed.paired⟩
  · rw [modify_slot]
    split
    · next eq => exact eq ▸ tight
    · exact closed.slots j
  · rw [modify_slot]
    split
    · next eq => exact eq ▸ gone (eq ▸ closed.outside j out)
    · exact closed.outside j out
  · rw [Asks, modify_slot]
    split
    · next eq => exact eq ▸ asks
    · exact closed.upgrades j

/-- A round begins. -/
theorem Closed.begin {X : Block ι} {i : ι} {m : Mode ι} (closed : B.Closed P)
    (same : ∀ j, (B.slot j).SameRequest (X.slot j)) (members : X.members = B.members)
    (tight : ∀ j, (X.slot j).Tight P) (asking : (B.slot i).effective = (B.slot i).right)
    (upgrades : ∀ j, B.Asks j .upgrade → m.AllowsUpgrade j)
    (paired : Paired P { B with mode := m }) :
    Closed P { X.modify i .wait with mode := m } := by
  refine ⟨fun j => ?_, fun j out => ?_, fun j asks => ?_, ?_⟩
  · simp only [modify_slot]
    split
    · next eq =>
        subst j
        apply (tight i).wait
        rw [(same i).right, ← asking]
        unfold Slot.effective
        rw [(same i).phase, (same i).want, (same i).right]
    · exact tight j
  · have gone := closed.outside j (members ▸ out)
    simp only [modify_slot]
    split
    · refine ⟨(same j).right.trans gone.1, ?_⟩
      rintro ⟨g, phase | phase⟩ <;> cases phase
    · refine ⟨(same j).right.trans gone.1, ?_⟩
      rintro ⟨g, phase⟩
      rw [(same j).phase] at phase
      exact gone.2 ⟨g, phase⟩
  · simp only [Asks, modify_slot] at asks
    split at asks
    · cases asks
    · exact upgrades j (by rwa [Asks, ← (same j).phase])
  · simpa only [Paired, modify_members, members] using paired

/-- Node `i` is answered, or its data asked for, and a round ends. -/
theorem finish_closed {X : Block ι} {i : ι} {f : Slot → Slot} {m : Mode ι} {s : Finset ι}
    (same : ∀ j, (B.slot j).SameRequest (X.slot j))
    (tight : ∀ j, (X.slot j).Tight P) (own : (f (X.slot i)).Tight P)
    (asked : (f (X.slot i)).phase ≠ .asked .upgrade) (mem : i ∈ s)
    (outside : ∀ j, j ∉ s → (B.slot j).Gone)
    (upgrades : ∀ j, B.Asks j .upgrade → j ≠ i → m.AllowsUpgrade j)
    (paired : Paired P { B with mode := m, members := s }) :
    Closed P { X.modify i f with mode := m, members := s } := by
  refine ⟨fun j => ?_, fun j out => ?_, fun j asks => ?_, paired⟩
  · simp only [modify_slot]
    split
    · next eq => exact eq ▸ own
    · exact tight j
  · have gone := outside j out
    have ne : j ≠ i := by
      rintro rfl
      exact out mem
    simp only [modify_slot, ne, if_false]
    refine ⟨(same j).right.trans gone.1, ?_⟩
    rintro ⟨g, phase⟩
    rw [(same j).phase] at phase
    exact gone.2 ⟨g, phase⟩
  · simp only [Asks, modify_slot] at asks
    split at asks
    · next eq => exact absurd (eq ▸ asks) asked
    · next ne => exact upgrades j (by rwa [Asks, ← (same j).phase]) ne

theorem same_modify {h : ι} {f : Slot → Slot} (same : ∀ s : Slot, s.SameRequest (f s)) (j : ι) :
    (B.slot j).SameRequest ((B.modify h f).slot j) := by
  rw [modify_slot]
  split
  · exact same _
  · exact .refl _

theorem same_order {s : Finset ι} {o : Order} (j : ι) :
    (B.slot j).SameRequest ((B.order s o).slot j) := by
  rw [order_slot]
  split
  · exact Slot.same_send _ _
  · exact .refl _

theorem Closed.modify_tight (closed : B.Closed P) {h : ι} {f : Slot → Slot}
    (tight : (f (B.slot h)).Tight P) (j : ι) : ((B.modify h f).slot j).Tight P := by
  rw [modify_slot]
  split
  · next eq => exact eq ▸ tight
  · exact closed.slots j

theorem Closed.tell (closed : B.Closed P) {h i : ι} {o : Order} {m : Mode ι}
    (order : o ≠ .invalidate) (asking : (B.slot i).effective = (B.slot i).right)
    (upgrades : ∀ j, B.Asks j .upgrade → m.AllowsUpgrade j)
    (paired : Paired P { B with mode := m }) : (B.tell h i o m).Closed P :=
  closed.begin (same_modify fun s => s.same_send o) rfl
    (closed.modify_tight ((closed.slots h).send fun eq => absurd eq order)) asking upgrades paired

theorem Closed.purge (closed : B.Closed P) {i : ι} {m : Mode ι} {s : Finset ι}
    (sharers : ∀ j ∈ s, (B.slot j).effective ≠ .owned)
    (asking : (B.slot i).effective = (B.slot i).right)
    (upgrades : ∀ j, B.Asks j .upgrade → m.AllowsUpgrade j)
    (paired : Paired P { B with mode := m }) : (B.purge s i m).Closed P := by
  refine closed.begin same_order rfl (fun j => ?_) asking upgrades paired
  rw [order_slot]
  split
  · next mem => exact (closed.slots j).send fun _ => sharers j mem
  · exact closed.slots j

/-- The round for node `i` ends with an answer from the directory. -/
theorem Closed.settled (closed : B.Closed P) {h i : ι} {g : Grant} {m : Mode ι} {s : Finset ι}
    (idle : i ≠ h → (B.slot i).probe = .idle) (fits : g = .ack ↔ (B.slot i).right ≠ .none)
    (mem : i ∈ s) (outside : ∀ j, j ∉ s → (B.slot j).Gone)
    (upgrades : ∀ j, B.Asks j .upgrade → j ≠ i → m.AllowsUpgrade j)
    (paired : Paired P { B with mode := m, members := s }) :
    ((B.modify h .settle).serve i g m s).Closed P := by
  have tight := closed.modify_tight (closed.slots h).settle
  refine finish_closed (same_modify Slot.same_settle) tight ((tight i).grant ?_ ?_)
    (fun asked => nomatch asked) mem outside upgrades paired
  · rw [modify_slot]
    split
    · rfl
    · next ne => exact idle ne
  · rwa [(same_modify Slot.same_settle i).right]

theorem Closed.served (closed : B.Closed P) {i : ι} {g : Grant} {m : Mode ι} {s : Finset ι}
    (idle : (B.slot i).probe = .idle) (fits : g = .ack ↔ (B.slot i).right ≠ .none)
    (mem : i ∈ s) (outside : ∀ j, j ∉ s → (B.slot j).Gone)
    (upgrades : ∀ j, B.Asks j .upgrade → j ≠ i → m.AllowsUpgrade j)
    (paired : Paired P { B with mode := m, members := s }) : (B.serve i g m s).Closed P :=
  finish_closed (fun _ => .refl _) closed.slots ((closed.slots i).grant idle fits)
    (fun asked => nomatch asked) mem outside upgrades paired

theorem Closed.fetched (closed : B.Closed P) {i : ι} {g : Grant} {m : Mode ι} {s : Finset ι}
    (idle : (B.slot i).probe = .idle) (fits : g = .ack ↔ (B.slot i).right ≠ .none)
    (mem : i ∈ s) (outside : ∀ j, j ∉ s → (B.slot j).Gone)
    (upgrades : ∀ j, B.Asks j .upgrade → j ≠ i → m.AllowsUpgrade j)
    (paired : Paired P { B with mode := m, members := s }) : (B.fetch i g m s).Closed P :=
  finish_closed (fun _ => .refl _) closed.slots ((closed.slots i).fetch idle fits)
    (fun asked => nomatch asked) mem outside upgrades paired

/-! ## The directory's events -/

section

variable (inv : B.Inv) (closed : B.Closed P)
include inv closed

theorem Closed.grantExclusive {i : ι} (enabled : B.Enabled (.grantExclusive i)) :
    (B.after (.grantExclusive i)).Closed P := by
  obtain ⟨-, mode, -⟩ := enabled
  have empty := inv.rights
  simp only [ModeOk, mode] at empty
  have gone : ∀ j, (B.slot j).Gone := fun j => closed.outside j (by simp [empty])
  exact closed.fetched (idle_of_idle inv mode i) (by simp [(gone i).1])
    (Finset.mem_singleton_self i) (fun j _ => gone j) (fun _ _ _ => trivial) trivial

theorem Closed.grantShared {i : ι} (enabled : B.Enabled (.grantShared i))
    (unclean : P.clean = false) : (B.after (.grantShared i)).Closed P := by
  obtain ⟨-, mode, -⟩ := enabled
  have empty := inv.rights
  simp only [ModeOk, mode] at empty
  have gone : ∀ j, (B.slot j).Gone := fun j => closed.outside j (by simp [empty])
  exact closed.fetched (idle_of_idle inv mode i) (by simp [(gone i).1])
    (Finset.mem_singleton_self i) (fun j _ => gone j) (fun _ _ _ => trivial)
    fun clean => by simp [unclean] at clean

theorem Closed.grantClean {i : ι} (enabled : B.Enabled (.grantClean i)) :
    (B.after (.grantClean i)).Closed P := by
  obtain ⟨-, mode, -⟩ := enabled
  have empty := inv.rights
  simp only [ModeOk, mode] at empty
  have gone : ∀ j, (B.slot j).Gone := fun j => closed.outside j (by simp [empty])
  refine closed.fetched (idle_of_idle inv mode i) (by simp [(gone i).1])
    (Finset.mem_singleton_self i) (fun j _ => gone j) (fun j asks _ => ?_) trivial
  -- Nobody upgrades a line nobody holds.
  have := closed.upgrades j asks
  rw [mode] at this
  exact this.elim

theorem Closed.join {i : ι} (enabled : B.Enabled (.join i)) : (B.after (.join i)).Closed P := by
  obtain ⟨-, mode, asks⟩ := enabled
  have none : (B.slot i).right = .none := (inv.slots i).reads (inv.wants_of_asks asks)
  have paired := closed.paired
  simp only [Paired, mode] at paired
  refine closed.fetched (idle_of_shared inv mode i) (by simp [none]) (Finset.mem_insert_self i _)
    (fun j out => closed.outside j fun mem => out (Finset.mem_insert_of_mem mem))
    (fun _ _ _ => trivial) fun clean => ?_
  obtain ⟨j, memj, k, memk, ne⟩ := paired clean
  exact ⟨j, Finset.mem_insert_of_mem memj, k, Finset.mem_insert_of_mem memk, ne⟩

theorem Closed.upgrade {i : ι} (enabled : B.Enabled (.upgrade i)) :
    (B.after (.upgrade i)).Closed P := by
  obtain ⟨-, mode, asks, sub⟩ := enabled
  have rights := inv.rights
  simp only [ModeOk, mode] at rights
  obtain ⟨⟨j, memj⟩, sharers⟩ := rights
  have mem : i ∈ B.members := Finset.mem_singleton.mp (sub memj) ▸ memj
  have shared : (B.slot i).right = .shared := by
    rw [← effective_of_asksWrite asks]
    exact (sharers i mem).2
  exact closed.served (idle_of_shared inv mode i) (by simp [shared]) (Finset.mem_singleton_self i)
    (fun j out => closed.outside j fun mem => out (sub mem)) (fun _ _ _ => trivial) trivial

theorem Closed.promote {h i : ι} (enabled : B.Enabled (.promote h i)) :
    (B.after (.promote h i)).Closed P := by
  obtain ⟨-, mode, asks⟩ := enabled
  have rights := inv.rights
  simp only [ModeOk, mode] at rights
  have self := closed.upgrades i asks
  rw [mode] at self
  cases (show i = h from self)
  have exclusive : (B.slot h).right = .exclusive := by
    rw [← effective_of_asks asks]
    exact rights.2.2
  exact closed.served rights.2.1 (by simp [exclusive]) (by simp [rights.1]) closed.outside
    (fun _ _ _ => trivial) trivial

omit inv in
theorem Closed.takeover {h i : ι} {c : Bool} (enabled : B.Enabled (.takeover h i c)) :
    (B.after (.takeover h i c)).Closed P := by
  obtain ⟨-, -, asks⟩ := enabled
  exact closed.tell (by simp) (effective_of_asksWrite asks) (fun _ _ => trivial) trivial

omit inv in
theorem Closed.downgrade {h i : ι} {c : Bool} (enabled : B.Enabled (.downgrade h i c)) :
    (B.after (.downgrade h i c)).Closed P := by
  obtain ⟨-, -, asks⟩ := enabled
  exact closed.tell (by simp) (effective_of_asks asks) (fun _ _ => trivial) trivial

omit inv in
theorem Closed.forward {o i : ι} {c k : Bool} (enabled : B.Enabled (.forward o i c k)) :
    (B.after (.forward o i c k)).Closed P := by
  obtain ⟨-, mode, asks⟩ := enabled
  refine closed.tell (by simp) (effective_of_asks asks) (fun j asks => ?_) trivial
  have allowed := closed.upgrades j asks
  cases c with
  | false => trivial
  | true => rcases mode with mode | mode <;> rw [mode] at allowed <;> exact allowed

theorem Closed.invalidate {i : ι} (enabled : B.Enabled (.invalidate i)) :
    (B.after (.invalidate i)).Closed P := by
  obtain ⟨-, mode, asks⟩ := enabled
  have rights := inv.rights
  simp only [ModeOk, mode] at rights
  refine closed.purge (fun j mem => ?_) (effective_of_asksWrite asks) (fun _ _ => trivial) trivial
  simp [(rights.2 j (Finset.mem_of_mem_erase mem)).2]

theorem Closed.reclaim {o i : ι} {c all : Bool} (enabled : B.Enabled (.reclaim o i c all)) :
    (B.after (.reclaim o i c all)).Closed P := by
  obtain ⟨-, mode, asks, whole⟩ := enabled
  have rights := inv.rights
  simp only [ModeOk, mode] at rights
  refine closed.purge (fun j mem => ?_) (effective_of_asksWrite asks) (fun _ _ => trivial) trivial
  obtain ⟨nei, mem⟩ := Finset.mem_erase.mp mem
  have ne : j ≠ o := by
    rintro rfl
    cases all with
    | false => simp at mem
    | true =>
        -- Only the owner asks for an upgrade here.
        obtain ⟨rfl, upgrade⟩ := whole rfl
        have self := closed.upgrades i upgrade
        rw [mode] at self
        exact nei self.symm
  have mem : j ∈ B.members := by
    cases all with
    | false => exact Finset.mem_of_mem_erase mem
    | true => exact mem
  simp [(rights.2.2 j mem ne).2]

theorem Closed.takenOver {h i : ι} (enabled : B.Enabled (.takenOver h i)) :
    (B.after (.takenOver h i)).Closed P := by
  obtain ⟨-, mode, answered⟩ := enabled
  have rights := inv.rights
  simp only [ModeOk, mode] at rights
  obtain ⟨members, yielding⟩ := rights
  have left : (B.slot h).Gone := by
    rcases yielding with ⟨sent, -⟩ | ⟨-, gone⟩
    · simp [sent] at answered
    · exact gone
  have gone : ∀ j, (B.slot j).Gone := by
    intro j
    by_cases eq : j = h
    · exact eq ▸ left
    · exact closed.outside j (by simpa [members] using eq)
  exact closed.settled (fun ne => inv.outsiders i (by simpa [members] using ne))
    (by simp [(gone i).1]) (Finset.mem_singleton_self i) (fun j _ => gone j) (fun _ _ _ => trivial)
    trivial

theorem Closed.downgraded {h i : ι} (enabled : B.Enabled (.downgraded h i)) :
    (B.after (.downgraded h i)).Closed P := by
  obtain ⟨-, mode, answered⟩ := enabled
  have rights := inv.rights
  simp only [ModeOk, mode] at rights
  obtain ⟨members, sharing⟩ := rights
  have requester : B.mode.requester = some i := by rw [mode]; rfl
  have want := inv.serves i requester
  rw [mode] at want
  have none : (B.slot i).right = .none := (inv.slots i).reads want
  have ne : h ≠ i := by
    rintro rfl
    rcases sharing with ⟨sent, -⟩ | ⟨-, right, -⟩
    · simp [sent] at answered
    · simp [none] at right
  refine closed.settled (fun ne => inv.outsiders i (by simpa [members] using ne)) (by simp [none])
    (Finset.mem_insert_self i _)
    (fun j out => closed.outside j fun mem => out (Finset.mem_insert_of_mem mem))
    (fun _ _ _ => trivial) fun _ => ?_
  exact ⟨h, Finset.mem_insert_of_mem (by simp [members]), i, Finset.mem_insert_self i _, ne⟩

theorem Closed.forwarded {o i : ι} {c : Bool} (enabled : B.Enabled (.forwarded o i c)) :
    (B.after (.forwarded o i c)).Closed P := by
  obtain ⟨-, mode, answered⟩ := enabled
  have rights := inv.rights
  simp only [ModeOk, mode] at rights
  obtain ⟨mem, serving, -, sharers⟩ := rights
  have requester : B.mode.requester = some i := by rw [mode]; rfl
  have want := inv.serves i requester
  rw [mode] at want
  have none : (B.slot i).right = .none := (inv.slots i).reads want
  have ne : i ≠ o := by
    rintro rfl
    rcases serving with ⟨⟨k, sent⟩, -⟩ | ⟨-, right, -⟩
    · simp [sent] at answered
    · simp [none] at right
  have idle : (B.slot i).probe = .idle := by
    by_cases memi : i ∈ B.members
    · exact (sharers i memi ne).1
    · exact inv.outsiders i memi
  refine closed.settled (fun _ => idle) (by simp [none]) (Finset.mem_insert_self i _)
    (fun j out => closed.outside j fun mem => out (Finset.mem_insert_of_mem mem))
    (fun j asks _ => ?_) ⟨i, Finset.mem_insert_self i _, ne⟩
  have allowed := closed.upgrades j asks
  rw [mode] at allowed
  cases c <;> exact allowed

theorem Closed.reclaimed {o r : ι} {c : Bool} (enabled : B.Enabled (.reclaimed o r c)) :
    (B.after (.reclaimed o r c)).Closed P := by
  obtain ⟨-, mode, answered⟩ := enabled
  have rights := inv.rights
  simp only [ModeOk, mode] at rights
  obtain ⟨-, yielding, sharers⟩ := rights
  have left : (B.slot o).Gone := by
    rcases yielding with ⟨sent, -⟩ | ⟨-, gone⟩
    · simp [sent] at answered
    · exact gone
  have requester : B.mode.requester = some r := by rw [mode]; rfl
  have outside : ∀ j, j ∉ B.members.erase o → (B.slot j).Gone := by
    intro j out
    by_cases eq : j = o
    · exact eq ▸ left
    · exact closed.outside j fun mem => out (Finset.mem_erase.mpr ⟨eq, mem⟩)
  have idle : r ≠ o → (B.slot r).probe = .idle := by
    intro ne
    by_cases mem : r ∈ B.members
    · exact (sharers r mem ne).2.1
    · exact inv.outsiders r mem
  simp only [after]
  split
  · next mem =>
      obtain ⟨ne, memr⟩ := Finset.mem_erase.mp mem
      have shared : (B.slot r).right = .shared := by
        rw [← Slot.effective_of_waiting ((inv.waiting r).mpr requester)]
        exact (sharers r memr ne).2.2
      exact closed.settled idle (by simp [shared]) mem outside (fun _ _ _ => trivial) trivial
  · next out =>
      exact closed.settled idle (by simp [(outside r out).1]) (Finset.mem_insert_self r _)
        (fun j out => outside j fun mem => out (Finset.mem_insert_of_mem mem))
        (fun _ _ _ => trivial) trivial

theorem Closed.collected {r : ι} (enabled : B.Enabled (.collected r)) :
    (B.after (.collected r)).Closed P := by
  obtain ⟨-, mode, -⟩ := enabled
  have rights := inv.rights
  simp only [ModeOk, mode] at rights
  have requester : B.mode.requester = some r := by rw [mode]; rfl
  simp only [after]
  split
  · next mem =>
      have holds := (rights r mem).1 rfl
      have shared : (B.slot r).right = .shared := by
        rw [← Slot.effective_of_waiting ((inv.waiting r).mpr requester)]
        exact holds.2
      exact closed.served holds.1 (by simp [shared]) mem closed.outside (fun _ _ _ => trivial)
        trivial
  · next out =>
      exact closed.fetched (inv.outsiders r out) (by simp [(closed.outside r out).1])
        (Finset.mem_insert_self r _)
        (fun j out => closed.outside j fun mem => out (Finset.mem_insert_of_mem mem))
        (fun _ _ _ => trivial) trivial

theorem Closed.upgradeOwner {o : ι} {c : Bool} (enabled : B.Enabled (.upgradeOwner o c)) :
    (B.after (.upgradeOwner o c)).Closed P := by
  obtain ⟨-, mode, -, -⟩ := enabled
  have rights := inv.rights
  simp only [ModeOk, mode] at rights
  obtain ⟨mem, owner, -⟩ := rights
  have requester : B.mode.requester = some o := by rw [mode]; rfl
  have holds : (B.slot o).Holds .owned := owner.resolve_right fun trapped => trapped.1 rfl
  have owned : (B.slot o).right = .owned := by
    rw [← Slot.effective_of_waiting ((inv.waiting o).mpr requester)]
    exact holds.2
  exact closed.served holds.1 (by simp [owned]) mem closed.outside (fun _ _ _ => trivial) trivial

omit inv in
theorem Closed.recallOwner {o r : ι} {c : Bool} (enabled : B.Enabled (.recallOwner o r c)) :
    (B.after (.recallOwner o r c)).Closed P := by
  obtain ⟨-, mode, -⟩ := enabled
  have told := closed.node (i := o) (f := .send .giveBack)
    ((closed.slots o).send (by simp)) id (closed.upgrades o)
  exact ⟨told.slots, told.outside, fun _ _ => by cases c <;> trivial, trivial⟩

omit inv in
/-- An invalidated sharer is dropped from the members. -/
theorem Closed.collecting {i : ι} (left : (B.slot i).Gone)
    (paired : Paired P { B with members := B.members.erase i }) :
    Closed P { B.modify i .settle with members := B.members.erase i } := by
  have settled := closed.node (i := i) (f := .settle) (closed.slots i).settle id (closed.upgrades i)
  refine ⟨settled.slots, fun j out => ?_, settled.upgrades, paired⟩
  by_cases eq : j = i
  · subst j
    rw [modify_slot_self]
    exact left
  · exact settled.outside j fun mem => out (Finset.mem_erase.mpr ⟨eq, mem⟩)

theorem Closed.collect {r i : ι} (enabled : B.Enabled (.collect r i)) :
    (B.after (.collect r i)).Closed P := by
  obtain ⟨-, mode, answered⟩ := enabled
  have rights := inv.rights
  simp only [ModeOk, mode] at rights
  apply closed.collecting
  · by_cases mem : i ∈ B.members
    · have ne : i ≠ r := by
        rintro rfl
        simp [((rights i mem).1 rfl).1] at answered
      rcases (rights i mem).2 ne with ⟨sent, -⟩ | ⟨-, gone⟩
      · simp [sent] at answered
      · exact gone
    · exact closed.outside i mem
  · simp [Paired, mode]

theorem Closed.collectOwned {o r i : ι} {c : Bool} (enabled : B.Enabled (.collectOwned o r i c)) :
    (B.after (.collectOwned o r i c)).Closed P := by
  obtain ⟨-, mode, answered⟩ := enabled
  have rights := inv.rights
  simp only [ModeOk, mode] at rights
  obtain ⟨-, owner, sharers⟩ := rights
  apply closed.collecting
  · by_cases mem : i ∈ B.members
    · have neo : i ≠ o := by
        rintro rfl
        rcases owner with holds | ⟨-, sent, -⟩
        · simp [holds.1] at answered
        · simp [sent] at answered
      have ner : i ≠ r := by
        rintro rfl
        simp [((sharers i mem neo).1 rfl).1] at answered
      rcases (sharers i mem neo).2 ner with ⟨sent, -⟩ | ⟨-, gone⟩
      · simp [sent] at answered
      · exact gone
    · exact closed.outside i mem
  · simp [Paired, mode]

/-! ## All events -/

/-- Only a node the mode names may ask for an upgrade. -/
theorem Closed.allows {i : ι} (rest : (B.slot i).phase = .rest)
    (exclusive : (B.slot i).right = .exclusive) : B.mode.AllowsUpgrade i := by
  have mem : i ∈ B.members := by
    by_contra out
    simp [(closed.outside i out).1] at exclusive
  have eff : (B.slot i).effective = .exclusive := by
    rw [Slot.effective, rest]
    exact exclusive
  have rights := inv.rights
  cases mode : B.mode with
  | idle =>
      simp only [ModeOk, mode] at rights
      simp [rights] at mem
  | exclusive h c =>
      simp only [ModeOk, mode] at rights
      rw [rights.1, Finset.mem_singleton] at mem
      cases c with
      | false => trivial
      | true => exact mem
  | owned o c =>
      simp only [ModeOk, mode] at rights
      cases c with
      | false => trivial
      | true =>
          by_contra ne
          cases eff.symm.trans (rights.2.2 i mem ne).2
  | forward o r c =>
      simp only [ModeOk, mode] at rights
      cases c with
      | false => trivial
      | true =>
          by_contra ne
          cases eff.symm.trans (rights.2.2.2 i mem ne).2
  | _ => trivial

/-- Without evictions every event keeps the line closed. -/
theorem Closed.after (within : P.Within B) {e : Event ι} (enabled : B.Enabled e)
    (chosen : P.Event e) (keeps : e.Keeps) : (B.after e).Closed P := by
  cases e with
  | ask i r =>
      obtain ⟨rest, -, upgrade⟩ := enabled
      have old := closed.slots i
      refine closed.node ⟨old.notices, ?_, ?_, ?_⟩ ?_ ?_
      · rintro g (phase | phase) <;> cases phase
      · rintro ⟨sent, owned⟩
        refine old.trapped ⟨sent, ?_⟩
        rw [Slot.effective, rest]
        exact owned
      · rintro - asked
        cases asked
        simp [Slot.ask, upgrade rfl]
      · rintro ⟨none, -⟩
        refine ⟨none, ?_⟩
        rintro ⟨g, phase | phase⟩ <;> cases phase
      · intro asked
        cases asked
        exact closed.allows inv rest (upgrade rfl)
  | accept i =>
      obtain ⟨g, granted⟩ := enabled
      have old := closed.slots i
      refine closed.node ⟨old.notices, ?_, ?_, ?_⟩ ?_ ?_
      · rintro g (phase | phase) <;> cases phase
      · exact old.trapped
      · rintro - asked
        cases asked
      · rintro ⟨-, gone⟩
        exact absurd ⟨g, .inr granted⟩ gone
      · intro asked
        cases asked
  | drop i =>
      obtain ⟨sent, right, head⟩ := enabled
      have none := Slot.not_promised (inv.slots i) sent head
      exact closed.node ((closed.slots i).answer none (by simp)) (fun gone => ⟨rfl, gone.2⟩)
        (closed.upgrades i)
  | surrender i =>
      obtain ⟨sent, right, head⟩ := enabled
      have none := Slot.not_promised (inv.slots i) sent head
      exact closed.node ((closed.slots i).answer none (by simp)) (fun gone => ⟨rfl, gone.2⟩)
        (closed.upgrades i)
  | share i =>
      obtain ⟨sent, right, head⟩ := enabled
      have none := Slot.not_promised (inv.slots i) sent head
      have unowned := ((within.slot i).sent _ sent).2
      refine closed.node ((closed.slots i).answer none (by simp [unowned])) (fun gone => ?_)
        (closed.upgrades i)
      cases right.symm.trans gone.1
  | own i keep =>
      obtain ⟨sent, right, head⟩ := enabled
      have none := Slot.not_promised (inv.slots i) sent head
      refine closed.node ((closed.slots i).answer none (by simp)) (fun gone => ?_)
        (closed.upgrades i)
      rw [gone.1] at right
      simp at right
  | evict i => exact keeps.elim
  | lose i | refill i =>
      have old := closed.slots i
      exact closed.node ⟨old.notices, old.grants, old.trapped, old.sharers⟩ id (closed.upgrades i)
  | respond i g =>
      have old := closed.slots i
      refine closed.node ⟨old.notices, ?_, ?_, ?_⟩ ?_ ?_
      · rintro g' (phase | phase) <;> cases phase
        exact old.grants g (.inl enabled)
      · rintro ⟨sent, -⟩
        cases ((inv.slots i).fetching g enabled).symm.trans sent
      · rintro - asked
        cases asked
      · rintro ⟨-, gone⟩
        exact absurd ⟨g, .inl enabled⟩ gone
      · intro asked
        cases asked
  | grantExclusive i => exact closed.grantExclusive inv enabled
  | grantShared i => exact closed.grantShared inv enabled chosen.2
  | grantClean i => exact closed.grantClean inv enabled
  | join i => exact closed.join inv enabled
  | promote h i => exact closed.promote inv enabled
  | takeover h i c => exact closed.takeover enabled
  | downgrade h i c => exact closed.downgrade enabled
  | forward o i c k => exact closed.forward enabled
  | takenOver h i => exact closed.takenOver inv enabled
  | downgraded h i => exact closed.downgraded inv enabled
  | forwarded o i c => exact closed.forwarded inv enabled
  | upgrade i => exact closed.upgrade inv enabled
  | invalidate i => exact closed.invalidate inv enabled
  | collect r i => exact closed.collect inv enabled
  | collected r => exact closed.collected inv enabled
  | reclaim o i c all => exact closed.reclaim inv enabled
  | collectOwned o r i c => exact closed.collectOwned inv enabled
  | upgradeOwner o c => exact closed.upgradeOwner inv enabled
  | recallOwner o r c => exact closed.recallOwner enabled
  | reclaimed o r c => exact closed.reclaimed inv enabled
  | writeback i =>
      obtain ⟨-, -, notice⟩ := enabled
      simp [(closed.slots i).notices] at notice

end

end Block

end DirectoryProtocol
