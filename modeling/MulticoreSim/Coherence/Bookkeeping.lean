import MulticoreSim.Coherence.FiciCpu
import MulticoreSim.Coherence.FullMode

/-! # The directory's books

The counter beside the presence bits, and what both say of the stable states,
hold of every entry in every run of either mode.
-/

namespace Coherence

open DirectoryProtocol

/-- The number of presence bits that are set. -/
def DirEntry.sharers (e : DirEntry) : Nat := (List.range kMaxSharers).countP e.presence

/-- The states a directory entry may rest in. -/
def DirState.Stable (d : DirState) : Prop :=
  d = .I ∨ d = .S ∨ d = .E ∨ d = .M ∨ d = .O ∨ d = .F

/-- The counter counts the bits, and the stable states fit them. -/
structure Booked (e : DirEntry) : Prop where
  count : e.activeSharers = e.sharers
  idle : e.state.Stable → (e.state = .I ↔ e.activeSharers = 0)
  single : e.state = .M ∨ e.state = .E → e.sharers = 1

theorem Members.sharers {n : Nat} {e : DirEntry} {s : Finset NodeId}
    (members : Members n e.presence e.activeSharers s) (small : n ≤ kMaxSharers) :
    e.sharers = s.card := by
  have same : s = ((List.range kMaxSharers).filter e.presence).toFinset := by
    ext i
    rw [List.mem_toFinset, List.mem_filter, List.mem_range, members.presence]
    exact ⟨fun mem => ⟨lt_of_lt_of_le (members.bound i mem) small, mem⟩, And.right⟩
  rw [same, List.toFinset_card_of_nodup (List.nodup_range.filter _), DirEntry.sharers,
    List.countP_eq_length_filter]

/-- A stable state is kept for a mode without a requester. -/
theorem stable_mode {P : Profile} {d : DirState} {mode : Mode NodeId} (stands : Stands P d mode)
    (stable : d.Stable) :
    mode = .idle ∧ d = .I ∨ mode = .shared ∧ d ≠ .I ∨
      (∃ h c, mode = .exclusive h c) ∧ d ≠ .I ∨ (∃ o c, mode = .owned o c) ∧ d ≠ .I := by
  cases mode with
  | idle => exact .inl ⟨rfl, stands⟩
  | shared =>
      cases stands
      exact .inr (.inl ⟨rfl, nofun⟩)
  | exclusive h c =>
      refine .inr (.inr (.inl ⟨⟨h, c, rfl⟩, ?_⟩))
      cases c <;> cases stands <;> nofun
  | owned o c =>
      refine .inr (.inr (.inr ⟨⟨o, c, rfl⟩, ?_⟩))
      cases c <;> cases stands <;> nofun
  | takeover h r | downgrade h r =>
      rcases stands with rfl | ⟨-, rfl⟩ <;> simp [DirState.Stable] at stable
  | forward o r c =>
      cases c <;> rcases stands with rfl | rfl <;> simp [DirState.Stable] at stable
  | invalidate r =>
      cases stands
      simp [DirState.Stable] at stable
  | reclaim o r c recalled =>
      cases c <;> cases stands <;> simp [DirState.Stable] at stable

/-- `M` and `E` are kept for one holder. -/
theorem single_mode {P : Profile} {d : DirState} {mode : Mode NodeId} (stands : Stands P d mode)
    (single : d = .M ∨ d = .E) : ∃ h c, mode = .exclusive h c := by
  cases mode with
  | exclusive h c => exact ⟨h, c, rfl⟩
  | idle | shared | invalidate r =>
      cases stands
      simp at single
  | owned o c | reclaim o r c recalled =>
      cases c <;> cases stands <;> simp at single
  | takeover h r | downgrade h r =>
      rcases stands with rfl | ⟨-, rfl⟩ <;> simp at single
  | forward o r c =>
      cases c <;> rcases stands with rfl | rfl <;> simp at single

/-- An entry that stands for a line is booked. -/
theorem Entry.booked {P : Profile} {marks : Prop} {n : Nat} {b : BlockId} {e : DirEntry}
    {B : Block NodeId} (entry : Entry P marks n b e B) (inv : B.Inv) (small : n ≤ kMaxSharers) :
    Booked e := by
  have sharers := entry.members.sharers small
  have count := entry.members.count
  have rights := inv.rights
  refine ⟨count.trans sharers.symm, fun stable => ?_, fun single => ?_⟩
  · have held : B.members.Nonempty → e.state ≠ .I → (e.state = .I ↔ e.activeSharers = 0) := by
      intro members other
      have pos := Finset.card_pos.mpr members
      constructor
      · exact fun idle => absurd idle other
      · omega
    rcases stable_mode entry.stands stable with
      ⟨mode, idle⟩ | ⟨mode, other⟩ | ⟨⟨h, c, mode⟩, other⟩ | ⟨⟨o, c, mode⟩, other⟩ <;>
      simp only [Block.ModeOk, mode] at rights
    · simp [idle, count, rights]
    · exact held rights.1 other
    · exact held ⟨h, by simp [rights.1]⟩ other
    · exact held ⟨o, rights.1⟩ other
  · obtain ⟨h, c, mode⟩ := single_mode entry.stands single
    simp only [Block.ModeOk, mode] at rights
    rw [sharers, rights.1, Finset.card_singleton]

/-- Every entry is booked, and so is what the directory's next step leaves of one. -/
structure System.Booked {F : ProtocolFsm} {π : CpuPort} (s : Settings) (σ : System F π) : Prop where
  entries : ∀ b, Coherence.Booked (σ.dir.directory b)
  writeback : ∀ r rest o, σ.dir.requestInProgress = false → σ.dir.requestQueue = r :: rest →
    handleWriteback (σ.dir.directory r.block) r = some o → Coherence.Booked o.entry
  handled : ∀ r rest o, σ.dir.requestInProgress = false → σ.dir.requestQueue = r :: rest →
    F.handle s (σ.dir.directory r.block) r = .ok o → Coherence.Booked o.entry

/-- A state that shows lines is booked. -/
theorem Shows.booked {F : ProtocolFsm} {π : CpuPort} {L : Laws F}
    {R : π.State → BlockId → Prop} {s : Settings} {σ : System F π}
    {lines : BlockId → Block NodeId} (shows : Shows L R s σ lines)
    (small : s.numProcs ≤ kMaxSharers) : σ.Booked s where
  entries b := (shows.abs b).entry.booked (shows.abs b).inv small
  writeback r rest o free queue written := by
    have meets := (shows.abs r.block).meets shows.net small free queue
    obtain ⟨B', refines⟩ : ∃ B', Refines L.profile L.marks s.numProcs r.block False False
        (lines r.block) r o B' := meets.handleWriteback written
    exact refines.entry.booked (refines.steps.inv (shows.abs r.block).inv) small
  handled r rest o free queue handled := by
    have meets := (shows.abs r.block).meets shows.net small free queue
    obtain ⟨B', refines⟩ := L.refines meets handled
    exact refines.entry.booked (refines.steps.inv (shows.abs r.block).inv) small

/-- The laws of each protocol. -/
def Protocol.laws : (p : Protocol) → Laws p.fsm
  | .MI => miNetwork
  | .MSI => msiNetwork
  | .MESI => mesiNetwork
  | .MOSI => mosiNetwork
  | .MOESIF => moesifNetwork

/-- Any run over any port that sends eviction notices only. -/
theorem booked_run {F : ProtocolFsm} {π : CpuPort} (L : Laws F)
    (laws : PortLaws π fun _ _ => False) {s : Settings} (small : s.numProcs ≤ kMaxSharers)
    {cpu : NodeId → π.State} {σ : System F π}
    (reached : (System.machine F π s).Reachable (System.initial F π s cpu) σ) : σ.Booked s := by
  obtain ⟨lines, shows⟩ := Shows.reached L laws small reached
  exact shows.booked small

/-- The directory's books balance in every run of either mode. -/
theorem directory_bookkeeping (s : Settings) (small : s.numProcs ≤ kMaxSharers) :
    (∀ l1 l2 σ, (System.machine s.protocol.fsm adapterPort s).Reachable
        (fullMode s.protocol.fsm s l1 l2) σ → σ.Booked s) ∧
      ∀ traces σ, (System.machine s.protocol.fsm ficiPort s).Reachable
        (coherenceMode s.protocol.fsm s traces) σ → σ.Booked s :=
  ⟨fun _ _ _ reached => booked_run s.protocol.laws adapter_laws small reached,
    fun _ _ reached => booked_run s.protocol.laws fici_laws small reached⟩

/-- Two cores with a shared last level, after the first has missed on a load. -/
theorem directory_bookkeeping_two_cores :
    ((System.machine msi adapterPort { numProcs := 2, cacheMode := .sharedLls }).attempt
        (fullMode msi { numProcs := 2, cacheMode := .sharedLls } {} {})
        [.external 0 (.issue { addr := 64 }), .tick 0, .tock 0, .tick 0, .tock 0, .dirTick,
          .dirDeliver 0, .dirTock, .dirTick]).Booked { numProcs := 2, cacheMode := .sharedLls } :=
  (directory_bookkeeping { numProcs := 2, cacheMode := .sharedLls } (by decide)).1 {} {} _
    (Machine.reachable_attempt _ _)

end Coherence
