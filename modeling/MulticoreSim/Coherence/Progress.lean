import MulticoreSim.Coherence.Closure

/-! # What a round waits for

While a directory entry is in a transient state, somebody owes the directory an
answer: it is on its way, or the order that will bring it is.
-/

namespace Coherence

open DirectoryProtocol

variable {F : ProtocolFsm} {π : CpuPort} {L : Laws F} {R : π.State → BlockId → Prop} {s : Settings}
  {σ : System F π} {b : BlockId} {B : Block NodeId} {i : NodeId}

/-- The messages that let an entry's round go on. -/
def DirEntry.Consumes (e : DirEntry) (k : MessageKind) : Prop :=
  match e.state with
  | .SM => k = .invack ∧ 1 ≤ e.invAckWaiting
  | .OM | .FM => k = .invack ∧ 1 ≤ e.invAckWaiting ∨ k = .data
  | .MM | .MS | .MO | .OO | .ES | .EM | .EF | .FF => k = .data
  | _ => False

/-- The answer an order brings. -/
def orderReply : MessageKind → Option MessageKind
  | .reqInvalid => some .invack
  | .recallGotoI | .recallGotoS => some .data
  | _ => none

/-- A message the entry's round can go on with is on its way to the directory, or an order
    that brings one is on its way to its node. -/
def System.Feeds (s : Settings) (σ : System F π) (b : BlockId) : Prop :=
  ∃ i < s.numProcs,
    (∃ m ∈ σ.carried s i, m.block = b ∧ (σ.dir.directory b).Consumes m.kind) ∨
      ∃ m ∈ σ.arriving s i, m.block = b ∧
        ∃ k, orderReply m.kind = some k ∧ (σ.dir.directory b).Consumes k

/-- An answer the slot accounts for is on its way. -/
theorem Abs.answering (abs : Abs L R s σ b B) (bound : i < s.numProcs) {reply : Reply}
    (answered : (B.slot i).probe = .answered reply) :
    ∃ m ∈ σ.carried s i, m.block = b ∧ m.kind = replyKind reply := by
  refine about_pos.mp ?_
  rw [abs.upward i bound, up, answered]
  simp only [upReply, one_self]
  omega

/-- An order the slot accounts for is on its way. -/
theorem Abs.ordered (abs : Abs L R s σ b B) (bound : i < s.numProcs) {o : Order}
    (sent : (B.slot i).probe = .sent o) :
    ∃ m ∈ σ.arriving s i, m.block = b ∧ m.kind = (orderMessage o).1 := by
  have here : orderMessage o ∈ orders b (σ.arriving s i) := by
    rw [abs.downward i bound, down, sent]
    exact List.mem_append_right _ (List.mem_singleton_self _)
  obtain ⟨m, mem, eq⟩ := List.mem_map.mp here
  obtain ⟨mem, about⟩ := List.mem_filter.mp mem
  exact ⟨m, mem, by simpa using about, congrArg Prod.fst eq⟩

/-- Where one member owes what the entry's round goes on with, the round is fed. -/
theorem Abs.feeds_of (abs : Abs L R s σ b B) (mem : i ∈ B.members) (reply : Reply)
    (consumes : (σ.dir.directory b).Consumes (replyKind reply))
    (owes : (B.slot i).probe = .answered reply ∨
      ∃ o, (B.slot i).probe = .sent o ∧ orderReply (orderMessage o).1 = some (replyKind reply)) :
    σ.Feeds s b := by
  have bound := abs.entry.members.bound i mem
  refine ⟨i, bound, ?_⟩
  rcases owes with answered | ⟨o, sent, brings⟩
  · obtain ⟨m, here, about, kind⟩ := abs.answering bound answered
    exact .inl ⟨m, here, about, kind ▸ consumes⟩
  · obtain ⟨m, here, about, kind⟩ := abs.ordered bound sent
    exact .inr ⟨m, here, about, _, kind ▸ brings, consumes⟩

/-- An entry in a transient state works for somebody. -/
theorem transient_mode {P : Profile} {d : DirState} {mode : Mode NodeId} (stands : Stands P d mode) :
    ¬ d.Stable ↔ mode.requester ≠ none := by
  cases mode with
  | idle | shared | invalidate r =>
      cases stands
      simp [DirState.Stable, Mode.requester]
  | exclusive h c | owned o c | reclaim o r c recalled =>
      cases c <;> cases stands <;> simp [DirState.Stable, Mode.requester]
  | takeover h r | downgrade h r =>
      rcases stands with rfl | ⟨-, rfl⟩ <;> simp [DirState.Stable, Mode.requester]
  | forward o r c =>
      cases c <;> rcases stands with rfl | rfl <;> simp [DirState.Stable, Mode.requester]

/-- A collecting entry has somebody to wait for. -/
theorem Abs.collects (abs : Abs L R s σ b B) (live : B.Live) (collecting : B.Collecting) :
    1 ≤ (σ.dir.directory b).invAckWaiting := by
  have pos := Finset.card_pos.mpr (live.awaiting collecting)
  rw [abs.entry.awaiting collecting]
  exact_mod_cast pos

/-- A member on its way out feeds a collecting entry. -/
theorem Abs.feeds_leaving (abs : Abs L R s σ b B) (live : B.Live) (collecting : B.Collecting)
    (consumes : 1 ≤ (σ.dir.directory b).invAckWaiting → (σ.dir.directory b).Consumes .invack) :
    σ.Feeds s b := by
  obtain ⟨i, mem, leaving⟩ := live collecting
  refine abs.feeds_of mem .ack (consumes (abs.collects live collecting)) ?_
  rcases leaving with ⟨sent, -⟩ | ⟨answered, -⟩
  · exact .inr ⟨_, sent, rfl⟩
  · exact .inl answered

theorem Abs.feeds_yielding {right : Right} (abs : Abs L R s σ b B) (mem : i ∈ B.members)
    (consumes : (σ.dir.directory b).Consumes .data) (yielding : (B.slot i).Yielding right) :
    σ.Feeds s b := by
  refine abs.feeds_of mem .data consumes ?_
  rcases yielding with ⟨sent, -⟩ | ⟨answered, -⟩
  · exact .inr ⟨_, sent, rfl⟩
  · exact .inl answered

/-- No round waits for nobody. -/
theorem Abs.feeds (abs : Abs L R s σ b B) (live : B.Live)
    (transient : ¬ (σ.dir.directory b).state.Stable) : σ.Feeds s b := by
  have stands := abs.entry.stands
  have requester := (transient_mode stands).mp transient
  have rights := abs.inv.rights
  cases mode : B.mode with
  | idle | shared | exclusive h c | owned o c => exact absurd (by rw [mode]; rfl) requester
  | takeover h r =>
      simp only [mode, Stands] at stands
      simp only [Block.ModeOk, mode] at rights
      have mem : h ∈ B.members := by rw [rights.1]; exact Finset.mem_singleton_self h
      refine abs.feeds_yielding mem ?_ rights.2
      rcases stands with state | ⟨-, state⟩ <;> simp [DirEntry.Consumes, state]
  | downgrade h r =>
      simp only [mode, Stands] at stands
      simp only [Block.ModeOk, mode] at rights
      have mem : h ∈ B.members := by rw [rights.1]; exact Finset.mem_singleton_self h
      refine abs.feeds_of mem .data ?_ ?_
      · rcases stands with state | ⟨-, state⟩ <;> simp [DirEntry.Consumes, state, replyKind]
      · rcases rights.2 with ⟨sent, -⟩ | ⟨answered, -⟩
        · exact .inr ⟨_, sent, rfl⟩
        · exact .inl answered
  | forward o r c =>
      simp only [mode, Stands] at stands
      simp only [Block.ModeOk, mode] at rights
      refine abs.feeds_of rights.1 .data ?_ ?_
      · cases c <;> rcases stands with state | state <;>
          simp [DirEntry.Consumes, state, replyKind]
      · rcases rights.2.1 with ⟨⟨keep, sent⟩, -⟩ | ⟨answered, -⟩
        · exact .inr ⟨_, sent, rfl⟩
        · exact .inl answered
  | invalidate r =>
      simp only [mode, Stands] at stands
      exact abs.feeds_leaving live (.inl ⟨r, mode⟩) fun waits => by
        simp [DirEntry.Consumes, stands, waits]
  | reclaim o r c recalled =>
      simp only [mode, Stands] at stands
      cases recalled with
      | false =>
          refine abs.feeds_leaving live (.inr ⟨o, r, c, mode⟩) fun waits => ?_
          cases c <;> simp [DirEntry.Consumes, stands, waits]
      | true =>
          simp only [Block.ModeOk, mode] at rights
          refine abs.feeds_yielding rights.1 ?_ rights.2.1
          cases c <;> simp [DirEntry.Consumes, stands]

/-! ## Orders find their answers -/

/-- Every order a node takes in next brings its answer. -/
def System.OrdersAnswered (s : Settings) (σ : System F π) : Prop :=
  ∀ i < s.numProcs, ∀ n st st',
    ((σ.cpus i).portStep ((σ.cpus i).called s i)).tickProc s i st = .ok (n, st') →
      ∀ m, n.ntwkIn = some m → ∀ k, orderReply m.kind = some k →
        ∃ a, F.processNtwkRequest (n.agents m.block) m.kind = .ok a ∧ a.toDir = some k

/-- An order finds an agent that answers it as orders of its kind are answered. -/
theorem Abs.brings {m : Message} {k : MessageKind} (abs : Abs L R s σ m.block B)
    (bound : i < s.numProcs) (untrapped : B.Untrapped) (arrived : (σ.cpus i).ntwkIn = some m)
    (brings : orderReply m.kind = some k) :
    ∃ a, F.processNtwkRequest ((σ.cpus i).agents m.block) m.kind = .ok a ∧ a.toDir = some k := by
  obtain ⟨l, head⟩ := abs.head bound arrived
  rcases down_cons head with ⟨g, -, kind, -⟩ | ⟨free, o, sent, ordered, -⟩
  · have kind : m.kind = grantKind g := kind
    rw [kind] at brings
    cases g <;> cases brings
  · have kind : m.kind = (orderMessage o).1 := congrArg Prod.fst ordered
    obtain ⟨a, answer⟩ := abs.takes_order sent free kind (untrapped.not_trapped abs.inv i)
    have spec := L.ntwk _ _ _ answer
    rw [abs.view i, kind] at spec
    obtain ⟨-, e, right, reply, toDir, -, answers⟩ := abs.answers sent free spec
    refine ⟨a, answer, toDir.trans ?_⟩
    rw [kind] at brings
    have owing := answers.owing
    cases o <;> cases brings <;> cases reply <;> simp_all [replyKind]

theorem Shows.ordersAnswered {lines : BlockId → Block NodeId} (shows : Shows L R s σ lines)
    (laws : PortLaws π R) (tidy : ∀ i, Tidy R s σ (.tick i))
    (untrapped : ∀ b, (lines b).Untrapped) : σ.OrdersAnswered s := by
  intro i bound n st st' answered m arrived k brings
  have line := shows.abs m.block
  obtain ⟨B', abs, steps⟩ := line.procHalf laws bound (tidy i).1 answered
  have kept := steps.keep (I := fun X => X.Inv ∧ X.Untrapped) ⟨line.inv, untrapped m.block⟩ ?_
  · have answer := abs.brings (m := m) bound kept.2 (by rwa [setCpu_cpus_self]) brings
    rwa [setCpu_cpus_self] at answer
  · rintro X e ⟨inv, untrapped⟩ ⟨-, slot⟩ enabled
    refine ⟨inv.after enabled, untrapped.after inv enabled ?_⟩
    rintro o i c rfl
    exact absurd rfl slot

/-! ## Rounds begin with somebody to wait for -/

/-- While the directory works for nobody no order or answer is out. -/
theorem idle_of_stable (inv : B.Inv) (stable : B.mode.requester = none) (i : NodeId) :
    (B.slot i).probe = .idle := by
  by_contra busy
  cases (inv.disturbed busy).2 <;> simp_all [Mode.requester]

/-- An order that appears in a slot is among the messages sent. -/
theorem sends_of_moves {o : Outcome} {slot slot' : Slot} {taken : List MessageKind}
    {fetch : Option Grant} (moves : Moves slot slot' taken (addressed i o.sent) fetch)
    (idle : slot.probe = .idle) {order : Order} (sent : slot'.probe = .sent order) :
    ∃ x ∈ o.sends, x.kind = (orderMessage order).1 := by
  have here : orderMessage order ∈ down slot' := by
    rw [down, sent]
    exact List.mem_append_right _ (List.mem_singleton_self _)
  rw [moves.downward, down, idle] at here
  rcases List.mem_append.mp here with old | new
  · exfalso
    cases phase : slot.phase <;> simp [phase, downGrant, downOrder] at old
    exact grantKind_ne_order _ order (congrArg Prod.fst old).symm
  · obtain ⟨x, listed, eq⟩ := List.mem_filterMap.mp new
    obtain ⟨send, mem, rfl⟩ := List.mem_map.mp listed
    refine ⟨send, mem, ?_⟩
    split at eq
    · exact congrArg Prod.fst (Option.some.inj eq)
    · cases eq

/-- `SM`, `OM` and `FM` are kept while sharers are invalidated. -/
theorem collecting_mode {P : Profile} {d : DirState} {mode : Mode NodeId} (stands : Stands P d mode)
    (collects : d ∈ [DirState.SM, .OM, .FM]) :
    (∃ r, mode = .invalidate r) ∨ ∃ o r c recalled, mode = .reclaim o r c recalled := by
  cases mode with
  | invalidate r => exact .inl ⟨r, rfl⟩
  | reclaim o r c recalled => exact .inr ⟨o, r, c, recalled, rfl⟩
  | idle | shared =>
      cases stands
      simp at collects
  | exclusive h c | owned h c => cases c <;> cases stands <;> simp at collects
  | takeover h r | downgrade h r => rcases stands with rfl | ⟨-, rfl⟩ <;> simp at collects
  | forward h r c => cases c <;> rcases stands with rfl | rfl <;> simp at collects

/-- The entry collects answers, or has just been left with its owner to recall. -/
theorem Refines.begins {P : Profile} {marks starved wild : Prop} {n : Nat} {r : Message}
    {o : Outcome} {B' : Block NodeId} (refines : Refines P marks n b starved wild B r o B')
    (inv : B.Inv) (live : B.Live) (fed : ¬ starved) (stable : B.mode.requester = none)
    (collects : o.entry.state ∈ [DirState.SM, .OM, .FM]) :
    1 ≤ o.entry.invAckWaiting ∨ ∃ x ∈ o.sends, x.kind = .recallGotoI := by
  have waits : B'.Collecting → 1 ≤ o.entry.invAckWaiting := by
    intro collecting
    have pos := Finset.card_pos.mpr (refines.awaits fed live.awaiting collecting)
    rw [refines.entry.awaiting collecting]
    exact_mod_cast pos
  obtain ⟨r', mode⟩ | ⟨owner, r', c, recalled, mode⟩ :=
    collecting_mode refines.entry.stands collects
  · exact .inl (waits (.inl ⟨r', mode⟩))
  · cases recalled with
    | false => exact .inl (waits (.inr ⟨owner, r', c, mode⟩))
    | true =>
        have rights := (refines.steps.inv inv).rights
        simp only [Block.ModeOk, mode] at rights
        have moves := refines.moves owner
        have idle := idle_of_stable inv stable owner
        rcases rights.2.1 with ⟨sent, -⟩ | ⟨answered, -⟩
        · exact .inr (sends_of_moves moves idle sent)
        · -- An answer that is out now was out before.
          have upward := moves.upward (replyKind .data)
          have here : 0 < up (B.slot owner) (replyKind .data) := by
            rw [upward, up, answered]
            simp only [upReply, one_self]
            omega
          cases idle.symm.trans (answered_of_up here)

/-! ## Full mode -/

/-- The message begins a round that would wait for nobody. -/
def Starves : Protocol → Settings → DirEntry → Message → Prop
  | .MESI => mesiStarved
  | .MOESIF => moesifStarved
  | .MI | .MSI | .MOSI => fun _ _ _ => False

instance (p : Protocol) (s : Settings) (e : DirEntry) (r : Message) : Decidable (Starves p s e r) := by
  cases p <;> unfold Starves <;> first | infer_instance | (unfold mesiStarved; infer_instance) |
    (unfold moesifStarved; infer_instance)

theorem starved_iff (p : Protocol) (s : Settings) (e : DirEntry) (r : Message) :
    p.laws.starved s e r ↔ Starves p s e r := by
  cases p <;> rfl

/-- What the directory takes up next leaves no entry collecting answers from nobody. -/
def System.BeginsFed (s : Settings) (σ : System F π) : Prop :=
  ∀ r o, σ.TakesUp r → F.handle s (σ.dir.directory r.block) r = .ok o →
    (σ.dir.directory r.block).state.Stable → o.entry.state ∈ [DirState.SM, .OM, .FM] →
    1 ≤ o.entry.invAckWaiting ∨ ∃ x ∈ o.sends, x.kind = .recallGotoI

/-- The next message does not begin a round that would wait for nobody. -/
def System.Fed (s : Settings) (σ : System F π) : Prop :=
  ∀ r, σ.TakesUp r → ¬ Starves s.protocol s (σ.dir.directory r.block) r

/-- Rounds that begin with somebody to wait for wait for somebody as long as they last. -/
theorem fed_run (laws : PortLaws π fun _ _ => False) (small : s.numProcs ≤ kMaxSharers)
    {cpu : NodeId → π.State} {σ : System s.protocol.fsm π}
    (run : (System.machine s.protocol.fsm π s).Run
      (Heedful fun σ r => ¬ Starves s.protocol s (σ.dir.directory r.block) r)
      (System.initial s.protocol.fsm π s cpu) σ) :
    (∀ b, ¬ (σ.dir.directory b).state.Stable → σ.Feeds s b) ∧ σ.OrdersAnswered s ∧
      (σ.Fed s → σ.BeginsFed s) := by
  obtain ⟨lines, shows, alive⟩ := Shows.run (L := s.protocol.laws)
    (I := fun _ lines => ∀ b, (lines b).Live ∧ (lines b).Untrapped) laws small (fun _ _ _ => id)
    (fun σ _ a _ _ _ => tidy_of_none σ a) (fun _ => ⟨Block.Live.initial, Block.Untrapped.initial⟩)
    (by
      intro σ lines a σ' lines' shows alive heedful _ advances _ b
      refine (advances b).live ?_ (shows.abs b).inv (alive b).1 (alive b).2
      cases a with
      | dirTick =>
          intro r rest free queue
          rw [starved_iff]
          exact heedful r ⟨free, by rw [queue]; rfl⟩
      | tick i | tock i | deliver i | external i event | dirTock | dirDeliver src => trivial) run
  refine ⟨fun b => (shows.abs b).feeds (alive b).1,
    shows.ordersAnswered laws (fun i => tidy_of_none σ (.tick i)) fun b => (alive b).2, ?_⟩
  intro fed r o taken handled stable
  obtain ⟨rest, free, queue⟩ := taken.queue
  have meets := (shows.abs r.block).meets shows.net small free queue
  obtain ⟨B', refines⟩ := s.protocol.laws.refines meets handled
  refine refines.begins meets.inv (alive r.block).1 ?_ ?_
  · rw [starved_iff]
    exact fed r taken
  · by_contra busy
    exact (transient_mode meets.entry.stands).mpr busy stable

/-- In every full-mode run that takes up no message that starves its round, every transient
    entry has an answer, or an order that brings one, on its way. -/
theorem no_stuck_transient (s : Settings) (small : s.numProcs ≤ kMaxSharers) (l1 l2 : Memory.Config) :
    ∀ σ, (System.machine s.protocol.fsm adapterPort s).Run
        (Heedful fun σ r => ¬ Starves s.protocol s (σ.dir.directory r.block) r)
        (fullMode s.protocol.fsm s l1 l2) σ →
      (∀ b, ¬ (σ.dir.directory b).state.Stable → σ.Feeds s b) ∧ σ.OrdersAnswered s ∧
        (σ.Fed s → σ.BeginsFed s) :=
  fun _ run => fed_run adapter_laws small run

def soleSharerSettings : Settings :=
  { protocol := .MESI, numProcs := 2, memLatency := 1, cacheMode := .sharedLls }

/-- Both cores load a block, core 1 loses it to another. -/
def soleSharerRun : List (Action adapterPort) :=
  [load 0 0] ++ cycles 2 8 ++ [load 1 0] ++ cycles 2 10 ++ [load 1 128] ++ cycles 2 10

def soleSharer : System mesi adapterPort :=
  (System.machine mesi adapterPort soleSharerSettings).attempt
    (fullMode mesi soleSharerSettings tinyL1 {}) soleSharerRun

theorem no_stuck_transient_sole_sharer :
    (∀ b, ¬ (soleSharer.dir.directory b).state.Stable → soleSharer.Feeds soleSharerSettings b) ∧
      soleSharer.OrdersAnswered soleSharerSettings ∧
      (System.Fed soleSharerSettings soleSharer →
        System.BeginsFed soleSharerSettings soleSharer) :=
  no_stuck_transient soleSharerSettings (by decide) tinyL1 {} soleSharer
    (Machine.run_attempt _ (by decide +kernel))

/-- As `soleSharer`, and core 0 stores to the block. -/
def stuckSharer : System mesi adapterPort :=
  (System.machine mesi adapterPort soleSharerSettings).attempt
    (fullMode mesi soleSharerSettings tinyL1 {}) (soleSharerRun ++ [store 0 0] ++ cycles 2 6)

/-- The only sharer's GETM leaves the entry in SM with nobody to wait for. -/
theorem stuck_transient :
    ∃ σ, (System.machine mesi adapterPort soleSharerSettings).Reachable
        (fullMode mesi soleSharerSettings tinyL1 {}) σ ∧
      (σ.dir.directory 0).state = .SM ∧ (σ.dir.directory 0).invAckWaiting = 0 ∧
      ¬ σ.Feeds soleSharerSettings 0 := by
  obtain ⟨state, none⟩ : (stuckSharer.dir.directory 0).state = .SM ∧
      (stuckSharer.dir.directory 0).invAckWaiting = 0 := by decide +kernel
  refine ⟨stuckSharer, Machine.reachable_attempt _ _, state, none, ?_⟩
  have deaf (k : MessageKind) : ¬ (stuckSharer.dir.directory 0).Consumes k := by
    simp [DirEntry.Consumes, state, none]
  rintro ⟨i, -, ⟨m, -, -, consumes⟩ | ⟨m, -, -, k, -, consumes⟩⟩
  · exact deaf _ consumes
  · exact deaf _ consumes

end Coherence
