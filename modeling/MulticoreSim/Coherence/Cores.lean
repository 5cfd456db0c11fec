import MulticoreSim.Coherence.Requests
import MulticoreSim.Ooo.Linkage
import MulticoreSim.Trace.Stalls

/-! # Full mode with its cores

The out-of-order cores over the L1 caches of their nodes. A core reaches its L1 by
external steps of its node, between two cycles of it, and each of them is as
`Driven` says: a store is issued when no slot of the L1 is in use, a request that is
completed is ready.
-/

namespace Coherence

open Memory
open Ooo (LsuUnit requests)

variable {F : ProtocolFsm} {s : Settings} {i : NodeId}

/-! ## The requests of an L1 -/

/-- The cache has given out these ids, and none of them is completed. -/
def Requested (c : Cache) (ids : Multiset Nat) : Prop :=
  ∃ held : List Nat, (∀ below, (⟨⟨c, none, below⟩, held⟩ : Custody Below.cache.blind).Kept) ∧ ids = held

namespace Requested

variable {c c' : Cache} {ids : Multiset Nat}

theorem same (requested : Requested c ids) (same : c.SameTable c') : Requested c' ids := by
  obtain ⟨held, kept, eq⟩ := requested
  exact ⟨held, fun below => (kept below).same same, eq⟩

theorem mark (requested : Requested c ids) (b : Nat) : Requested (c.markBlockReady b) ids := by
  obtain ⟨held, kept, eq⟩ := requested
  exact ⟨held, fun below => ⟨(kept below).owned.markBlockReady b, (kept below).nodup, (kept below).given⟩, eq⟩

/-- A request that the cache takes is given the next id. -/
theorem issue (requested : Requested c ids) (below : Option Cache) (req : MemReq) :
    Requested (c.issue (β := .cache) below req).1.cache
      (((c.issue (β := .cache) below req).2.toList : Multiset Nat) + ids) := by
  obtain ⟨held, kept, rfl⟩ := requested
  have blinded : c.issueOver (β := Below.cache.blind) none none below req =
      ((c.issue (β := .cache) below req).1, none, (c.issue (β := .cache) below req).2) :=
    Cache.issueBy_access (β := .cache) _ _ _
  have after := Custody.kept_apply (kept below) (.issue none req)
  simp only [Custody.apply, Served.issue, blinded] at after
  exact ⟨_, fun _ => ⟨after.owned, after.nodup, after.given⟩, rfl⟩

theorem complete (requested : Requested c ids) (id : Nat) : Requested (c.complete id) (ids.erase id) := by
  obtain ⟨held, kept, rfl⟩ := requested
  exact ⟨held.erase id, fun below => Custody.kept_apply (kept below) (.complete id), Multiset.coe_erase _ _⟩

theorem tick (requested : Requested c ids) : Requested c.tick ids := by
  obtain ⟨held, kept, eq⟩ := requested
  exact ⟨held, fun below => Custody.kept_apply (kept below) .tick, eq⟩

theorem free (requested : Requested c 0) {e : MSHREntry} (mem : e ∈ c.mshr.table) : e.valid = false := by
  obtain ⟨held, kept, nobody⟩ := requested
  have empty : held = [] := Multiset.coe_eq_zero held |>.mp nobody.symm
  subst empty
  exact (kept none).owned.free mem

end Requested

namespace CoherenceAdapter

theorem requested_wire (s : Settings) (l1 l2 : Config) : Requested (wire s l1 l2).l1d 0 := by
  refine ⟨[], fun below => ?_, rfl⟩
  unfold wire
  split <;> exact ⟨.make _, List.nodup_nil, fun _ mem => absurd mem List.not_mem_nil⟩

section

variable {P : Cache → Prop} (same : ∀ {c c' : Cache}, c.SameTable c' → P c → P c')
  (mark : ∀ {c : Cache} (b : Nat), P c → P (c.markBlockReady b)) {a : CoherenceAdapter}

include same

theorem event_l1d (here : P a.l1d) (m : Message) : P (a.onNtwkEvent s m).l1d := by
  unfold onNtwkEvent
  simp only
  split
  case h_1 | h_2 => exact same Cache.coherenceInvalidate_same here
  case h_3 =>
    split
    · exact here
    · exact same (Cache.coherenceMark_same false) here
  case h_4 => exact here

include mark

theorem tick_l1d (here : P a.l1d) (slot : Option Message) : P (a.tick s i slot).state.l1d := by
  have drained : P (a.drain slot).1.l1d := by
    rw [(drain_fields slot).1]
    exact here
  unfold CoherenceAdapter.tick
  simp only
  split
  · exact drained
  · rw [(fill_caches _).1]
    exact mark _ (same (Cache.fill_same _) drained)

/-- The node leaves the table of the L1 alone, but for its marks. -/
theorem l1_stays (s : Settings) : adapterPort.Stays s fun a => P a.l1d where
  tick _ _ slot here := tick_l1d same mark here slot
  tock _ here := here
  event _ m here := event_l1d same here m
  deposit _ _ here := here

end

section

variable {a : CoherenceAdapter} {ids : Multiset Nat} (slot : Option Message) (req : MemReq)

theorem core_issue_l1d :
    (a.core s i slot (.issue req)).state.l1d = (a.l1d.issue (β := .cache) a.l2d req).1.cache :=
  (sink_caches _).1

theorem core_issue_now : (a.core s i slot (.issue req)).state.l1d.now = a.l1d.now := by
  rw [core_issue_l1d]
  unfold Cache.issue
  simp only
  split
  · rfl
  · split
    · rfl
    · exact (Cache.access_same (β := .cache) a.l1d a.l2d req).now

/-- The id that the L1 gives out is one more of the core's. -/
theorem core_issue_requested (requested : Requested a.l1d ids) {id : Option Nat}
    (given : (a.l1d.issue (β := .cache) a.l2d req).2 = id) :
    Requested (a.core s i slot (.issue req)).state.l1d ((id.toList : Multiset Nat) + ids) := by
  rw [core_issue_l1d, ← given]
  exact requested.issue a.l2d req

end

end CoherenceAdapter

/-! ## The calls of a core -/

/-- What a core's call leaves of the system. -/
def System.call (s : Settings) (i : NodeId) (σ : System F adapterPort) (event : CoreEvent) :
    System F adapterPort :=
  { σ with
    cpus := Function.update σ.cpus i
      ((σ.cpus i).portStep (CoherenceAdapter.core (σ.cpus i).cpu s i (σ.cpus i).cpuInNext event)) }

/-- The L1 of a node, as the core above it reaches it. -/
def nodeL1 (F : ProtocolFsm) (s : Settings) (i : NodeId) : Ooo.DataCache where
  State := System F adapterPort
  full σ := (σ.cpus i).cpu.l1d.mshr.full
  ready σ id := ((σ.cpus i).cpu.l1d.peek id).any (·.ready)
  issue σ req := (((σ.cpus i).cpu.l1d.issue (β := .cache) (σ.cpus i).cpu.l2d req).2, σ.call s i (.issue req))
  complete σ id := σ.call s i (.complete id)
  tick σ := σ.call s i .tick

/-- Between the ticks of its node a core's call is an external step. -/
theorem System.step_call {σ : System F adapterPort} (inside : i < s.numProcs) (waits : σ.ticked i = false)
    (event : CoreEvent) : σ.step s (.external i event) = .ok (σ.call s i event) := by
  simp only [System.step, inside, waits, and_self, if_true]
  cases event <;> rfl

/-- What the calls of one core since `τ` have made of the system, while the clock of the L1
    is not at its end. -/
structure Drove (s : Settings) (i : NodeId) (l1 l2 : Config) (τ σ : System F adapterPort)
    (lsu : List (Option LsuUnit)) : Prop where
  held : Requested (σ.cpus i).cpu.l1d (requests lsu)
  wired : (σ.cpus i).cpu.Wired s l1 l2
  inside : i < s.numProcs
  waits : σ.ticked i = false
  others : ∀ j ≠ i, σ.cpus j = τ.cpus j
  later : (τ.cpus i).cpu.l1d.now ≤ (σ.cpus i).cpu.l1d.now
  driven : (σ.cpus i).cpu.l1d.now < Cache.never → (System.machine F adapterPort s).Run (Driven s) τ σ

namespace Drove

variable {l1 l2 : Config} {τ σ : System F adapterPort} {lsu lsu' : List (Option LsuUnit)}

theorem call_cpu (σ : System F adapterPort) (event : CoreEvent) :
    ((σ.call s i event).cpus i).cpu =
      (CoherenceAdapter.core (σ.cpus i).cpu s i (σ.cpus i).cpuInNext event).state := by
  simp only [System.call, Function.update_self]
  rfl

/-- One more call, which leaves the adapter `a`. -/
theorem call (drove : Drove s i l1 l2 τ σ lsu) (event : CoreEvent) {a : CoherenceAdapter}
    (left : (CoherenceAdapter.core (σ.cpus i).cpu s i (σ.cpus i).cpuInNext event).state = a)
    (held : Requested a.l1d (requests lsu')) (later : (σ.cpus i).cpu.l1d.now ≤ a.l1d.now)
    (driven : a.l1d.now < Cache.never → event.Driven s (σ.cpus i).cpu) :
    Drove s i l1 l2 τ (σ.call s i event) lsu' := by
  have cpu : ((σ.call s i event).cpus i).cpu = a := (call_cpu σ event).trans left
  refine ⟨?_, ?_, drove.inside, drove.waits, fun j other => ?_, ?_, fun early => ?_⟩
  · rwa [cpu]
  · rw [cpu, ← left]
    exact drove.wired.core _ event
  · refine Eq.trans ?_ (drove.others j other)
    exact Function.update_of_ne other _ _
  · rw [cpu]
    exact drove.later.trans later
  · rw [cpu] at early
    exact (drove.driven (Nat.lt_of_le_of_lt later early)).step (a := .external i event) (driven early)
      (System.step_call drove.inside drove.waits event)

/-- A core's request is one that `Driven` allows. -/
theorem issue_driven (drove : Drove s i l1 l2 τ σ lsu) (fine : s.blockSizeLog2 ≤ l1.b) {req : MemReq}
    (asked : Ooo.Core.Asked (· < 2 ^ 64) lsu req) : (CoreEvent.issue req).Driven s (σ.cpus i).cpu := by
  refine ⟨fun write e mem => ?_, ?_⟩
  · have held := drove.held
    rw [Ooo.requests_idle (asked.alone write)] at held
    exact held.free mem
  · rw [Cache.getBlockAddr, drove.wired.upper_shift, Nat.shiftRight_eq_div_pow, Nat.shiftLeft_eq]
    have less : req.addr / 2 ^ l1.b * 2 ^ s.blockSizeLog2 ≤ req.addr := by
      refine Nat.le_trans ?_ (Nat.div_mul_le_self req.addr (2 ^ l1.b))
      exact Nat.mul_le_mul_left _ (Nat.pow_le_pow_right (by decide) fine)
    exact Nat.lt_of_le_of_lt less asked.addr

end Drove

/-- The calls of a core are as `Driven` says. -/
theorem keeps_drove {l1 : Config} (fine : s.blockSizeLog2 ≤ l1.b) (i : NodeId) (l2 : Config)
    (τ : System F adapterPort) :
    (nodeL1 F s i).Keeps (Ooo.Core.Asked (· < 2 ^ 64)) (Drove s i l1 l2 τ) where
  refused := by
    intro σ lsu req drove asked refused
    refine drove.call (.issue req) rfl ?_ (CoherenceAdapter.core_issue_now _ _).ge
      fun _ => drove.issue_driven fine asked
    have held := CoherenceAdapter.core_issue_requested (s := s) (i := i) (σ.cpus i).cpuInNext req
      drove.held refused
    rwa [Option.toList_none, Multiset.coe_nil, zero_add] at held
  issue := by
    intro σ lsu req u drove asked free taken
    refine drove.call (.issue req) rfl ?_ (CoherenceAdapter.core_issue_now _ _).ge
      fun _ => drove.issue_driven fine asked
    have held := CoherenceAdapter.core_issue_requested (s := s) (i := i) (σ.cpus i).cpuInNext req
      drove.held taken
    rwa [Option.toList_some, Multiset.coe_singleton, ← Ooo.requests_place free] at held
  complete := by
    intro σ lsu unit u drove here ready
    refine drove.call (.complete u.mshrId) rfl ?_ (Nat.le_refl _) fun _ => ready
    have held := drove.held.complete u.mshrId
    rw [Ooo.requests_clear here, Multiset.singleton_add, Multiset.erase_cons_head] at held
    exact held
  tick := by
    intro σ lsu drove
    exact drove.call .tick rfl drove.held.tick (Nat.le_succ _) id

/-! ## Cores and network -/

/-- `run_full_mode`: the network, and a core above the L1 of each node. -/
structure Board (Φ : Ooo.Front) (F : ProtocolFsm) (s : Settings) where
  system : System F adapterPort
  cores : (i : NodeId) → Ooo.Core (Φ.with (nodeL1 F s i))

inductive BoardAction (Φ : Ooo.Front) where
  /-- `core->tick()`, before the node ticks. -/
  | core (i : NodeId)
  /-- The surroundings of a core apart from its L1 change as they like. -/
  | front (i : NodeId) (state : Φ.State)
  | system (a : Action adapterPort)

namespace Board

variable {Φ : Ooo.Front} {l1 l2 : Config}

/-- A core and its surroundings as they are. -/
def core (b : Board Φ F s) (i : NodeId) (front : Φ.State) : Ooo.Core (Φ.with (nodeL1 F s i)) :=
  { b.cores i with outside := (front, b.system) }

/-- The cores reach the network by their ticks only. -/
def step (b : Board Φ F s) : BoardAction Φ → Except Fault (Board Φ F s)
  | .core i =>
      if i < s.numProcs ∧ b.system.ticked i = false then
        match (b.core i (Prod.fst (b.cores i).outside)).tick with
        | .error what => .error (.throws what)
        | .ok (_, c) => .ok { system := Prod.snd c.outside, cores := Function.update b.cores i c }
      else .error .disabled
  | .front i state => .ok { b with cores := Function.update b.cores i (b.core i state) }
  | .system (.external _ _) => .error .disabled
  | .system a => (b.system.step s a).map fun system => { b with system }

def machine (Φ : Ooo.Front) (F : ProtocolFsm) (s : Settings) : Machine (Board Φ F s) (BoardAction Φ) Fault :=
  ⟨step⟩

/-- Before the first cycle. -/
def start (F : ProtocolFsm) (s : Settings) (cfg : Ooo.OooConfig) (l1 l2 : Config)
    (fronts : NodeId → Φ.State) : Board Φ F s where
  system := fullMode F s l1 l2
  cores i := Ooo.Core.make cfg (fronts i, fullMode F s l1 l2) i

/-- The clock of no L1 is at its end. -/
def Early (b : Board Φ F s) : Prop := ∀ i, (b.system.cpus i).cpu.l1d.now < Cache.never

/-- The network has gone as `Driven` says, and each core has given out the ids that its L1
    knows of. -/
structure Apart (l1 l2 : Config) (b : Board Φ F s) : Prop where
  driven : b.Early → (System.machine F adapterPort s).Run (Driven s) (fullMode F s l1 l2) b.system
  wired : ∀ i, (b.system.cpus i).cpu.Wired s l1 l2
  steady : ∀ i, (b.cores i).Steady ∧ Ooo.Addressed (· < 2 ^ 64) (b.cores i).log
  held : ∀ i, Requested (b.system.cpus i).cpu.l1d (requests (b.cores i).units.lsu)

namespace Apart

variable {b b' : Board Φ F s}

theorem start (cfg : Ooo.OooConfig) (l1 l2 : Config) (fronts : NodeId → Φ.State) :
    (Board.start F s cfg l1 l2 fronts).Apart l1 l2 where
  driven _ := .start
  wired _ := ⟨rfl, rfl⟩
  steady i := ⟨Ooo.steady_run .start, fun _ mem => absurd mem List.not_mem_nil⟩
  held i := by
    have idle : requests ((Board.start F s cfg l1 l2 fronts).cores i).units.lsu = 0 :=
      Ooo.requests_idle fun u mem => by cases List.eq_of_mem_replicate mem
    rw [idle]
    exact CoherenceAdapter.requested_wire s l1 l2

/-- What is around a core changes, and not its L1. -/
theorem steady_core (apart : b.Apart l1 l2) (i : NodeId) (front : Φ.State) :
    (b.core i front).Steady ∧ Ooo.Addressed (· < 2 ^ 64) (b.core i front).log := by
  obtain ⟨steady, addressed⟩ := apart.steady i
  exact ⟨⟨steady.sound, steady.held, steady.loadStore⟩, addressed⟩

/-- A cycle of a core. -/
theorem core (apart : b.Apart l1 l2) (fine : s.blockSizeLog2 ≤ l1.b) (words : Φ.Words)
    (step : b.step (.core i) = .ok b') : b'.Apart l1 l2 := by
  have turns := Ooo.Core.turns_desk (Ooo.Core.turns_steady.and (Ooo.turns_addressed (by decide) words.gives))
    (fun inv picked => Ooo.Core.asked inv.1 inv.2 picked) (keeps_drove fine i l2 b.system)
  simp only [Board.step] at step
  split at step
  · next free =>
      split at step
      · cases step
      · next more c' ticked =>
          cases step
          have before : Drove s i l1 l2 b.system b.system (b.cores i).units.lsu :=
            ⟨apart.held i, apart.wired i, free.1, free.2, fun _ _ => rfl, Nat.le_refl _, fun _ => .start⟩
          obtain ⟨steady, drove⟩ := turns.tick ⟨apart.steady_core i _, before⟩ ticked
          have others : ∀ j ≠ i, (Prod.snd c'.outside).cpus j = b.system.cpus j := drove.others
          refine ⟨fun early => ?_, fun j => ?_, ?_, ?_⟩
          · refine (apart.driven fun j => ?_).trans (drove.driven (early i))
            by_cases eq : j = i
            · subst eq
              exact Nat.lt_of_le_of_lt drove.later (early j)
            · rw [← others j eq]
              exact early j
          · by_cases eq : j = i
            · subst eq
              exact drove.wired
            · rw [others j eq]
              exact apart.wired j
          · exact (Function.forall_update_iff b.cores fun _ c =>
              c.Steady ∧ Ooo.Addressed (· < 2 ^ 64) c.log).mpr ⟨steady, fun j _ => apart.steady j⟩
          · refine (Function.forall_update_iff b.cores fun j c =>
              Requested ((Prod.snd c'.outside).cpus j).cpu.l1d (requests c.units.lsu)).mpr
                ⟨drove.held, fun j other => ?_⟩
            rw [others j other]
            exact apart.held j
  · cases step

theorem front (apart : b.Apart l1 l2) {state : Φ.State} (step : b.step (.front i state) = .ok b') :
    b'.Apart l1 l2 := by
  cases step
  refine ⟨apart.driven, apart.wired, ?_, ?_⟩
  · exact (Function.forall_update_iff b.cores fun _ c =>
      c.Steady ∧ Ooo.Addressed (· < 2 ^ 64) c.log).mpr ⟨apart.steady_core i state, fun j _ => apart.steady j⟩
  · exact (Function.forall_update_iff b.cores fun j c =>
      Requested (b.system.cpus j).cpu.l1d (requests c.units.lsu)).mpr
        ⟨apart.held i, fun j _ => apart.held j⟩

/-- A step of the network. -/
theorem system (apart : b.Apart l1 l2) {a : Action adapterPort} (step : b.step (.system a) = .ok b') :
    b'.Apart l1 l2 := by
  have inside : ∀ i e, a ≠ .external i e := by
    rintro i e rfl
    cases step
  have free : ∀ σ : System F adapterPort, Driven s σ a := by
    intro σ
    cases a with
    | external i e => exact absurd rfl (inside i e)
    | tick | tock | deliver | dirTick | dirTock | dirDeliver => trivial
  have moved : (b.system.step s a).map (fun system => { b with system }) = .ok b' := by
    cases a with
    | external i e => exact absurd rfl (inside i e)
    | tick | tock | deliver | dirTick | dirTock | dirDeliver => exact step
  cases stepped : b.system.step s a with
  | error fault =>
      rw [stepped] at moved
      cases moved
  | ok σ =>
      rw [stepped] at moved
      cases moved
      have clock (j : NodeId) : (σ.cpus j).cpu.l1d.now = (b.system.cpus j).cpu.l1d.now :=
        (CoherenceAdapter.l1_stays (P := fun c => c.now = (b.system.cpus j).cpu.l1d.now)
          (fun same here => same.now.trans here) (fun _ here => here) s).step rfl (inside j) stepped
      refine ⟨fun early => ?_, fun j => ?_, apart.steady, fun j => ?_⟩
      · exact (apart.driven fun j => clock j ▸ early j).step (free _) stepped
      · exact (CoherenceAdapter.wired_kept s l1 l2).toStays.step (apart.wired j) (inside j) stepped
      · exact (CoherenceAdapter.l1_stays (P := fun c => Requested c (requests (b.cores j).units.lsu))
          (fun same here => here.same same) (fun b here => here.mark b) s).step (apart.held j) (inside j) stepped

end Apart

/-- In every run of full mode with its cores, the calls of the cores are as `Driven` says, up to
    the end of the clock: the L1 caches have blocks of no less than a coherence block, and the
    reader's addresses are words. -/
theorem cores_drive (fine : s.blockSizeLog2 ≤ l1.b) (words : Φ.Words)
    {cfg : Ooo.OooConfig} {fronts : NodeId → Φ.State} {b : Board Φ F s}
    (run : (machine Φ F s).Reachable (start F s cfg l1 l2 fronts) b) (early : b.Early) :
    (System.machine F adapterPort s).Run (Driven s) (fullMode F s l1 l2) b.system := by
  have apart : b.Apart l1 l2 := by
    refine run.invariant (.start cfg l1 l2 fronts) fun b a b' apart _ step => ?_
    cases a with
    | core i => exact apart.core fine words step
    | front i state => exact apart.front step
    | system a => exact apart.system step
  exact apart.driven early

end Board

/-! ## The front of a core -/

/-- The reader of a trace with its sink, and a predictor. -/
def traceFront (K : Sync.Sink) {P : Type} (predict : P → Ooo.Branch → Bool × P)
    (update : P → Ooo.Branch → Bool → P) : Ooo.Front where
  State := (Trace.Reader × K.State) × P
  next o :=
    match o.1.1.next o.1.2 with
    | (.error what, _, _) => .error what
    | (.ok out, reader, sink) => .ok (out, (reader, sink), o.2)
  blocked o := o.1.1.blocked
  notifyRetire o tid token ip :=
    (K.notifyRetire o.1.2 tid
      { kind := token.kind, syncObjectAddr := token.syncObjectAddr, sequenceNo := token.sequenceNo
        extraArg := token.extraArg, ip }).map fun sink => ((o.1.1, sink), o.2)
  predict o branch := ((predict o.2 branch).1, o.1, (predict o.2 branch).2)
  update o branch prediction := (o.1, update o.2 branch prediction)

theorem traceFront_words (K : Sync.Sink) {P : Type} (predict : P → Ooo.Branch → Bool × P)
    (update : P → Ooo.Branch → Bool → P) : (traceFront K predict update).Words := by
  intro o o' rec delivered
  simp only [traceFront] at delivered
  split at delivered
  · cases delivered
  · next read =>
      cases delivered
      exact Trace.Reader.next_addresses read

/-- So it is for cores that read any traces. -/
theorem trace_cores_drive (K : Sync.Sink) {P : Type} (predict : P → Ooo.Branch → Bool × P)
    (update : P → Ooo.Branch → Bool → P) {cfg : Ooo.OooConfig} {l1 l2 : Config}
    (fine : s.blockSizeLog2 ≤ l1.b) {fronts : NodeId → (traceFront K predict update).State}
    {b : Board (traceFront K predict update) F s}
    (run : (Board.machine _ F s).Reachable (Board.start F s cfg l1 l2 fronts) b) (early : b.Early) :
    (System.machine F adapterPort s).Run (Driven s) (fullMode F s l1 l2) b.system :=
  Board.cores_drive fine (traceFront_words K predict update) run early

end Coherence
