import MulticoreSim.Coherence.PrivateData
import MulticoreSim.Coherence.Traffic

/-! # Coherence mode comes to its end

The ring has room for what the engines send, so every message that is on its way is
handed over within its latency: that many cycles are a round, and enough rounds take
every CPU through its trace.
-/

namespace Coherence

open RingNetwork

variable {F : ProtocolFsm} {π : CpuPort} {L : Laws F} {s : Settings} {σ σ' start : System F π} {ν ν' : RingNetwork F π}
  {T k : Nat}

/-! ## The pace of a cycle -/

/-- The flits of a message at most. -/
def Settings.mostFlits (s : Settings) : Nat := s.headerFlits + s.payloadFlits

/-- What a node's engine sends is what its end of the ring takes. -/
theorem Shadows.engine (shadows : Shadows s start ν σ) (here : k < size s) (waits : σ.ticked k = false)
    (step : ν.tickNode s k = .ok ν') :
    ∃ a τ, (System.machine F π s).step σ a = .ok τ ∧ ν'.ring = ν.ring.tickNode (size s) k (τ.outbox s k) ∧
      τ.chan = σ.chan ∧ ∀ j < size s, j ≠ k → τ.outbox s j = σ.outbox s j := by
  unfold RingNetwork.tickNode at step
  split at step
  · next bound =>
      unfold RingNetwork.tickCpu at step
      split at step
      · cases step
      · next n st ticked =>
          cases step
          rw [← shadows.cpus, ← shadows.stats] at ticked
          refine ⟨.tick k, _, steps_tick bound waits ticked, ?_, rfl, fun j _ ne => ?_⟩
          · simp only [System.outbox, bound, if_true, Function.update_self]
          · simp only [System.outbox, Function.update_of_ne ne]
  · next bound =>
      have last : k = s.numProcs := Nat.le_antisymm (Nat.le_of_lt_succ here) (Nat.le_of_not_lt bound)
      subst last
      unfold RingNetwork.tickDir at step
      split at step
      · cases step
      · next d st ticked =>
          cases step
          rw [← shadows.dir, ← shadows.clock, ← shadows.stats] at ticked
          refine ⟨.dirTick, _, steps_dirTick waits ticked, ?_, rfl, fun j below ne => ?_⟩
          · simp only [System.outbox, bound, if_false]
          · have cpu : j < s.numProcs := Nat.lt_of_le_of_ne (Nat.le_of_lt_succ below) ne
            rw [System.outbox, System.outbox, if_pos cpu, if_pos cpu]

/-- However a run goes, no more than `T` messages are in flight. -/
def Light (s : Settings) (start : System F π) (T : Nat) : Prop :=
  ∀ τ, (System.machine F π s).Reachable start τ → (∀ i < s.numProcs, ∀ j < s.numProcs, τ.chan i j = []) →
    τ.chan s.numProcs s.numProcs = [] → τ.inFlight s ≤ T

/-- A node's tick takes on the messages that wait for it. -/
theorem Shadows.tickPace (shadows : Shadows s start ν σ) (good : GoodThroughout s start) (header : 1 ≤ s.headerFlits)
    (some : 0 < s.numProcs) (light : Light s start T) (roomy : Ring.Roomy (size s) s.mostFlits T ν.ring)
    (here : k < size s) (waits : σ.ticked k = false) (step : ν.tickNode s k = .ok ν') :
    (Ring.Forward (size s) s.mostFlits T ν.ring ν'.ring ∧ Ring.Roomy (size s) s.mostFlits T ν'.ring) ∧
      Ring.Takes (size s) s.mostFlits T (fun pl w => pl.turn (size s) w = .tick k) ν.ring ν'.ring := by
  obtain ⟨a, τ, engine, ring, chan, others⟩ := shadows.engine here waits step
  have reached := shadows.reached.step trivial engine
  have sends (m : Message) (mem : m ∈ τ.outbox s k) := (good τ reached).sends header here mem
  have room := (shadows.room here waits chan others).trans
    (light τ reached (fun i hi j hj => by rw [chan, shadows.routes i hi j hj]) (by rw [chan, shadows.selfless]))
  obtain ⟨onward, takes⟩ := roomy.tickNode (two_le_size some) here
    (fun m mem => ⟨(sends m mem).1, (sends m mem).2.1, (sends m mem).2.2.1⟩) (fun m mem => (sends m mem).2.2.2) room
  rw [ring]
  exact ⟨⟨onward.toForward, onward.roomy⟩, takes⟩

theorem Shadows.tickAllPace (shadows : Shadows s start ν σ) (good : GoodThroughout s start) (header : 1 ≤ s.headerFlits)
    (some : 0 < s.numProcs) (light : Light s start T) (roomy : Ring.Roomy (size s) s.mostFlits T ν.ring)
    {ks : List NodeId} (once : ks.Nodup) (here : ∀ k ∈ ks, k < size s) (waits : ∀ k ∈ ks, σ.ticked k = false)
    (ran : ν.tickAll s ks = .ok ν') :
    (Ring.Forward (size s) s.mostFlits T ν.ring ν'.ring ∧ Ring.Roomy (size s) s.mostFlits T ν'.ring) ∧
      ∀ k ∈ ks, Ring.Takes (size s) s.mostFlits T (fun pl w => pl.turn (size s) w = .tick k) ν.ring ν'.ring := by
  induction ks generalizing ν σ with
  | nil =>
      cases ran
      exact ⟨⟨.refl _, roomy⟩, fun k no => (by cases no)⟩
  | cons k rest ih =>
      obtain ⟨new, once⟩ := List.nodup_cons.mp once
      have first := waits k List.mem_cons_self
      have mine := here k List.mem_cons_self
      rw [RingNetwork.tickAll] at ran
      cases ticked : ν.tickNode s k with
      | error what =>
          rw [ticked] at ran
          cases ran
      | ok ν₁ =>
          rw [ticked] at ran
          obtain ⟨⟨forward, roomy₁⟩, takes⟩ := shadows.tickPace good header some light roomy mine first ticked
          obtain ⟨xs, σ₁, turn, -, now⟩ := shadows.tickNode good header some mine first ticked
          have waits' : ∀ j ∈ rest, σ₁.ticked j = false := by
            intro j mem
            have ne : j ≠ k := fun eq => new (eq ▸ mem)
            rw [now, Function.update_of_ne ne]
            exact waits j (List.mem_cons_of_mem _ mem)
          obtain ⟨⟨forward', roomy'⟩, takes'⟩ := ih turn.shadows roomy₁ once
            (fun j mem => here j (List.mem_cons_of_mem _ mem)) waits' ran
          refine ⟨⟨forward.trans forward', roomy'⟩, fun j mem => ?_⟩
          rcases List.mem_cons.mp mem with rfl | mem
          · exact takes.before forward.fresh forward'
          · exact (takes' j mem).after forward forward'

theorem tock_ring (s : Settings) (ν : RingNetwork F π) : (ν.tock s).ring = ν.ring.tock (size s) := by
  have fold (ks : List NodeId) : (ks.foldl (fun ν k => ν.tockNode s k) ν).ring =
      ks.foldl (fun ρ k => ρ.tockNode k) ν.ring := by
    induction ks generalizing ν with
    | nil => rfl
    | cons k rest ih =>
        have one : (ν.tockNode s k).ring = ν.ring.tockNode k := by
          unfold RingNetwork.tockNode
          split <;> rfl
        rw [List.foldl_cons, List.foldl_cons, ih, one]
  exact fold _

/-- A cycle takes on every message that is on its way. -/
theorem Shadows.cyclePace (shadows : Shadows s start ν σ) (good : GoodThroughout s start) (header : 1 ≤ s.headerFlits)
    (some : 0 < s.numProcs) (level : σ.Level s) (light : Light s start T)
    (roomy : Ring.Roomy (size s) s.mostFlits T ν.ring) (step : ν.cycle s [] = .ok ν') :
    (Ring.Forward (size s) s.mostFlits T ν.ring ν'.ring ∧ Ring.Roomy (size s) s.mostFlits T ν'.ring) ∧
      Ring.Takes (size s) s.mostFlits T (fun _ _ => True) ν.ring ν'.ring := by
  unfold RingNetwork.cycle at step
  split at step
  · cases step
  · next ν₁ ticked =>
      cases step
      obtain ⟨⟨forward, roomy₁⟩, ticks⟩ := shadows.tickAllPace good header some light roomy List.nodup_range
        (fun k mem => List.mem_range.mp mem) (fun k mem => level k (List.mem_range.mp mem)) ticked
      have few := roomy₁.room
      obtain ⟨tocked, tocks⟩ := Ring.Onward.fold (fun ρ k => ρ.tockNode k) (fun _ => 0) .tock (List.range (size s))
        (fun k mem ρ roomy _ => roomy.tockNode (two_le_size some) (List.mem_range.mp mem)) roomy₁ (by simpa using few)
      change (_ ∧ Ring.Roomy _ _ _ (ν₁.tock s).ring) ∧ Ring.Takes _ _ _ _ _ (ν₁.tock s).ring
      rw [tock_ring]
      exact ⟨⟨forward.trans tocked.toForward, tocked.roomy⟩, Ring.takes_all forward tocked.toForward
        (fun k bound => ticks k (List.mem_range.mpr bound)) fun k bound => tocks k (List.mem_range.mpr bound)⟩

/-! ## A round is the latency of the ring -/

section

variable {traces : NodeId → List Instruction} {σ σ' : System F ficiPort} {ν ν' : RingNetwork F ficiPort}

/-- Between two cycles. -/
structure Paused (s : Settings) (traces : NodeId → List Instruction) (ν : RingNetwork F ficiPort)
    (σ : System F ficiPort) : Prop extends Shadows s (coherenceMode F s traces) ν σ where
  level : σ.Level s
  roomy : Ring.Roomy (size s) s.mostFlits (mostCarried s traces) ν.ring

/-- The cycles in which the ring hands over what is on its way. -/
def ringLatency (s : Settings) (traces : NodeId → List Instruction) : Nat :=
  Ring.latency (size s) s.mostFlits (mostCarried s traces)

theorem coherenceMode_light (L : Laws F) (small : s.numProcs ≤ kMaxSharers) (traces : NodeId → List Instruction) :
    Light s (coherenceMode F s traces) (mostCarried s traces) := by
  intro τ reached routes selfless
  obtain ⟨lines, under⟩ := underway_run L small reached
  exact under.inFlight_le (good_run L fici_laws fici_sizes small reached).fenced routes selfless

theorem Paused.initial (s : Settings) (traces : NodeId → List Instruction) :
    Paused s traces (RingNetwork.initial F ficiPort s fun i => FiciCpu.load (traces i)) (coherenceMode F s traces) where
  toShadows := Shadows.initial s _
  level _ _ := rfl
  roomy := .empty _ _ _

variable (L) (small : s.numProcs ≤ kMaxSharers) (some : 0 < s.numProcs) (header : 1 ≤ s.headerFlits)
include L small some header

/-- There is always another cycle. -/
theorem Paused.cycle (paused : Paused s traces ν σ) :
    ∃ ν' actions σ', ν.cycle s [] = .ok ν' ∧ OneCycle s (coherenceMode F s traces) ν ν' σ σ' actions ∧
      Paused s traces ν' σ' ∧
      Ring.Forward (size s) s.mostFlits (mostCarried s traces) ν.ring ν'.ring ∧
      Ring.Takes (size s) s.mostFlits (mostCarried s traces) (fun _ _ => True) ν.ring ν'.ring := by
  have good : GoodThroughout s (coherenceMode F s traces) :=
    fun τ reached => good_run L fici_laws fici_sizes small reached
  obtain ⟨ran, fails⟩ := paused.toShadows.cycle good header some paused.level []
  cases step : ν.cycle s [] with
  | error what =>
      obtain ⟨τ, a, reached, thrown⟩ := fails what step
      rw [coherenceMode_silent L small reached a] at thrown
      cases thrown
  | ok ν' =>
      obtain ⟨actions, σ', one⟩ := ran ν' step
      obtain ⟨⟨forward, roomy⟩, takes⟩ := paused.toShadows.cyclePace good header some paused.level
        (coherenceMode_light L small traces) paused.roomy step
      exact ⟨ν', actions, σ', rfl, one, ⟨one.shadows, one.level, roomy⟩, forward, takes⟩

/-- What a number of cycles do to what is on its way. -/
theorem Paused.cycles (paused : Paused s traces ν σ) (j : Nat) :
    ∃ ν' actions σ', (RingNetwork.machine F ficiPort s).exec ν (List.replicate j []) = .ok ν' ∧
      Matches s (coherenceMode F s traces) ν ν' σ σ' actions ∧ Paused s traces ν' σ' ∧
      (∀ id < ν.ring.fresh, Ring.InTime (size s) s.mostFlits (mostCarried s traces) ν'.ring id j) ∧
      (0 < j → (∀ i < s.numProcs, .tick i ∈ actions ∧ .tock i ∈ actions) ∧ .dirTick ∈ actions ∧
        .dirTock ∈ actions) := by
  induction j with
  | zero =>
      exact ⟨ν, [], σ, rfl, paused.toShadows.refl, paused, fun id old => paused.roomy.inTime (two_le_size some) old,
        fun no => absurd no (Nat.lt_irrefl 0)⟩
  | succ j ih =>
      obtain ⟨ν₁, xs, σ₁, ran, first, paused₁, inTime, -⟩ := ih
      obtain ⟨ν₂, ys, σ₂, step, one, paused₂, forward, takes⟩ := paused₁.cycle L small some header
      refine ⟨ν₂, xs ++ ys, σ₂, ?_, first.trans one.toMatches, paused₂, fun id old => ?_, fun _ =>
        ⟨fun i bound => ⟨List.mem_append_right _ (one.tick i bound), List.mem_append_right _ (one.tock i bound)⟩,
          List.mem_append_right _ one.dirTick, List.mem_append_right _ one.dirTock⟩⟩
      · have step : (RingNetwork.machine F ficiPort s).step ν₁ [] = .ok ν₂ := step
        rw [List.replicate_succ', Machine.exec_append, ran]
        change Machine.exec _ ν₁ [[]] = _
        rw [Machine.exec, step]
        rfl
      · exact (inTime id old).cycle forward takes (old.trans_le first.fresh)

/-- As many cycles as the ring may take are a round. -/
theorem Paused.round (paused : Paused s traces ν σ) :
    ∃ ν' actions σ', (RingNetwork.machine F ficiPort s).exec ν (List.replicate (ringLatency s traces) []) = .ok ν' ∧
      Paused s traces ν' σ' ∧ Round s σ actions ∧ (System.machine F ficiPort s).exec σ actions = .ok σ' := by
  obtain ⟨ν', actions, σ', ran, matched, paused', inTime, turns⟩ :=
    paused.cycles L small some header (ringLatency s traces)
  obtain ⟨cpus, dirTick, dirTock⟩ := turns (Nat.succ_pos _)
  -- whatever was on its way has been handed over
  have handed {i j : NodeId} (from_ : i < size s) (to_ : j < size s) (waits : σ.chan i j ≠ []) :
      ∃ m : Message, m.src = i ∧ m.dst = j ∧ handing s m ∈ actions := by
    rw [paused.chan i from_ j to_] at waits
    obtain ⟨id, mem⟩ := List.exists_mem_of_ne_nil _ fun none => waits (List.map_eq_nil_iff.mpr none)
    obtain ⟨old, src, dst, new⟩ := paused.sound.of_transit from_ to_ mem
    have ended := (inTime id old).ended le_rfl
    have heap := matched.heap id old
    rw [Ring.Ended, heap, dst] at ended
    exact ⟨_, heap ▸ src, heap ▸ dst, matched.hands j to_ id ended new⟩
  refine ⟨ν', actions, σ', ran, paused', ⟨fun i bound => (cpus i bound).1, fun i bound => (cpus i bound).2,
    fun i bound waits => ?_, dirTick, dirTock, fun i bound waits => ?_⟩, matched.ran⟩
  · obtain ⟨m, -, dst, mem⟩ := handed (Nat.lt_succ_self _) (Nat.lt_succ_of_lt bound) waits
    rwa [handing, dst, if_pos bound] at mem
  · obtain ⟨m, src, dst, mem⟩ := handed (Nat.lt_succ_of_lt bound) (Nat.lt_succ_self _) waits
    rwa [handing, dst, if_neg (Nat.lt_irrefl _), src] at mem

/-- Round after round. -/
theorem exists_ring_rounds (traces : NodeId → List Instruction) (r : Nat) :
    ∃ ν σ, (RingNetwork.machine F ficiPort s).exec
        (RingNetwork.initial F ficiPort s fun i => FiciCpu.load (traces i))
        (List.replicate (r * ringLatency s traces) []) = .ok ν ∧
      Paused s traces ν σ ∧ Rounds s (coherenceMode F s traces) r σ := by
  induction r with
  | zero =>
      rw [Nat.zero_mul]
      exact ⟨_, _, rfl, .initial s traces, .none⟩
  | succ r ih =>
      obtain ⟨ν, σ, ran, paused, rounds⟩ := ih
      obtain ⟨ν', actions, σ', ran', paused', round, exec⟩ := paused.round L small some header
      refine ⟨ν', σ', ?_, paused', rounds.more round exec⟩
      rw [Nat.succ_mul, List.replicate_add, Machine.exec_append, ran]
      exact ran'

end

/-! ## The loop -/

section

variable {calls : List (NodeId × π.Event)}

theorem tickNode_clock (step : ν.tickNode s k = .ok ν') : ν'.clock = ν.clock := by
  unfold RingNetwork.tickNode RingNetwork.tickCpu RingNetwork.tickDir at step
  split at step
  · split at step
    · cases step
    · cases step
      rfl
  · split at step
    · cases step
    · cases step
      rfl

theorem tickAll_clock {ks : List NodeId} (ran : ν.tickAll s ks = .ok ν') : ν'.clock = ν.clock := by
  induction ks generalizing ν with
  | nil =>
      cases ran
      rfl
  | cons k rest ih =>
      rw [RingNetwork.tickAll] at ran
      split at ran
      · cases ran
      · next ν₁ ticked => exact (ih ran).trans (tickNode_clock ticked)

theorem tock_clock (ν : RingNetwork F π) : (ν.tock s).clock = ν.clock := by
  unfold RingNetwork.tock
  induction List.range (size s) generalizing ν with
  | nil => rfl
  | cons k rest ih => rw [List.foldl_cons, ih, tockNode_clock]

theorem cycle_clock (step : ν.cycle s [] = .ok ν') : ν'.clock = ν.clock + 1 := by
  unfold RingNetwork.cycle at step
  split at step
  · cases step
  · next ν₁ ticked =>
      cases step
      exact congrArg (· + 1) ((tock_clock ν₁).trans (tickAll_clock ticked))

end

/-- The loop ends once all are done, at the latest where they are seen to be. -/
theorem run_of_exec {ν ν' : RingNetwork F ficiPort} {j left : Nat}
    (ran : (RingNetwork.machine F ficiPort s).exec ν (List.replicate j []) = .ok ν') (done : ν'.isDone s = true)
    (room : j < left) : ∃ ν'', ν.run s left = .ok (ν'', true) ∧ ν''.isDone s = true ∧ ν''.clock ≤ ν.clock + j := by
  obtain ⟨left, rfl⟩ := Nat.exists_eq_add_one_of_ne_zero (Nat.ne_of_gt (Nat.zero_lt_of_lt room))
  induction j generalizing ν left with
  | zero =>
      cases ran
      exact ⟨ν', by rw [RingNetwork.run, if_pos done], done, le_rfl⟩
  | succ j ih =>
      by_cases now : ν.isDone s = true
      · exact ⟨ν, by rw [RingNetwork.run, if_pos now], now, Nat.le_add_right _ _⟩
      · rw [List.replicate_succ, Machine.exec] at ran
        cases step : ν.cycle s [] with
        | error what =>
            have step : (RingNetwork.machine F ficiPort s).step ν [] = .error what := step
            rw [step] at ran
            cases ran
        | ok ν₁ =>
            have clock := cycle_clock step
            have step' : (RingNetwork.machine F ficiPort s).step ν [] = .ok ν₁ := step
            rw [step'] at ran
            obtain ⟨left, rfl⟩ := Nat.exists_eq_add_one_of_ne_zero (show left ≠ 0 by omega)
            obtain ⟨ν₂, stops, done', soon⟩ := ih ran left (by omega)
            refine ⟨ν₂, ?_, done', soon.trans_eq (by rw [clock, Nat.add_right_comm]; rfl)⟩
            rw [RingNetwork.run, if_neg now, step]
            exact stops

/-- A cycle by which every CPU has gone through its trace. -/
def lastCycle (s : Settings) (traces : NodeId → List Instruction) : Nat :=
  completionRounds s traces * ringLatency s traces

/-- `run_coherence_mode` completes: over its ring, whatever the protocol and the traces, no handler
    throws and every CPU comes to the end of its trace, if the cap on the cycles leaves room for
    the last of them. -/
theorem run_coherence_mode_completes (p : Protocol) (s : Settings) (small : s.numProcs ≤ kMaxSharers)
    (some : 0 < s.numProcs) (traces : NodeId → List Instruction) (maxCycles : Nat)
    (enough : lastCycle s.finalize traces < maxCycles) :
    ∃ ν, runCoherenceMode p.fsm s.finalize traces maxCycles = .ok (ν, true) ∧
      (∀ i < s.numProcs, FiciCpu.isDone (ν.cpus i).cpu = true) ∧ ν.clock ≤ lastCycle s.finalize traces := by
  obtain ⟨ν, σ, ran, paused, rounds⟩ := exists_ring_rounds (s := s.finalize) p.laws small some s.header_pos traces
    (completionRounds s.finalize traces)
  have small : s.finalize.numProcs ≤ kMaxSharers := small
  have finished := (rounds.finished p.laws small p.defers le_rfl).1
  have done : ν.isDone s.finalize = true := by
    refine List.all_eq_true.mpr fun i mem => ?_
    rw [← paused.cpus]
    exact finished i (List.mem_range.mp mem)
  obtain ⟨ν', stops, done', soon⟩ := run_of_exec ran done enough
  refine ⟨ν', stops, fun i bound => List.all_eq_true.mp done' i (List.mem_range.mpr bound), ?_⟩
  change ν'.clock ≤ 0 + lastCycle s.finalize traces at soon
  rwa [Nat.zero_add] at soon

/-- Two CPUs that store to the same block, under the cap of the program. -/
theorem run_coherence_mode_completes_rivals :
    ∃ ν, runCoherenceMode moesif rivalSettings.finalize (fun i => (rivals i).tail) kMaxCycles = .ok (ν, true) ∧
      (∀ i < 2, FiciCpu.isDone (ν.cpus i).cpu = true) ∧
      ν.clock ≤ lastCycle rivalSettings.finalize fun i => (rivals i).tail :=
  run_coherence_mode_completes .MOESIF rivalSettings (by decide) (by decide) _ kMaxCycles (by decide)

end Coherence
