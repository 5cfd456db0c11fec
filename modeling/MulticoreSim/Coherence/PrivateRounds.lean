import MulticoreSim.Coherence.PrivateProgress
import Mathlib.Algebra.Order.BigOperators.Group.Finset

/-! # Rounds

In a round every node goes through a cycle and the ring hands over what it had to
hand over when the round began. Where traces share nothing each round takes some
CPU on, so that enough rounds bring all of them to the end.
-/

namespace Coherence

variable {F : ProtocolFsm}

/-- What a number of rounds lead to. -/
inductive Rounds (s : Settings) (start : System F ficiPort) : Nat → System F ficiPort → Prop where
  | none : Rounds s start 0 start
  | more {k : Nat} {σ σ' : System F ficiPort} {actions : List (Action ficiPort)} :
      Rounds s start k σ → Round s σ actions →
        (System.machine F ficiPort s).exec σ actions = .ok σ' → Rounds s start (k + 1) σ'

/-- Where there is always another round there are as many as one likes. -/
theorem exists_rounds {s : Settings} {start : System F ficiPort}
    (more : ∀ σ, (System.machine F ficiPort s).Reachable start σ →
      ∃ actions σ', Round s σ actions ∧ (System.machine F ficiPort s).exec σ actions = .ok σ') (k : Nat) :
    ∃ σ, Rounds s start k σ ∧ (System.machine F ficiPort s).Reachable start σ := by
  induction k with
  | zero => exact ⟨start, .none, .start⟩
  | succ k ih =>
      obtain ⟨σ, rounds, reached⟩ := ih
      obtain ⟨actions, σ', round, ran⟩ := more σ reached
      exact ⟨σ', .more rounds round ran, reached.exec_from (fun _ _ => trivial) ran⟩

/-- What all CPUs together have to go. -/
def System.far (s : Settings) (σ : System F ficiPort) (w : NodeId → Way) : Nat :=
  ∑ i ∈ Finset.range s.numProcs, (w i).rank s σ i

/-- The rank of a CPU whose answer memory is preparing. -/
def Settings.latches (s : Settings) (rank : Nat) : Prop :=
  7 ≤ rank % s.span ∧ rank % s.span ≤ 7 + s.latency

/-- An action that takes a CPU on: that of the CPU memory is working for, where there is one. -/
def Awaits (s : Settings) (σ : System F ficiPort) (w : NodeId → Way) (a : Action ficiPort) : Prop :=
  ∃ j < s.numProcs, (w j).rank s σ j ≠ 0 ∧
    (σ.dir.requestInProgress = true → s.latches ((w j).rank s σ j)) ∧
    awaited s j ((w j).rank s σ j) = a

/-- What holds in a run over private traces. -/
structure OnWay (L : Own F) (s : Settings) (traces : NodeId → List Instruction) (σ : System F ficiPort)
    (w : NodeId → Way) : Prop where
  net : Network s σ
  tracks : Tracks L s traces σ w
  timely : σ.Timely s

section

variable {L : Own F} {s : Settings} {traces : NodeId → List Instruction} {σ σ' : System F ficiPort}
  {w w' : NodeId → Way} {i j : NodeId}

theorem OnWay.soon (on : OnWay L s traces σ w) (below : j < s.numProcs) (x : Instruction) (need : Need)
    (leg : (w j).leg = .asked x need .latched) : σ.wait ≤ s.latency :=
  on.timely (on.tracks.latched j below x need leg).1

theorem OnWay.rank_mod (on : OnWay L s traces σ w) (below : j < s.numProcs) :
    (w j).rank s σ j % s.span = (w j).leg.rank s σ j :=
  Way.rank_mod (Leg.rank_lt (on.soon below))

/-- The rank tells whether memory is preparing the answer. -/
theorem OnWay.latches_iff (on : OnWay L s traces σ w) (below : j < s.numProcs) :
    s.latches ((w j).rank s σ j) ↔ ∃ x need, (w j).leg = .asked x need .latched := by
  have soon := on.soon below
  rw [Settings.latches, on.rank_mod below]
  constructor
  · cases leg : (w j).leg with
    | asked x need spot =>
        cases spot with
        | latched => exact fun _ => ⟨x, need, rfl⟩
        | sent =>
            simp only [Leg.rank]
            omega
        | granted =>
            have := grantedRank_le (s := s) (σ := σ) (i := j)
            simp only [Leg.rank]
            omega
    | idle | issued x | arrived x | answered x | returned x =>
        simp only [Leg.rank]
        omega
  · rintro ⟨x, need, leg⟩
    have := soon x need leg
    simp only [leg, Leg.rank]
    omega

theorem OnWay.busy_iff (on : OnWay L s traces σ w) :
    σ.dir.requestInProgress = true ↔ ∃ j < s.numProcs, s.latches ((w j).rank s σ j) := by
  constructor
  · intro busy
    obtain ⟨j, below, x, need, leg, -⟩ := on.tracks.latch busy
    exact ⟨j, below, (on.latches_iff below).mpr ⟨x, need, leg⟩⟩
  · rintro ⟨j, below, latches⟩
    obtain ⟨x, need, leg⟩ := (on.latches_iff below).mp latches
    exact (on.tracks.latched j below x need leg).1

theorem Lowers.far_le {a : Action ficiPort} (lowers : Lowers s σ σ' w w' a) : σ'.far s w' ≤ σ.far s w :=
  Finset.sum_le_sum fun j mem => lowers.le j (Finset.mem_range.mp mem)

/-- Where all together have come no further, nobody has. -/
theorem Lowers.same {a : Action ficiPort} (lowers : Lowers s σ σ' w w' a)
    (equal : ¬σ'.far s w' < σ.far s w) (below : j < s.numProcs) :
    (w' j).rank s σ' j = (w j).rank s σ j := by
  by_contra other
  refine equal (Finset.sum_lt_sum (fun j mem => lowers.le j (Finset.mem_range.mp mem)) ?_)
  exact ⟨j, Finset.mem_range.mpr below, lt_of_le_of_ne (lowers.le j below) other⟩

/-- What one step does for those that wait. -/
theorem OnWay.step (on : OnWay L s traces σ w) (small : s.numProcs ≤ kMaxSharers)
    (apart : PrivateTraces s traces) {a : Action ficiPort} (step : σ.step s a = .ok σ')
    (net' : Network s σ') :
    ∃ w', OnWay L s traces σ' w' ∧ σ'.far s w' ≤ σ.far s w ∧
      ∀ h, Awaits s σ w h → σ'.far s w' < σ.far s w ∨ a ≠ h ∧ Awaits s σ' w' h := by
  obtain ⟨w', tracks', lowers⟩ := on.tracks.lowers on.net on.timely small apart step
  have on' : OnWay L s traces σ' w' := ⟨net', tracks', on.timely.step step⟩
  refine ⟨w', on', lowers.far_le, ?_⟩
  rintro h ⟨j, below, some, first, awaits⟩
  by_cases less : σ'.far s w' < σ.far s w
  · exact .inl less
  refine .inr ⟨?_, j, below, ?_, fun busy => ?_, ?_⟩
  · rintro rfl
    obtain ⟨k, bound, lower⟩ :=
      lowers.due j below some (fun busy => (on.latches_iff below).mp (first busy)) awaits
    exact lower.ne (lowers.same less bound)
  · rwa [lowers.same less below]
  · -- Nobody's request has been taken up, so memory was at work before.
    obtain ⟨k, bound, latches⟩ := on'.busy_iff.mp busy
    rw [lowers.same less bound] at latches
    rw [lowers.same less below]
    exact first (on.busy_iff.mpr ⟨k, bound, latches⟩)
  · rwa [lowers.same less below]

/-- Somebody waits for an action of the round. -/
theorem OnWay.awaits (on : OnWay L s traces σ w) (some : σ.far s w ≠ 0)
    {actions : List (Action ficiPort)} (round : Round s σ actions) : ∃ h ∈ actions, Awaits s σ w h := by
  obtain ⟨j, below, rank, first⟩ : ∃ j < s.numProcs, (w j).rank s σ j ≠ 0 ∧
      (σ.dir.requestInProgress = true → s.latches ((w j).rank s σ j)) := by
    by_cases busy : σ.dir.requestInProgress = true
    · obtain ⟨j, below, latches⟩ := on.busy_iff.mp busy
      refine ⟨j, below, fun zero => ?_, fun _ => latches⟩
      simp only [Settings.latches, zero, Nat.zero_mod] at latches
      omega
    · obtain ⟨j, mem, rank⟩ := Finset.exists_ne_zero_of_sum_ne_zero some
      exact ⟨j, Finset.mem_range.mp mem, rank, fun yes => absurd yes busy⟩
  refine ⟨_, ?_, j, below, rank, first, rfl⟩
  cases awaits : awaited s j ((w j).rank s σ j) with
  | tick i =>
      obtain ⟨rfl, -⟩ := awaited_tick awaits
      exact round.tick j below
  | tock i =>
      obtain ⟨rfl, -⟩ := awaited_tock awaits
      exact round.tock j below
  | dirTick => exact round.dirTick
  | dirTock => exact round.dirTock
  | external i event => exact event.elim
  | deliver i =>
      obtain ⟨rfl, k⟩ := awaited_deliver awaits
      refine round.deliver j below fun empty => ?_
      have quick : σ.grantedRank s j ≠ 2 := by
        simp only [System.grantedRank, empty, if_true]
        split_ifs <;> omega
      rw [on.rank_mod below] at k
      generalize (w j).leg = leg at k
      cases leg with
      | asked x need spot => cases spot <;> simp only [Leg.rank] at k <;> omega
      | idle | issued x | arrived x | answered x | returned x =>
          simp only [Leg.rank] at k
          omega
  | dirDeliver i =>
      obtain ⟨rfl, k⟩ := awaited_dirDeliver awaits
      refine round.dirDeliver j below fun empty => ?_
      have quick : σ.sentRank s j ≠ 2 := by
        simp only [System.sentRank, empty, if_true]
        split_ifs <;> omega
      have soon := on.soon below
      rw [on.rank_mod below] at k
      generalize (w j).leg = leg at k soon
      cases leg with
      | asked x need spot =>
          have := grantedRank_le (s := s) (σ := σ) (i := j)
          cases spot with
          | latched =>
              have := soon x need rfl
              simp only [Leg.rank] at k
              omega
          | sent | granted =>
              simp only [Leg.rank] at k
              omega
      | idle | issued x | arrived x | answered x | returned x =>
          simp only [Leg.rank] at k
          omega

/-- A whole round takes somebody on, unless all have arrived. -/
theorem OnWay.round (L : Own F) (N : Laws F) (small : s.numProcs ≤ kMaxSharers)
    (apart : PrivateTraces s traces)
    (reached : (System.machine F ficiPort s).Reachable (coherenceMode F s traces) σ)
    (on : OnWay L s traces σ w) {actions : List (Action ficiPort)} (round : Round s σ actions)
    (ran : (System.machine F ficiPort s).exec σ actions = .ok σ') :
    (System.machine F ficiPort s).Reachable (coherenceMode F s traces) σ' ∧
      ∃ w', OnWay L s traces σ' w' ∧ σ'.far s w' ≤ σ.far s w - 1 := by
  obtain ⟨w', ⟨on', reached'⟩, le, lower⟩ := Machine.exec_lowers (m := System.machine F ficiPort s)
    (I := fun σ w => OnWay L s traces σ w ∧
      (System.machine F ficiPort s).Reachable (coherenceMode F s traces) σ)
    (System.far s) (Awaits s)
    (fun τ v a τ' ⟨on, reached⟩ step => by
      have reached' := reached.step trivial step
      obtain ⟨v', on', le, lower⟩ := on.step small apart step (Tracks.run L N small apart reached').1
      exact ⟨v', ⟨on', reached'⟩, le, lower⟩)
    ⟨on, reached⟩ ran
  refine ⟨reached', w', on', ?_⟩
  by_cases some : σ.far s w = 0
  · omega
  · obtain ⟨h, mem, awaits⟩ := on.awaits some round
    have := lower h mem awaits
    omega

/-- The rounds that suffice. -/
def roundsEnough (s : Settings) (traces : NodeId → List Instruction) : Nat :=
  ∑ i ∈ Finset.range s.numProcs, (traces i).length * s.span

theorem Rounds.far (L : Own F) (N : Laws F) (small : s.numProcs ≤ kMaxSharers)
    (apart : PrivateTraces s traces) {k : Nat} (rounds : Rounds s (coherenceMode F s traces) k σ) :
    (System.machine F ficiPort s).Reachable (coherenceMode F s traces) σ ∧
      ∃ w, OnWay L s traces σ w ∧ σ.far s w ≤ roundsEnough s traces - k := by
  induction rounds with
  | none =>
      refine ⟨.start, _, ⟨(Tracks.run L N small apart .start).1, .initial L s traces, nofun⟩, ?_⟩
      exact Nat.le_of_eq rfl
  | more rounds round ran ih =>
      obtain ⟨reached, w, on, le⟩ := ih
      obtain ⟨reached', w', on', less⟩ := on.round L N small apart reached round ran
      exact ⟨reached', w', on', by omega⟩

/-- Nobody has anything to go. -/
theorem OnWay.isDone (on : OnWay L s traces σ w) (arrived : σ.far s w = 0) : σ.isDone s := by
  intro i below
  have zero := Finset.sum_eq_zero_iff.mp arrived i (Finset.mem_range.mpr below)
  have cpu := (on.tracks.node i below).cpu
  have way := on.tracks.trace i below
  simp only [Way.rank, Nat.add_eq_zero_iff, Nat.mul_eq_zero, List.length_eq_zero_iff] at zero
  obtain ⟨rest | none, leg⟩ := zero
  · have idle : (w i).leg = .idle := by
      cases here : (w i).leg with
      | idle => rfl
      | asked x need spot =>
          rw [here] at leg
          cases spot <;> simp only [Leg.rank] at leg <;> omega
      | issued x | arrived x | answered x | returned x =>
          rw [here] at leg
          simp only [Leg.rank] at leg
          omega
    rw [cpu]
    simp [FiciCpu.isDone, Way.cpu, rest, idle, Leg.busy]
  · simp only [Settings.span] at none
    omega

/-! ## There is always another round -/

/-- Actions that take nothing out of a channel, except what is handed over to `mine`. -/
structure Course (s : Settings) (mine : NodeId → Prop) (σ : System F ficiPort)
    (actions : List (Action ficiPort)) (σ' : System F ficiPort) : Prop where
  ran : (System.machine F ficiPort s).exec σ actions = .ok σ'
  down : ∀ j, ¬mine j → σ.chan s.numProcs j ≠ [] → σ'.chan s.numProcs j ≠ []
  up : ∀ j, σ.chan j s.numProcs ≠ [] → σ'.chan j s.numProcs ≠ []

section

variable {mine other : NodeId → Prop} {σ₁ σ₂ σ₃ : System F ficiPort} {xs ys : List (Action ficiPort)}

theorem Course.empty (s : Settings) (mine : NodeId → Prop) (σ : System F ficiPort) : Course s mine σ [] σ :=
  ⟨rfl, fun _ _ => id, fun _ => id⟩

theorem Course.append (first : Course s mine σ₁ xs σ₂) (second : Course s other σ₂ ys σ₃) :
    Course s (fun j => mine j ∨ other j) σ₁ (xs ++ ys) σ₃ where
  ran := by
    rw [Machine.exec_append, first.ran]
    exact second.ran
  down j neither some := second.down j (fun yes => neither (.inr yes))
    (first.down j (fun yes => neither (.inl yes)) some)
  up j some := second.up j (first.up j some)

theorem Course.widen (course : Course s mine σ₁ xs σ₂) (wider : ∀ j, mine j → other j) :
    Course s other σ₁ xs σ₂ :=
  ⟨course.ran, fun j not => course.down j fun yes => not (wider j yes), course.up⟩

theorem Course.one {a : Action ficiPort} (step : σ₁.step s a = .ok σ₂)
    (down : ∀ j, ¬mine j → σ₁.chan s.numProcs j ≠ [] → σ₂.chan s.numProcs j ≠ [])
    (up : ∀ j, σ₁.chan j s.numProcs ≠ [] → σ₂.chan j s.numProcs ≠ []) : Course s mine σ₁ [a] σ₂ := by
  refine ⟨?_, down, up⟩
  have step : (System.machine F ficiPort s).step σ₁ a = .ok σ₂ := step
  simp only [Machine.exec, step]

end

theorem Course.tock (bound : i < s.numProcs) (ticked : σ.ticked i = true) :
    ∃ σ', Course s (fun _ => False) σ [.tock i] σ' ∧ σ'.ticked i = false := by
  have ne : s.numProcs ≠ i := ne_of_gt bound
  refine ⟨{ σ with
      cpus := Function.update σ.cpus i (σ.cpus i).tock
      chan := System.send σ.chan i (σ.cpus i).ntwkOutNext
      ticked := Function.update σ.ticked i false },
    .one (by simp only [System.step, bound, ticked, and_self, if_true]) (fun j _ some => ?_)
      (fun j some => ?_), Function.update_self ..⟩
  · simpa only [send_of_ne _ _ ne] using some
  · by_cases eq : j = i
    · subst eq
      simp only [send_self]
      exact List.append_ne_nil_of_left_ne_nil some _
    · simpa only [send_of_ne _ _ eq] using some

theorem Course.tick (tracks : Tracks L s traces σ w) (net : Network s σ) (bound : i < s.numProcs)
    (waits : σ.ticked i = false) :
    ∃ σ', Course s (fun _ => False) σ [.tick i] σ' ∧ σ'.ticked i = true ∧
      (σ'.cpus i).ntwkInNext = none := by
  obtain ⟨n, st, ticked, -⟩ := tracks.nodeTick bound
  refine ⟨{ σ with
      cpus := Function.update σ.cpus i n
      ticked := Function.update σ.ticked i true
      stats := st },
    .one (by simp only [System.step, bound, waits, and_self, if_true, ticked]) (fun _ _ => id) (fun _ => id),
    Function.update_self .., ?_⟩
  simp only [Function.update_self]
  exact (tick_ticked ticked).1.ntwkInNext.trans (net.tocked i bound waits)

theorem Course.deliver (bound : i < s.numProcs) (ticked : σ.ticked i = true)
    (free : (σ.cpus i).ntwkInNext = none) (some : σ.chan s.numProcs i ≠ []) :
    ∃ σ', Course s (· = i) σ [.deliver i] σ' ∧ σ'.ticked i = true := by
  obtain ⟨m, rest, queue⟩ := List.exists_cons_of_ne_nil some
  have ne : i ≠ s.numProcs := ne_of_lt bound
  refine ⟨{ σ with
      cpus := Function.update σ.cpus i { σ.cpus i with ntwkInNext := m }
      chan := Function.update σ.chan s.numProcs (Function.update (σ.chan s.numProcs) i rest) },
    .one (by simp only [System.step, bound, ticked, free, and_self, if_true, queue]) (fun j other some => ?_)
      (fun j some => ?_), ticked⟩
  · simpa only [Function.update_self, Function.update_of_ne other] using some
  · by_cases eq : j = s.numProcs
    · subst eq
      simpa only [Function.update_self, Function.update_of_ne ne.symm] using some
    · simpa only [Function.update_of_ne eq] using some

theorem Course.dirTock (ticked : σ.ticked s.numProcs = true) :
    ∃ σ', Course s (fun _ => False) σ [.dirTock] σ' ∧ σ'.ticked s.numProcs = false ∧
      σ'.clock = σ.clock + 1 := by
  refine ⟨{ σ with
      dir := { σ.dir.tock with ntwkOutNext := [] }
      chan := System.send σ.chan s.numProcs σ.dir.ntwkOutNext
      ticked := Function.update σ.ticked s.numProcs false
      clock := σ.clock + 1 },
    .one (by simp only [System.step, ticked, if_true]) (fun j _ some => ?_) (fun j some => ?_),
    Function.update_self .., rfl⟩
  · simp only [send_self]
    exact List.append_ne_nil_of_left_ne_nil some _
  · by_cases eq : j = s.numProcs
    · subst eq
      simp only [send_self]
      exact List.append_ne_nil_of_left_ne_nil some _
    · simpa only [send_of_ne _ _ eq] using some

theorem Course.dirTick (tracks : Tracks L s traces σ w) (net : Network s σ)
    (small : s.numProcs ≤ kMaxSharers) (apart : PrivateTraces s traces)
    (waits : σ.ticked s.numProcs = false) :
    ∃ σ', Course s (fun _ => False) σ [.dirTick] σ' ∧ σ'.ticked s.numProcs = true ∧
      σ'.clock = σ.clock := by
  obtain ⟨d, st, taken, -⟩ := tracks.clocked.processQueue net.clocked small apart
  exact ⟨{ σ with
      dir := (d.respond s F.usesE st).1
      ticked := Function.update σ.ticked s.numProcs true
      stats := (d.respond s F.usesE st).2 },
    .one (by simp only [System.step, waits, if_true, tickDir_ok taken]) (fun _ _ => id) (fun _ => id),
    Function.update_self .., rfl⟩

/-- Reaching further. -/
theorem Course.reached {mine : NodeId → Prop} {start : System F ficiPort} {xs : List (Action ficiPort)}
    (course : Course s mine σ xs σ') (reached : (System.machine F ficiPort s).Reachable start σ) :
    (System.machine F ficiPort s).Reachable start σ' :=
  reached.exec_from (fun _ _ => trivial) course.ran

section

variable (L) (N : Laws F) (small : s.numProcs ≤ kMaxSharers) (apart : PrivateTraces s traces)
include L N small apart

/-- A node's turn. -/
theorem Course.turn (reached : (System.machine F ficiPort s).Reachable (coherenceMode F s traces) σ)
    (bound : i < s.numProcs) :
    ∃ actions σ', Course s (· = i) σ actions σ' ∧ .tick i ∈ actions ∧ .tock i ∈ actions ∧
      (σ.chan s.numProcs i ≠ [] → .deliver i ∈ actions) := by
  obtain ⟨σ₁, xs, first, waits⟩ : ∃ σ₁ xs, Course s (fun _ => False) σ xs σ₁ ∧ σ₁.ticked i = false := by
    cases ticked : σ.ticked i with
    | false => exact ⟨σ, [], .empty .., ticked⟩
    | true =>
        obtain ⟨σ₁, course, waits⟩ := Course.tock bound ticked
        exact ⟨σ₁, _, course, waits⟩
  obtain ⟨net, w, tracks⟩ := Tracks.run L N small apart (first.reached reached)
  obtain ⟨σ₂, second, ticked, free⟩ := Course.tick tracks net bound waits
  obtain ⟨σ₃, ys, third, ticked, handed⟩ : ∃ σ₃ ys, Course s (· = i) σ₂ ys σ₃ ∧ σ₃.ticked i = true ∧
      (σ₂.chan s.numProcs i ≠ [] → .deliver i ∈ ys) := by
    by_cases empty : σ₂.chan s.numProcs i = []
    · exact ⟨σ₂, [], .empty .., ticked, fun some => absurd empty some⟩
    · obtain ⟨σ₃, course, ticked⟩ := Course.deliver bound ticked free empty
      exact ⟨σ₃, _, course, ticked, fun _ => List.mem_singleton_self _⟩
  obtain ⟨σ₄, fourth, -⟩ := Course.tock bound ticked
  have before := first.append second
  refine ⟨_, σ₄, ((before.append third).append fourth).widen ?_, ?_, ?_, fun some => ?_⟩
  · rintro j (((no | no) | mine) | no)
    · exact no.elim
    · exact no.elim
    · exact mine
    · exact no.elim
  · simp
  · simp
  · have there := before.down i (fun no => no.elim id id) some
    simp [handed there]

/-- The turns of the first nodes. -/
theorem Course.turns (reached : (System.machine F ficiPort s).Reachable (coherenceMode F s traces) σ) (m : Nat)
    (within : m ≤ s.numProcs) :
    ∃ actions σ', Course s (· < m) σ actions σ' ∧ ∀ i < m, .tick i ∈ actions ∧ .tock i ∈ actions ∧
      (σ.chan s.numProcs i ≠ [] → .deliver i ∈ actions) := by
  induction m with
  | zero => exact ⟨[], σ, .empty .., fun i no => absurd no (Nat.not_lt_zero i)⟩
  | succ m ih =>
      obtain ⟨xs, σ₁, first, turns⟩ := ih (Nat.le_of_succ_le within)
      obtain ⟨ys, σ₂, second, tick, tock, deliver⟩ := Course.turn L N small apart (first.reached reached) within
      refine ⟨xs ++ ys, σ₂, (first.append second).widen ?_, fun i below => ?_⟩
      · rintro j (less | rfl)
        · exact Nat.lt_succ_of_lt less
        · exact Nat.lt_succ_self j
      · rcases Nat.lt_succ_iff_lt_or_eq.mp below with less | rfl
        · obtain ⟨tick, tock, deliver⟩ := turns i less
          exact ⟨List.mem_append_left _ tick, List.mem_append_left _ tock,
            fun some => List.mem_append_left _ (deliver some)⟩
        · exact ⟨List.mem_append_right _ tick, List.mem_append_right _ tock,
            fun some => List.mem_append_right _ (deliver (first.down i (Nat.lt_irrefl i) some))⟩

omit L N small apart in
/-- The first nodes' messages reach the directory. -/
theorem dirDelivers (ticked : σ.ticked s.numProcs = true) (m : Nat) (within : m ≤ s.numProcs) :
    ∃ actions σ', (System.machine F ficiPort s).exec σ actions = .ok σ' ∧ σ'.ticked s.numProcs = true ∧
      (∀ j, m ≤ j → σ'.chan j = σ.chan j) ∧
      ∀ i < m, σ.chan i s.numProcs ≠ [] → .dirDeliver i ∈ actions := by
  induction m with
  | zero => exact ⟨[], σ, rfl, ticked, fun _ _ => rfl, fun i no => absurd no (Nat.not_lt_zero i)⟩
  | succ m ih =>
      obtain ⟨xs, σ₁, ran, ticked, kept, handed⟩ := ih (Nat.le_of_succ_le within)
      cases queue : σ₁.chan m s.numProcs with
      | nil =>
          refine ⟨xs, σ₁, ran, ticked, fun j above => kept j (Nat.le_of_succ_le above), fun i below some => ?_⟩
          rcases Nat.lt_succ_iff_lt_or_eq.mp below with less | rfl
          · exact handed i less some
          · rw [kept i (Nat.le_refl i)] at queue
            exact absurd queue some
      | cons r rest =>
          obtain ⟨τ, step, ticks, others⟩ : ∃ τ, σ₁.step s (.dirDeliver m) = .ok τ ∧
              τ.ticked = σ₁.ticked ∧ ∀ j, j ≠ m → τ.chan j = σ₁.chan j :=
            ⟨{ σ₁ with
              dir := { σ₁.dir with requestNext := σ₁.dir.requestNext ++ [r] }
              chan := Function.update σ₁.chan m (Function.update (σ₁.chan m) s.numProcs rest) },
              by simp only [System.step, Nat.lt_of_succ_le within, ticked, and_self, if_true, queue], rfl,
              fun j ne => Function.update_of_ne ne _ _⟩
          refine ⟨xs ++ [.dirDeliver m], τ, ?_, by rw [ticks, ticked], fun j above => ?_, fun i below some => ?_⟩
          · have step : (System.machine F ficiPort s).step σ₁ (.dirDeliver m) = .ok τ := step
            rw [Machine.exec_append, ran]
            simp only [Except.bind, Machine.exec, step]
          · rw [others j (Nat.ne_of_gt above), kept j (Nat.le_of_succ_le above)]
          · rcases Nat.lt_succ_iff_lt_or_eq.mp below with less | rfl
            · exact List.mem_append_left _ (handed i less some)
            · simp

/-- From every state that a run reaches there is another round. -/
theorem exists_round (reached : (System.machine F ficiPort s).Reachable (coherenceMode F s traces) σ) :
    ∃ actions σ', Round s σ actions ∧ (System.machine F ficiPort s).exec σ actions = .ok σ' := by
  obtain ⟨xs, σ₁, first, turns⟩ := Course.turns L N small apart reached s.numProcs le_rfl
  obtain ⟨σ₂, ys, second, waits⟩ :
      ∃ σ₂ ys, Course s (fun _ => False) σ₁ ys σ₂ ∧ σ₂.ticked s.numProcs = false := by
    cases ticked : σ₁.ticked s.numProcs with
    | false => exact ⟨σ₁, [], .empty .., ticked⟩
    | true =>
        obtain ⟨σ₂, course, waits, -⟩ := Course.dirTock ticked
        exact ⟨σ₂, _, course, waits⟩
  have before := first.append second
  obtain ⟨net, w, tracks⟩ := Tracks.run L N small apart (before.reached reached)
  obtain ⟨σ₃, third, ticked, -⟩ := Course.dirTick tracks net small apart waits
  have before := before.append third
  obtain ⟨zs, σ₄, ran, ticked, -, handed⟩ := dirDelivers ticked s.numProcs le_rfl
  obtain ⟨σ₅, last, -⟩ := Course.dirTock ticked
  refine ⟨xs ++ ys ++ [.dirTick] ++ zs ++ [.dirTock], σ₅, ⟨fun i below => ?_, fun i below => ?_,
    fun i below some => ?_, ?_, ?_, fun i below some => ?_⟩, ?_⟩
  · simp [(turns i below).1]
  · simp [(turns i below).2.1]
  · simp [(turns i below).2.2 some]
  · simp
  · simp
  · simp [handed i below (before.up i some)]
  · rw [Machine.exec_append, Machine.exec_append, before.ran]
    simp only [Except.bind, ran]
    exact last.ran

end

end

end Coherence
