import MulticoreSim.Coherence.PrivateRuns

/-! # Traces that share nothing come to an end

Every CPU's distance to the end of its trace never grows, and some action that is
due makes it shorter. So it is gone after as many rounds as it is long at first.
-/

namespace Coherence

/-! ## How far a CPU has to go -/

section

variable {F : ProtocolFsm} (s : Settings) (σ : System F ficiPort) (i : NodeId)

/-- The longest wait for an answer from memory. -/
def Settings.latency : Nat := s.memLatency + s.llsHitLatency

/-- Steps of a request to the directory's queue. -/
def System.sentRank : Nat :=
  if (σ.cpus i).ntwkOutNext = [] then
    if σ.chan i s.numProcs = [] then
      if σ.dir.requestNext.filter (·.src = i) = [] then 0 else 1
    else 2
  else 3

/-- Steps of a grant to the agent. -/
def System.grantedRank : Nat :=
  if (σ.cpus i).ntwkIn = none then
    if (σ.cpus i).ntwkInNext = none then
      if σ.chan s.numProcs i = [] then 3 else 2
    else 1
  else 0

/-- Cycles until memory answers. -/
def System.wait : Nat := σ.dir.responseTime - σ.clock

/-- Steps of a request to its end. -/
def Leg.rank : Leg → Nat
  | .idle => 0
  | .returned _ => 1
  | .answered _ => 2
  | .asked _ _ .granted => 3 + σ.grantedRank s i
  | .asked _ _ .latched => 7 + σ.wait
  | .asked _ _ .sent => 8 + s.latency + σ.sentRank s i
  | .arrived _ => 12 + s.latency
  | .issued _ => 13 + s.latency

/-- What one access may take. -/
def Settings.span : Nat := 14 + s.latency

/-- Steps to the end of the trace. -/
def Way.rank (w : Way) : Nat := w.rest.length * s.span + w.leg.rank s σ i

/-- The action that takes a CPU of the given rank on. -/
def awaited (rank : Nat) : Action ficiPort :=
  let k := rank % s.span
  if k = 2 ∨ k = 4 ∨ k = 11 + s.latency ∨ k = 13 + s.latency then .tock i
  else if k = 5 then .deliver i
  else if k = 10 + s.latency then .dirDeliver i
  else if k = 7 ∨ k = 8 + s.latency then .dirTick
  else if k = 6 ∨ 8 ≤ k ∧ k ≤ 9 + s.latency then .dirTock
  else .tick i

end

section

variable {F : ProtocolFsm} {L : Own F} {s : Settings} {traces : NodeId → List Instruction}
  {σ σ' : System F ficiPort} {w : NodeId → Way} {i j : NodeId}

theorem sentRank_le : σ.sentRank s i ≤ 3 := by
  unfold System.sentRank
  split_ifs <;> omega

theorem grantedRank_le : σ.grantedRank s i ≤ 3 := by
  unfold System.grantedRank
  split_ifs <;> omega

/-- The answer from memory comes in time. -/
def System.Timely (s : Settings) (σ : System F ficiPort) : Prop :=
  σ.dir.requestInProgress = true → σ.wait ≤ s.latency

/-- The parts of the state that a CPU's rank is read from. -/
structure SameRank (s : Settings) (σ σ' : System F ficiPort) (j : NodeId) : Prop where
  out : (σ'.cpus j).ntwkOutNext = (σ.cpus j).ntwkOutNext
  ntwkIn : (σ'.cpus j).ntwkIn = (σ.cpus j).ntwkIn
  ntwkInNext : (σ'.cpus j).ntwkInNext = (σ.cpus j).ntwkInNext
  up : σ'.chan j s.numProcs = σ.chan j s.numProcs
  down : σ'.chan s.numProcs j = σ.chan s.numProcs j
  next : σ'.dir.requestNext.filter (·.src = j) = σ.dir.requestNext.filter (·.src = j)

theorem SameRank.rank {v : Way} (same : SameRank s σ σ' j)
    (wait : ∀ x need, v.leg = .asked x need .latched → σ'.wait = σ.wait) :
    v.rank s σ' j = v.rank s σ j := by
  have sent : σ'.sentRank s j = σ.sentRank s j := by
    simp only [System.sentRank, same.out, same.up, same.next]
  have granted : σ'.grantedRank s j = σ.grantedRank s j := by
    simp only [System.grantedRank, same.ntwkIn, same.ntwkInNext, same.down]
  simp only [Way.rank, Leg.rank, sent, granted]
  split <;> first | rfl | (rw [wait _ _ ‹_›])

theorem awaited_tick {k : Nat} (tick : awaited s j k = .tick i) :
    j = i ∧ (k % s.span = 0 ∨ k % s.span = 1 ∨ k % s.span = 3 ∨ 12 + s.latency ≤ k % s.span ∧
      k % s.span ≠ 13 + s.latency) := by
  simp only [awaited] at tick
  generalize k % s.span = k at tick ⊢
  split_ifs at tick
  exact ⟨Action.tick.inj tick, by omega⟩

theorem awaited_tock {k : Nat} (tock : awaited s j k = .tock i) :
    j = i ∧ (k % s.span = 2 ∨ k % s.span = 4 ∨ k % s.span = 11 + s.latency ∨
      k % s.span = 13 + s.latency) := by
  simp only [awaited] at tock
  generalize k % s.span = k at tock ⊢
  split_ifs at tock
  exact ⟨Action.tock.inj tock, by omega⟩

theorem awaited_deliver {k : Nat} (deliver : awaited s j k = .deliver i) :
    j = i ∧ k % s.span = 5 := by
  simp only [awaited] at deliver
  generalize k % s.span = k at deliver ⊢
  split_ifs at deliver
  exact ⟨Action.deliver.inj deliver, by omega⟩

theorem awaited_dirDeliver {k : Nat} (deliver : awaited s j k = .dirDeliver i) :
    j = i ∧ k % s.span = 10 + s.latency := by
  simp only [awaited] at deliver
  generalize k % s.span = k at deliver ⊢
  split_ifs at deliver
  exact ⟨Action.dirDeliver.inj deliver, by omega⟩

theorem awaited_dirTick {k : Nat} (tick : awaited s j k = .dirTick) :
    k % s.span = 7 ∨ k % s.span = 8 + s.latency := by
  simp only [awaited] at tick
  generalize k % s.span = k at tick ⊢
  split_ifs at tick
  omega

theorem awaited_dirTock {k : Nat} (tock : awaited s j k = .dirTock) :
    k % s.span = 6 ∨ 8 ≤ k % s.span ∧ k % s.span ≤ 9 + s.latency ∧ k % s.span ≠ 8 + s.latency := by
  simp only [awaited] at tock
  generalize k % s.span = k at tock ⊢
  split_ifs at tock
  omega

theorem Leg.rank_lt {leg : Leg} (timely : ∀ x need, leg = .asked x need .latched → σ.wait ≤ s.latency) : leg.rank s σ j < s.span := by
  unfold Settings.span
  cases leg with
  | asked x need spot =>
      cases spot with
      | sent =>
          have := sentRank_le (s := s) (σ := σ) (i := j)
          simp only [Leg.rank]
          omega
      | latched =>
          have := timely x need rfl
          simp only [Leg.rank]
          omega
      | granted =>
          have := grantedRank_le (s := s) (σ := σ) (i := j)
          simp only [Leg.rank]
          omega
  | idle | issued x | arrived x | answered x | returned x =>
      simp only [Leg.rank]
      omega

theorem Way.rank_mod {v : Way} (less : v.leg.rank s σ j < s.span) :
    v.rank s σ j % s.span = v.leg.rank s σ j := by
  rw [Way.rank, Nat.mul_add_mod', Nat.mod_eq_of_lt less]

/-- What a step does to the ranks: none grows, and one that the step is awaited for shrinks. -/
structure Lowers (s : Settings) (σ σ' : System F ficiPort) (w w' : NodeId → Way) (a : Action ficiPort) :
    Prop where
  le : ∀ j < s.numProcs, (w' j).rank s σ' j ≤ (w j).rank s σ j
  due : ∀ j < s.numProcs, (w j).rank s σ j ≠ 0 →
    (σ.dir.requestInProgress = true → ∃ x need, (w j).leg = .asked x need .latched) →
    awaited s j ((w j).rank s σ j) = a → ∃ k < s.numProcs, (w' k).rank s σ' k < (w k).rank s σ k

/-- Only one node's rank changes. -/
theorem Lowers.node {a : Action ficiPort} {w' : NodeId → Way} (bound : i < s.numProcs)
    (time : σ'.wait = σ.wait) (others : ∀ j < s.numProcs, j ≠ i → SameRank s σ σ' j ∧ w' j = w j)
    (about : ∀ j k, awaited s j k = a → j = i)
    (own : (w' i).rank s σ' i < (w i).rank s σ i ∨ (w' i).rank s σ' i = (w i).rank s σ i ∧
      ((w i).rank s σ i = 0 ∨ awaited s i ((w i).rank s σ i) ≠ a)) :
    Lowers s σ σ' w w' a where
  le j below := by
    by_cases eq : j = i
    · subst eq
      omega
    · rw [(others j below eq).2, (others j below eq).1.rank fun _ _ _ => time]
  due j _ some _ awaits := by
    have eq := about j _ awaits
    subst eq
    rcases own with less | ⟨-, zero | other⟩
    · exact ⟨j, bound, less⟩
    · exact absurd zero some
    · exact absurd awaits other

/-- A CPU node's tick. -/
theorem Tracks.lowers_tick (tracks : Tracks L s traces σ w) (timely : σ.Timely s) (step : σ.step s (.tick i) = .ok σ') :
    Lowers s σ σ' w (Function.update w i ((w i).tick L.manner s (σ.cpus i).ntwkIn)) (.tick i) := by
  have after := tracks.tick step
  simp only [System.step] at step
  split at step
  · next here =>
      split at step
      · cases step
      · next n st ticked =>
          cases step
          obtain ⟨bound, -⟩ := here
          obtain ⟨frame, -, mail⟩ := tick_ticked ticked
          have next : n.ntwkInNext = (σ.cpus i).ntwkInNext := frame.ntwkInNext
          refine Lowers.node bound rfl (fun j _ ne => ⟨?_, ?_⟩) (fun j k awaits => (awaited_tick awaits).1) ?_
          · constructor <;> first | rfl | simp [Function.update_of_ne ne]
          · rw [Function.update_of_ne ne]
          · rw [Function.update_self]
            have up := after.up i bound
            have old := tracks.up i bound
            rw [Function.update_self] at up
            simp only [System.carried, Function.update_self] at up old
            have arrived {m : Message} := tracks.arrived bound (m := m)
            have latched := tracks.latched i bound
            generalize w i = v at *
            obtain ⟨past, leg, rest⟩ := v
            have quiet (other : ∀ x need, leg ≠ .asked x need .granted) :
                (σ.cpus i).ntwkIn = none := by
              by_contra some
              obtain ⟨m, mail⟩ := Option.ne_none_iff_exists'.mp some
              obtain ⟨x, need, granted, -⟩ := arrived mail
              exact other x need granted
            cases leg with
            | idle =>
                rw [quiet (by simp)]
                cases rest with
                | nil => exact .inr ⟨rfl, .inl (by simp [Way.rank, Leg.rank])⟩
                | cons y rest =>
                    left
                    simp only [Way.tick, Way.receive, Way.issue, Way.ask, Option.isSome_none,
                      Bool.false_eq_true, if_false, Way.rank, Leg.rank, List.length_cons, Nat.succ_mul,
                      Settings.span]
                    omega
            | returned x =>
                rw [quiet (by simp)]
                left
                cases rest with
                | nil => simp [Way.tick, Way.receive, Way.issue, Way.ask, Way.rank, Leg.rank]
                | cons y rest =>
                    simp only [Way.tick, Way.receive, Way.issue, Way.ask, Option.isSome_none,
                      Bool.false_eq_true, if_false, Way.rank, Leg.rank, List.length_cons, Nat.succ_mul,
                      Settings.span]
                    omega
            | issued x =>
                rw [quiet (by simp)]
                refine .inr ⟨rfl, .inr fun awaits => ?_⟩
                have due := (awaited_tick awaits).2
                rw [Way.rank_mod (v := ⟨past, .issued x, rest⟩) (Leg.rank_lt (by simp))] at due
                simp only [Leg.rank] at due
                omega
            | arrived x =>
                rw [quiet (by simp)]
                left
                cases lacks : (L.manner.hold s past (x.block s)).lacks x.kind with
                | none =>
                    simp [Way.tick, Way.receive, Way.issue, Way.ask, lacks, Way.rank, Leg.rank]
                    omega
                | some need =>
                    simp only [Way.tick, Way.receive, Way.issue, Way.ask, lacks, Option.isSome_none,
                      Bool.false_eq_true, if_false, Way.rank, Leg.rank]
                    have := sentRank_le (s := s) (i := i) (σ := { σ with
                      cpus := Function.update σ.cpus i n
                      ticked := Function.update σ.ticked i true
                      stats := st })
                    omega
            | asked x need spot =>
                cases spot with
                | sent =>
                    rw [quiet (by simp)] at up ⊢
                    have same : System.sentRank s { σ with
                        cpus := Function.update σ.cpus i n
                        ticked := Function.update σ.ticked i true
                        stats := st } i = σ.sentRank s i := by
                      have before := old.length_eq
                      have now := up.length_eq
                      simp only [Way.tick, Way.receive, Way.issue, Way.ask, Option.isSome_none,
                        Bool.false_eq_true, if_false, List.length_append] at before now
                      have length : n.ntwkOutNext.length = (σ.cpus i).ntwkOutNext.length := by omega
                      simp only [System.sentRank, Function.update_self, ← List.length_eq_zero_iff, length]
                    refine .inr ⟨?_, .inr fun awaits => ?_⟩
                    · simp only [Way.tick, Way.receive, Way.issue, Way.ask, Option.isSome_none,
                        Bool.false_eq_true, if_false, Way.rank, Leg.rank, same]
                    · have due := (awaited_tick awaits).2
                      rw [Way.rank_mod (v := ⟨past, .asked x need .sent, rest⟩) (Leg.rank_lt (by simp))] at due
                      simp only [Leg.rank] at due
                      have := sentRank_le (s := s) (σ := σ) (i := i)
                      omega
                | latched =>
                    rw [quiet (by simp)]
                    refine .inr ⟨rfl, .inr fun awaits => ?_⟩
                    have soon := timely (latched x need rfl).1
                    have due := (awaited_tick awaits).2
                    rw [Way.rank_mod (v := ⟨past, .asked x need .latched, rest⟩)
                      (Leg.rank_lt fun _ _ _ => soon)] at due
                    simp only [Leg.rank] at due
                    omega
                | granted =>
                    cases mailed : (σ.cpus i).ntwkIn with
                    | some m =>
                        left
                        simp only [Way.tick, Way.receive, Way.issue, Way.ask, Option.isSome_some, if_true,
                          Way.accept, Way.rank, Leg.rank]
                        omega
                    | none =>
                        have same : System.grantedRank s { σ with
                            cpus := Function.update σ.cpus i n
                            ticked := Function.update σ.ticked i true
                            stats := st } i = σ.grantedRank s i := by
                          simp only [System.grantedRank, Function.update_self, mail, next, mailed]
                        refine .inr ⟨?_, .inr fun awaits => ?_⟩
                        · simp only [Way.tick, Way.receive, Way.issue, Way.ask, Option.isSome_none,
                            Bool.false_eq_true, if_false, Way.rank, Leg.rank, same]
                        · have due := (awaited_tick awaits).2
                          rw [Way.rank_mod (v := ⟨past, .asked x need .granted, rest⟩)
                            (Leg.rank_lt (by simp))] at due
                          have := grantedRank_le (s := s) (σ := σ) (i := i)
                          have some : σ.grantedRank s i ≠ 0 := by
                            simp only [System.grantedRank, mailed, if_true]
                            split_ifs <;> omega
                          simp only [Leg.rank] at due
                          omega
            | answered x =>
                rw [quiet (by simp)]
                refine .inr ⟨rfl, .inr fun awaits => ?_⟩
                have due := (awaited_tick awaits).2
                rw [Way.rank_mod (v := ⟨past, .answered x, rest⟩) (Leg.rank_lt (by simp))] at due
                simp only [Leg.rank] at due
                omega
  · cases step

/-- A CPU node's tock. -/
theorem Tracks.lowers_tock (tracks : Tracks L s traces σ w) (net : Network s σ) (timely : σ.Timely s)
    (step : σ.step s (.tock i) = .ok σ') :
    Lowers s σ σ' w (Function.update w i (w i).tock) (.tock i) := by
  simp only [System.step] at step
  split at step
  · next here =>
      cases step
      obtain ⟨bound, ticked⟩ := here
      obtain ⟨free, -⟩ := net.ticked i bound ticked
      have ne : s.numProcs ≠ i := ne_of_gt bound
      refine Lowers.node bound rfl (fun j _ other => ⟨?_, ?_⟩) (fun j k awaits => (awaited_tock awaits).1) ?_
      · constructor <;> first
          | rfl
          | simp [Function.update_of_ne other, send_of_ne _ _ other, send_of_ne _ _ ne]
      · rw [Function.update_of_ne other]
      · rw [Function.update_self]
        have latched := tracks.latched i bound
        generalize w i = v at *
        obtain ⟨past, leg, rest⟩ := v
        cases leg with
        | issued x | answered x =>
            left
            simp only [Way.tock, Way.rank, Leg.rank]
            omega
        | idle | arrived x | returned x =>
            refine .inr ⟨rfl, .inr fun awaits => ?_⟩
            have due := (awaited_tock awaits).2
            rw [Way.rank_mod (Leg.rank_lt fun _ _ leg => by cases leg)] at due
            simp only [Leg.rank] at due
            omega
        | asked x need spot =>
            cases spot with
            | latched =>
                refine .inr ⟨rfl, .inr fun awaits => ?_⟩
                have soon := timely (latched x need rfl).1
                have due := (awaited_tock awaits).2
                rw [Way.rank_mod (Leg.rank_lt fun _ _ _ => soon)] at due
                simp only [Leg.rank] at due
                omega
            | sent =>
                by_cases empty : (σ.cpus i).ntwkOutNext = []
                · refine .inr ⟨?_, .inr fun awaits => ?_⟩
                  · simp only [Way.tock, Way.rank, Leg.rank, System.sentRank, Function.update_self, CpuNode.tock,
                      send_self, empty, List.filter_nil, List.append_nil]
                  · have due := (awaited_tock awaits).2
                    rw [Way.rank_mod (Leg.rank_lt fun _ _ leg => by cases leg)] at due
                    simp only [Leg.rank, System.sentRank, empty, if_true] at due
                    split_ifs at due <;> omega
                · left
                  simp only [Way.tock, Way.rank, Leg.rank, System.sentRank, Function.update_self, CpuNode.tock,
                    empty, if_true, if_false]
                  split_ifs <;> omega
            | granted =>
                cases mail : (σ.cpus i).ntwkInNext with
                | some m =>
                    left
                    simp only [Way.tock, Way.rank, Leg.rank, System.grantedRank, Function.update_self,
                      CpuNode.tock, mail, free, if_true]
                    simp
                | none =>
                    refine .inr ⟨?_, .inr fun awaits => ?_⟩
                    · simp only [Way.tock, Way.rank, Leg.rank, System.grantedRank, Function.update_self,
                        CpuNode.tock, mail, free, Option.or_none, send_of_ne _ _ ne]
                    · have due := (awaited_tock awaits).2
                      rw [Way.rank_mod (Leg.rank_lt fun _ _ leg => by cases leg)] at due
                      simp only [Leg.rank, System.grantedRank, mail, free, if_true] at due
                      split_ifs at due <;> omega
  · cases step

/-- A message reaches a node. -/
theorem Tracks.lowers_deliver (tracks : Tracks L s traces σ w) (net : Network s σ)
    (step : σ.step s (.deliver i) = .ok σ') : Lowers s σ σ' w w (.deliver i) := by
  simp only [System.step] at step
  split at step
  · next here =>
      obtain ⟨bound, ticked, empty⟩ := here
      obtain ⟨free, -⟩ := net.ticked i bound ticked
      have ne : i ≠ s.numProcs := ne_of_lt bound
      split at step
      · cases step
      · next m rest queue =>
          cases step
          refine Lowers.node bound rfl (fun j below other => ⟨?_, rfl⟩)
            (fun j k awaits => (awaited_deliver awaits).1) ?_
          · have apart : j ≠ s.numProcs := ne_of_lt below
            constructor <;> first | rfl | simp [Function.update_of_ne other, Function.update_of_ne apart]
          · left
            have down := tracks.down i bound
            simp only [System.arriving, queue] at down
            generalize w i = v at *
            obtain ⟨past, leg, rest'⟩ := v
            cases leg with
            | asked x need spot =>
                cases spot with
                | granted =>
                    simp only [Way.rank, Leg.rank, System.grantedRank, Function.update_self, free, empty,
                      queue, if_true]
                    simp
                | sent | latched => simp [Way.down] at down
            | idle | issued x | arrived x | answered x | returned x => simp [Way.down] at down
  · cases step

/-- A message reaches the directory. -/
theorem Tracks.lowers_dirDeliver (tracks : Tracks L s traces σ w) (net : Network s σ)
    (step : σ.step s (.dirDeliver i) = .ok σ') : Lowers s σ σ' w w (.dirDeliver i) := by
  simp only [System.step] at step
  split at step
  · next here =>
      obtain ⟨bound, ticked⟩ := here
      split at step
      · cases step
      · next m rest queue =>
          cases step
          have from_i : m.src = i := net.sent i bound m (by simp [queue])
          refine Lowers.node bound rfl (fun j below other => ⟨?_, rfl⟩)
            (fun j k awaits => (awaited_dirDeliver awaits).1) ?_
          · have apart : s.numProcs ≠ i := ne_of_gt bound
            have another : m.src ≠ j := from_i ▸ Ne.symm other
            constructor <;> first
              | rfl
              | simp [Function.update_of_ne other, Function.update_of_ne apart, another]
          · left
            have up := tracks.up i bound
            simp only [System.carried, queue] at up
            generalize w i = v at *
            obtain ⟨past, leg, rest'⟩ := v
            cases leg with
            | asked x need spot =>
                cases spot with
                | sent =>
                    have length := up.length_eq
                    simp only [Way.up, List.length_append, List.length_cons, List.length_nil] at length
                    have out : (σ.cpus i).ntwkOutNext = [] := List.length_eq_zero_iff.mp (by omega)
                    have last : rest = [] := List.length_eq_zero_iff.mp (by omega)
                    simp only [Way.rank, Leg.rank, System.sentRank, Function.update_self, out, queue, last,
                      if_true]
                    simp [from_i]
                | granted | latched => simp [Way.up] at up
            | idle | issued x | arrived x | answered x | returned x => simp [Way.up] at up
  · cases step

/-- The directory's tock. -/
theorem Tracks.lowers_dirTock (tracks : Tracks L s traces σ w) (timely : σ.Timely s)
    (step : σ.step s .dirTock = .ok σ') : Lowers s σ σ' w w .dirTock := by
  simp only [System.step] at step
  split at step
  · cases step
    have moves (j : NodeId) (below : j < s.numProcs) :
        (w j).rank s { σ with
            dir := { σ.dir.tock with ntwkOutNext := [] }
            chan := System.send σ.chan s.numProcs σ.dir.ntwkOutNext
            ticked := Function.update σ.ticked s.numProcs false
            clock := σ.clock + 1 } j < (w j).rank s σ j ∨
          (w j).rank s { σ with
            dir := { σ.dir.tock with ntwkOutNext := [] }
            chan := System.send σ.chan s.numProcs σ.dir.ntwkOutNext
            ticked := Function.update σ.ticked s.numProcs false
            clock := σ.clock + 1 } j = (w j).rank s σ j ∧
          awaited s j ((w j).rank s σ j) ≠ .dirTock := by
      have ne : j ≠ s.numProcs := ne_of_lt below
      have down := tracks.down j below
      have latched := tracks.latched j below
      simp only [System.arriving, CpuNode.inbox] at down
      generalize w j = v at *
      obtain ⟨past, leg, rest⟩ := v
      cases leg with
      | idle | issued x | arrived x | answered x | returned x =>
          refine .inr ⟨rfl, fun awaits => ?_⟩
          have due := awaited_dirTock awaits
          rw [Way.rank_mod (Leg.rank_lt fun _ _ leg => by cases leg)] at due
          simp only [Leg.rank] at due
          omega
      | asked x need spot =>
          cases spot with
          | sent =>
              by_cases last : σ.sentRank s j = 1
              · left
                simp only [System.sentRank] at last
                simp only [Way.rank, Leg.rank, System.sentRank, DirectoryController.tock,
                  send_of_ne _ _ ne, List.filter_nil, if_true]
                split_ifs at last ⊢ <;> omega
              · refine .inr ⟨?_, fun awaits => ?_⟩
                · simp only [System.sentRank] at last
                  simp only [Way.rank, Leg.rank, System.sentRank, DirectoryController.tock,
                    send_of_ne _ _ ne, List.filter_nil, if_true]
                  split_ifs at last ⊢ <;> first | rfl | contradiction
                · have due := awaited_dirTock awaits
                  rw [Way.rank_mod (Leg.rank_lt fun _ _ leg => by cases leg)] at due
                  have := sentRank_le (s := s) (σ := σ) (i := j)
                  simp only [Leg.rank] at due
                  omega
          | latched =>
              have soon := timely (latched x need rfl).1
              have later : σ.dir.responseTime - (σ.clock + 1) = σ.wait - 1 := Nat.sub_add_eq _ _ _
              by_cases spent : σ.wait = 0
              · refine .inr ⟨?_, fun awaits => ?_⟩
                · have now : σ.dir.responseTime - σ.clock = 0 := spent
                  rw [spent] at later
                  simp only [Way.rank, Leg.rank, System.wait, DirectoryController.tock, now, later]
                · have due := awaited_dirTock awaits
                  rw [Way.rank_mod (Leg.rank_lt fun _ _ _ => soon)] at due
                  simp only [Leg.rank, spent] at due
                  omega
              · left
                have less : σ.wait - 1 < σ.wait := Nat.sub_one_lt spent
                rw [← later] at less
                simpa only [Way.rank, Leg.rank, System.wait, DirectoryController.tock, Nat.add_lt_add_iff_left]
                  using less
          | granted =>
              by_cases last : σ.grantedRank s j = 3
              · left
                simp only [System.grantedRank] at last
                split_ifs at last with mail next sent <;> try contradiction
                have moved : σ.dir.ntwkOutNext.filter (·.dst = j) ≠ [] := by
                  intro nothing
                  simp only [mail, next, sent, nothing, Way.down] at down
                  cases down
                simp only [Way.rank, Leg.rank, System.grantedRank, mail, next, sent, send_self, moved,
                  List.append_eq_nil_iff, if_true, if_false, and_false]
                omega
              · refine .inr ⟨?_, fun awaits => ?_⟩
                · simp only [System.grantedRank] at last
                  simp only [Way.rank, Leg.rank, System.grantedRank, send_self, List.append_eq_nil_iff]
                  split_ifs at last ⊢ <;> simp_all
                · have due := awaited_dirTock awaits
                  rw [Way.rank_mod (Leg.rank_lt fun _ _ leg => by cases leg)] at due
                  have := grantedRank_le (s := s) (σ := σ) (i := j)
                  simp only [Leg.rank] at due
                  omega
    refine ⟨fun j below => ?_, fun j below _ _ awaits => ?_⟩
    · rcases moves j below with less | ⟨same, -⟩
      · exact less.le
      · exact same.le
    · rcases moves j below with less | ⟨-, other⟩
      · exact ⟨j, below, less⟩
      · exact absurd awaits other
  · cases step

/-- Asking memory or the shared cache sets the time of the answer. -/
theorem scheduleDataResponse_soon (d : DirectoryController) (s : Settings) (st : CoherenceStats)
    (block : BlockId) (target : NodeId) :
    (d.scheduleDataResponse s st block target).1.currentClock = d.currentClock ∧
      (d.scheduleDataResponse s st block target).1.responseTime ≤ d.currentClock + s.latency ∧
      (s.cacheMode = .privateL2 →
        s.memLatency ≤ (d.scheduleDataResponse s st block target).1.responseTime) := by
  unfold DirectoryController.scheduleDataResponse Settings.latency
  cases s.cacheMode with
  | privateL2 =>
      exact ⟨rfl, Nat.add_le_add_left (Nat.le_add_right _ _) _, fun _ => Nat.le_add_left _ _⟩
  | sharedLls =>
      simp only
      split
      · exact ⟨rfl, Nat.add_le_add_left (Nat.le_add_left _ _) _, nofun⟩
      · exact ⟨rfl, Nat.add_le_add_left (Nat.le_add_right _ _) _, nofun⟩

/-- Reading the queue leaves an answer in preparation alone, and sets a new one's time. -/
theorem processQueue_soon {d d' : DirectoryController} {st st' : CoherenceStats}
    (taken : System.processQueue F s d st = .ok (d', st')) :
    d' = d ∨ d.requestInProgress = false ∧ d'.currentClock = d.currentClock ∧
      (d'.requestInProgress = true → d'.responseTime ≤ d.currentClock + s.latency ∧
        (s.cacheMode = .privateL2 → s.memLatency ≤ d'.responseTime)) := by
  have carried (r : Message) (rest : List Message) (o : Outcome) (free : ¬d.requestInProgress = true) :
      (d.carryOut s st r rest o).1.currentClock = d.currentClock ∧
        ((d.carryOut s st r rest o).1.requestInProgress = true →
          (d.carryOut s st r rest o).1.responseTime ≤ d.currentClock + s.latency ∧
            (s.cacheMode = .privateL2 → s.memLatency ≤ (d.carryOut s st r rest o).1.responseTime)) := by
    unfold DirectoryController.carryOut
    cases o.schedule with
    | none => exact ⟨rfl, fun busy => absurd busy free⟩
    | some x =>
        obtain ⟨clock, soon⟩ := scheduleDataResponse_soon
          { d with
            directory := Function.update d.directory r.block o.entry
            requestQueue := rest
            requestNext := if o.cycled then d.requestNext ++ [r] else d.requestNext
            ntwkOutNext := d.ntwkOutNext ++ o.sends.map (DirectoryController.request s)
            sendE := d.sendE || o.sendE } s (o.stats st) x.1 x.2
        exact ⟨clock, fun _ => soon⟩
  unfold System.processQueue at taken
  split at taken
  · cases taken
    exact .inl rfl
  · next free =>
      have idle : d.requestInProgress = false := by simpa using free
      split at taken
      · cases taken
        exact .inl rfl
      · next r rest queue =>
          simp only at taken
          split at taken
          · next o writes =>
              obtain rfl : _ = d' := congrArg Prod.fst (Except.ok.inj taken)
              exact .inr ⟨idle, carried r rest o free⟩
          · split at taken
            · cases taken
            · next o handled =>
                obtain rfl : _ = d' := congrArg Prod.fst (Except.ok.inj taken)
                exact .inr ⟨idle, carried r rest o free⟩

/-- A request that is taken up has less far to go. -/
theorem Way.rank_take {v : Way} (soon : ∀ x need, v.take.leg = .asked x need .latched → σ.wait ≤ s.latency)
    {x : Instruction} {need : Need} (leg : v.leg = .asked x need .sent) :
    v.take.rank s σ j < v.rank s σ j := by
  obtain ⟨past, leg', rest⟩ := v
  subst leg
  have granted := grantedRank_le (s := s) (σ := σ) (i := j)
  by_cases raise : need = .raise
  · simp only [Way.take, raise, if_true, Way.rank, Leg.rank]
    omega
  · simp only [Way.take, raise, if_false] at soon
    have soon := soon x need rfl
    simp only [Way.take, raise, if_false, Way.rank, Leg.rank]
    omega

/-- So has one that is answered. -/
theorem Way.rank_respond {v : Way} {x : Instruction} {need : Need} (leg : v.leg = .asked x need .latched) :
    v.respond.rank s σ j < v.rank s σ j := by
  obtain ⟨past, leg', rest⟩ := v
  subst leg
  have granted := grantedRank_le (s := s) (σ := σ) (i := j)
  simp only [Way.respond, Way.rank, Leg.rank]
  omega

/-- A ways' update that lowers the rank where it changes one. -/
theorem System.takenUp_lowers (tracks : Tracks L s traces σ w) (net : Network s σ)
    {τ : System F ficiPort} (soon : ∀ x need, (σ.takenUp w j).leg = .asked x need .latched → τ.wait ≤ s.latency) :
    σ.takenUp w j = w j ∨ (σ.takenUp w j).rank s τ j < (w j).rank s τ j := by
  cases busy : σ.dir.requestInProgress with
  | true => exact .inl (by simp only [System.takenUp, busy, if_true])
  | false =>
      cases queue : σ.dir.requestQueue with
      | nil => exact .inl (by simp only [System.takenUp, busy, Bool.false_eq_true, if_false, queue])
      | cons r rest =>
          obtain ⟨bound, x, need, leg, -⟩ := tracks.head net queue
          simp only [System.takenUp, busy, Bool.false_eq_true, if_false, queue] at soon ⊢
          by_cases eq : j = r.src
          · subst eq
            rw [Function.update_self] at soon ⊢
            exact .inr (Way.rank_take soon leg)
          · exact .inl (Function.update_of_ne eq _ _)

/-- What waits for the directory's tick. -/
theorem Leg.of_rank {leg : Leg} (timely : ∀ x need, leg = .asked x need .latched → σ.wait ≤ s.latency)
    (k : leg.rank s σ j = 7 ∨ leg.rank s σ j = 8 + s.latency) :
    ∃ x need, leg = .asked x need .latched ∧ σ.wait = 0 ∨
      leg = .asked x need .sent ∧ σ.sentRank s j = 0 := by
  cases leg with
  | asked x need spot =>
      refine ⟨x, need, ?_⟩
      cases spot with
      | sent =>
          simp only [Leg.rank] at k
          exact .inr ⟨rfl, by omega⟩
      | latched =>
          have := timely x need rfl
          simp only [Leg.rank] at k
          exact .inl ⟨rfl, by omega⟩
      | granted =>
          have := grantedRank_le (s := s) (σ := σ) (i := j)
          simp only [Leg.rank] at k
          omega
  | idle | issued x | arrived x | answered x | returned x =>
      simp only [Leg.rank] at k
      omega

/-- The directory's tick. -/
theorem Tracks.lowers_dirTick (tracks : Tracks L s traces σ w) (net : Network s σ) (timely : σ.Timely s)
    (small : s.numProcs ≤ kMaxSharers) (apart : PrivateTraces s traces)
    (step : σ.step s .dirTick = .ok σ') :
    ∃ w', Tracks L s traces σ' w' ∧ Lowers s σ σ' w w' .dirTick := by
  obtain ⟨d, st, taken, next, -, rfl, first, after⟩ := tracks.dirTick net small apart step
  refine ⟨_, after, ?_⟩
  clear after
  have fields : ((d.respond s F.usesE st).1).requestNext = σ.dir.requestNext ∧
      ((d.respond s F.usesE st).1).responseTime = d.responseTime := by
    unfold DirectoryController.respond
    split
    · simp only
      split <;> exact ⟨next, rfl⟩
    · exact ⟨next, rfl⟩
  generalize known : ({ σ with
    dir := (d.respond s F.usesE st).1
    ticked := Function.update σ.ticked s.numProcs true
    stats := (d.respond s F.usesE st).2 } : System F ficiPort) = τ
  have wait : τ.wait = d.responseTime - σ.clock := by
    rw [← known, System.wait, fields.2]
  have same (j : NodeId) : SameRank s σ τ j := by
    subst known
    exact ⟨rfl, rfl, rfl, rfl, rfl, by rw [fields.1]⟩
  have read := processQueue_soon taken
  have rank (j : NodeId) (below : j < s.numProcs) : (w j).rank s τ j = (w j).rank s σ j := by
    refine (same j).rank fun x need leg => ?_
    have busy := (tracks.latched j below x need leg).1
    rcases read with rfl | ⟨free, -⟩
    · exact wait
    · exact absurd (busy.symm.trans free) nofun
  have soon (j : NodeId) (below : j < s.numProcs) (x : Instruction) (need : Need)
      (leg : (σ.takenUp w j).leg = .asked x need .latched) : τ.wait ≤ s.latency := by
    have busy := (first.latched j below x need leg).1
    rw [wait]
    rcases read with rfl | ⟨-, -, soon⟩
    · exact timely busy
    · exact Nat.sub_le_iff_le_add'.mpr (soon busy).1
  have up (j : NodeId) (below : j < s.numProcs) :
      σ.takenUp w j = w j ∨ (σ.takenUp w j).rank s τ j < (w j).rank s τ j :=
    System.takenUp_lowers tracks net (soon j below)
  let w' : NodeId → Way :=
    if d.requestInProgress ∧ d.responseTime ≤ d.currentClock then
      Function.update (σ.takenUp w) d.targetNode (σ.takenUp w d.targetNode).respond
    else σ.takenUp w
  have down (j : NodeId) : w' j = σ.takenUp w j ∨ (w' j).rank s τ j < (σ.takenUp w j).rank s τ j := by
    by_cases due : d.requestInProgress ∧ d.responseTime ≤ d.currentClock
    · obtain ⟨i, bound, x, need, leg, target, -⟩ := first.latch due.1
      have target : d.targetNode = i := target
      simp only [w', if_pos due, target]
      by_cases eq : j = i
      · subst eq
        rw [Function.update_self]
        exact .inr (Way.rank_respond leg)
      · exact .inl (Function.update_of_ne eq _ _)
    · exact .inl (by simp only [w', if_neg due])
  have taken_le (j : NodeId) (below : j < s.numProcs) :
      (σ.takenUp w j).rank s τ j ≤ (w j).rank s τ j := by
    rcases up j below with same | less
    · rw [same]
    · exact less.le
  have le (j : NodeId) (below : j < s.numProcs) : (w' j).rank s τ j ≤ (σ.takenUp w j).rank s τ j := by
    rcases down j with same | less
    · rw [same]
    · exact less.le
  refine ⟨fun j below => (le j below).trans ((taken_le j below).trans (rank j below).le), ?_⟩
  intro j below _ busy awaits
  have timely_leg (x : Instruction) (need : Need) (leg : (w j).leg = .asked x need .latched) :
      σ.wait ≤ s.latency := timely (tracks.latched j below x need leg).1
  have due := awaited_dirTick awaits
  rw [Way.rank_mod (Leg.rank_lt timely_leg)] at due
  obtain ⟨x, need, ⟨leg, spent⟩ | ⟨leg, here⟩⟩ := Leg.of_rank timely_leg due
  · refine ⟨j, below, ?_⟩
    obtain ⟨busy, target⟩ := tracks.latched j below x need leg
    have way : σ.takenUp w = w := by rw [System.takenUp, if_pos busy]
    rcases read with rfl | ⟨free, -⟩
    · have due : σ.clocked.dir.requestInProgress = true ∧
          σ.clocked.dir.responseTime ≤ σ.clocked.dir.currentClock := ⟨busy, Nat.sub_eq_zero_iff_le.mp spent⟩
      have target : σ.clocked.dir.targetNode = j := target
      rw [← rank j below]
      simp only [if_pos due, target, way, Function.update_self]
      exact Way.rank_respond leg
    · exact absurd (busy.symm.trans free) nofun
  · -- The request is in the queue, and the directory is free to read it.
    have free : σ.dir.requestInProgress = false := by
      by_contra some
      obtain ⟨x', need', leg'⟩ := busy (by simpa using some)
      rw [leg] at leg'
      cases leg'
    have queue : σ.dir.requestQueue ≠ [] := by
      intro empty
      have length := (tracks.up j below).length_eq
      simp only [System.sentRank] at here
      split_ifs at here with out chan next
      simp only [System.carried, out, chan, empty, List.append_nil, next, Way.up, leg] at length
      cases length
    obtain ⟨r, rest, queue⟩ := List.exists_cons_of_ne_nil queue
    obtain ⟨bound, x', need', leg', -⟩ := tracks.head net queue
    have way : σ.takenUp w r.src = (w r.src).take := by
      simp only [System.takenUp, free, Bool.false_eq_true, if_false, queue, Function.update_self]
    refine ⟨r.src, bound, (le r.src bound).trans_lt ?_⟩
    have soon := soon r.src bound
    rw [way] at soon ⊢
    exact (Way.rank_take soon leg').trans_eq (rank r.src bound)

theorem System.Timely.step (timely : σ.Timely s) {a : Action ficiPort} (step : σ.step s a = .ok σ') :
    σ'.Timely s := by
  cases a with
  | dirTick =>
      simp only [System.step] at step
      split at step
      · unfold System.tickDir at step
        split at step
        · cases step
        · next d st result =>
            cases step
            split at result
            · cases result
            · next d' st' taken =>
                obtain rfl : _ = d := congrArg Prod.fst (Except.ok.inj result)
                have kept : (d'.respond s F.usesE st').1.responseTime = d'.responseTime ∧
                    ((d'.respond s F.usesE st').1.requestInProgress = true →
                      d'.requestInProgress = true) := by
                  unfold DirectoryController.respond
                  split
                  · simp only
                    split <;> exact ⟨rfl, (by simp)⟩
                  · exact ⟨rfl, id⟩
                intro busy
                simp only [System.wait, kept.1]
                rcases processQueue_soon taken with rfl | ⟨-, -, soon⟩
                · exact timely (kept.2 busy)
                · exact Nat.sub_le_iff_le_add'.mpr (soon (kept.2 busy)).1
      · cases step
  | dirTock =>
      simp only [System.step] at step
      split at step
      · cases step
        exact fun busy => (Nat.sub_le_sub_left (Nat.le_succ _) _).trans (timely busy)
      · cases step
  | tick i =>
      simp only [System.step] at step
      split at step
      · split at step
        · cases step
        · cases step
          exact timely
      · cases step
  | tock i =>
      simp only [System.step] at step
      split at step
      · cases step
        exact timely
      · cases step
  | deliver i | dirDeliver i =>
      simp only [System.step] at step
      split at step
      · split at step
        · cases step
        · cases step
          exact timely
      · cases step
  | external i event => exact event.elim

/-- No step takes a CPU back, and the one that a CPU waits for takes one on. -/
theorem Tracks.lowers (tracks : Tracks L s traces σ w) (net : Network s σ) (timely : σ.Timely s)
    (small : s.numProcs ≤ kMaxSharers) (apart : PrivateTraces s traces) {a : Action ficiPort}
    (step : σ.step s a = .ok σ') : ∃ w', Tracks L s traces σ' w' ∧ Lowers s σ σ' w w' a := by
  cases a with
  | tick i => exact ⟨_, tracks.tick step, tracks.lowers_tick timely step⟩
  | tock i => exact ⟨_, tracks.tock net step, tracks.lowers_tock net timely step⟩
  | deliver i => exact ⟨_, tracks.deliver net step, tracks.lowers_deliver net step⟩
  | external i event => exact event.elim
  | dirTick => exact tracks.lowers_dirTick net timely small apart step
  | dirTock => exact ⟨_, tracks.dirTock step, tracks.lowers_dirTock timely step⟩
  | dirDeliver i => exact ⟨_, tracks.dirDeliver net step, tracks.lowers_dirDeliver net step⟩

end

end Coherence
