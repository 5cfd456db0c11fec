import MulticoreSim.Coherence.Progress
import MulticoreSim.Coherence.SharedWaits

/-! # Shared traces come to an end

Whatever the CPUs share, while something is left to do somebody waits for an action
of the next round, which brings what they wait for closer or leaves less to do.
-/

namespace Coherence

open DirectoryProtocol Station

variable {F : ProtocolFsm} {L : Laws F} {s : Settings} {traces : NodeId → List Instruction}
  {σ σ' : System F ficiPort} {lines lines' : BlockId → Block NodeId} {b : BlockId} {i : NodeId}
  {a h : Action ficiPort} {m : Message} {d : Nat}

/-! ## How many messages are on their way -/

/-- No message is about a block that nobody asks for. -/
theorem Underway.carried_block (under : Underway L s traces σ lines) (bound : i < s.numProcs)
    (mem : m ∈ σ.carried s i) : m.block ∈ sharedBlocks s traces := by
  by_contra out
  have inv := (under.shows.abs m.block).inv
  have rest := under.rest out
  have here : 0 < about m.block (σ.carried s i) m.kind := about_pos.mpr ⟨m, mem, rfl, rfl⟩
  rw [(under.shows.abs m.block).upward i bound] at here
  rcases source_of_up here with ⟨r, asked, -⟩ | ⟨reply, answered, -⟩ | ⟨written, -⟩
  · cases (rest i).symm.trans asked
  · cases (Block.idle_of_rest inv rest i).symm.trans answered
  · rw [under.unwritten] at written
    exact absurd written (Nat.lt_irrefl 0)

/-- A node has a request and an answer about a block at most on their way. -/
theorem Underway.about_le (under : Underway L s traces σ lines) (bound : i < s.numProcs) (b : BlockId) :
    (σ.carried s i).countP (fun m => m.block = b) ≤ 2 := by
  let kinds := (((σ.carried s i).filter (·.block = b)).map Message.kind).toFinset
  rw [List.countP_eq_length_filter, length_eq_sum_countP (f := Message.kind) (S := kinds) fun m mem => ?_]
  · have each : ∀ k, ((σ.carried s i).filter (·.block = b)).countP (fun m => m.kind = k) =
        up ((lines b).slot i) k := by
      intro k
      rw [← (under.shows.abs b).upward i bound, about, List.countP_filter]
      exact List.countP_congr fun m _ => by simp [and_comm]
    rw [Finset.sum_congr rfl fun k _ => each k]
    exact sum_up_le kinds (under.unwritten b i)
  · exact List.mem_toFinset.mpr (List.mem_map_of_mem mem)

theorem Underway.carried_le (under : Underway L s traces σ lines) (bound : i < s.numProcs) :
    (σ.carried s i).length ≤ 2 * (sharedBlocks s traces).card := by
  rw [length_eq_sum_countP (f := Message.block) fun m mem => under.carried_block bound mem]
  refine (Finset.sum_le_sum fun b _ => under.about_le bound b).trans ?_
  rw [Finset.sum_const_nat fun _ _ => rfl, Nat.mul_comm]

/-- The most messages that may be on their way to the directory. -/
def mostSent (s : Settings) (traces : NodeId → List Instruction) : Nat :=
  s.numProcs * (2 * (sharedBlocks s traces).card)

theorem Underway.queue_le (under : Underway L s traces σ lines) :
    σ.dir.requestQueue.length + σ.dir.requestNext.length ≤ mostSent s traces := by
  have both : (σ.dir.requestNext ++ σ.dir.requestQueue).length =
      ∑ j ∈ s.nodes, (σ.dir.requestNext ++ σ.dir.requestQueue).countP (fun m => m.src = j) :=
    length_eq_sum_countP fun m mem => mem_nodes.mpr (under.shows.net.queued m mem)
  have each : ∀ j ∈ s.nodes, (σ.dir.requestNext ++ σ.dir.requestQueue).countP (fun m => m.src = j) ≤
      2 * (sharedBlocks s traces).card := by
    intro j mem
    refine le_trans ?_ (under.carried_le (mem_nodes.mp mem))
    rw [List.countP_eq_length_filter, System.carried, List.length_append]
    exact Nat.le_add_left _ _
  rw [List.length_append] at both
  have all := Finset.sum_le_sum each
  rw [Finset.sum_const_nat fun _ _ => rfl, Settings.nodes, Finset.card_range] at all
  unfold mostSent
  unfold Settings.nodes at both
  omega

/-! ## Who waits for what -/

/-- An action that would take somebody on, or bring closer what does, and how far off that is. -/
inductive Pending (s : Settings) (most : Nat) (σ : System F ficiPort) (lines : BlockId → Block NodeId) :
    Nat → Action ficiPort → Prop where
  /-- A CPU's node has something to do. -/
  | node {i : NodeId} {a : Action ficiPort} : i < s.numProcs → Due s (σ.cpus i) a i → Pending s most σ lines 1 a
  /-- Memory is at work, and the directory's node has not ticked. -/
  | memory : σ.dir.requestInProgress = true → σ.ticked s.numProcs = false →
      Pending s most σ lines (2 * σ.wait + 1) .dirTick
  | clock : σ.dir.requestInProgress = true → σ.ticked s.numProcs = true →
      Pending s most σ lines (2 * (σ.wait - 1) + 2) .dirTock
  /-- Something is on its way to a node. -/
  | mail {i : NodeId} : i < s.numProcs → σ.arriving s i ≠ [] →
      Pending s most σ lines (σ.mail s i) (fetches i (σ.mail s i))
  /-- Something the directory would take in is on its way to it. -/
  | inbound {m : Message} {d : Nat} {h : Action ficiPort} : σ.dir.requestInProgress = false →
      ¬Deferrable m.kind ∨ (lines m.block).mode.Stable → Inbound s most σ m d h → Pending s most σ lines d h

/-- The directory is in a stable state where the line is in a stable mode. -/
theorem Underway.stable (under : Underway L s traces σ lines) (stable : (lines b).mode.Stable) :
    (σ.dir.directory b).state.Stable := by
  by_contra transient
  exact (transient_mode (under.shows.abs b).entry.stands).mp transient stable

/-- A message on its way to the directory is somewhere. -/
theorem exists_inbound (most : Nat) (bound : i < s.numProcs) (mem : m ∈ σ.carried s i) :
    ∃ d h, Inbound s most σ m d h := by
  simp only [System.carried, List.mem_append, List.mem_filter] at mem
  rcases mem with (out | chan) | ⟨next | queue, -⟩
  · obtain ⟨pre, post, here⟩ := List.append_of_mem out
    exact ⟨_, _, .out pre post bound here⟩
  · obtain ⟨pre, post, here⟩ := List.append_of_mem chan
    exact ⟨_, _, .chan pre post bound here⟩
  · obtain ⟨pre, post, here⟩ := List.append_of_mem next
    exact ⟨_, _, .next pre post here⟩
  · obtain ⟨pre, post, here⟩ := List.append_of_mem queue
    exact ⟨_, _, .queue pre post here⟩

/-- While memory is at work, its answer is waited for. -/
theorem pending_memory (most : Nat) (busy : σ.dir.requestInProgress = true) :
    ∃ d h, Pending s most σ lines d h := by
  cases ticked : σ.ticked s.numProcs with
  | false => exact ⟨_, _, .memory busy ticked⟩
  | true => exact ⟨_, _, .clock busy ticked⟩

/-- A line's round waits for an answer, or for the order that brings it. -/
theorem Underway.waits_round (under : Underway L s traces σ lines) (most : Nat)
    (transient : ¬(lines b).mode.Stable) : ∃ d h, Pending s most σ lines d h := by
  have state : ¬(σ.dir.directory b).state.Stable :=
    (transient_mode (under.shows.abs b).entry.stands).mpr transient
  obtain ⟨i, bound, ⟨m, mem, -, consumes⟩ | ⟨m, mem, -⟩⟩ :=
    (under.shows.abs b).feeds (under.settled.live b).1 state
  · cases busy : σ.dir.requestInProgress with
    | true => exact pending_memory most busy
    | false =>
        obtain ⟨d, h, inbound⟩ := exists_inbound most bound mem
        have kind : m.kind = .invack ∨ m.kind = .data := by
          unfold DirEntry.Consumes at consumes
          split at consumes
          · exact .inl consumes.1
          · exact consumes.imp_left And.left
          · exact consumes.imp_left And.left
          all_goals first | exact .inr consumes | exact consumes.elim
        refine ⟨d, h, .inbound busy (.inl ?_) inbound⟩
        rcases kind with kind | kind <;> simp [Deferrable, kind]
  · exact ⟨_, _, .mail bound (List.ne_nil_of_mem mem)⟩

/-- Whoever has a request out waits for something. -/
theorem Underway.waits_request (under : Underway L s traces σ lines) (most : Nat)
    (asks : ((lines b).slot i).phase ≠ .rest) : ∃ d h, Pending s most σ lines d h := by
  have bound := (under.asker asks).1
  have abs := under.shows.abs b
  cases phase : ((lines b).slot i).phase with
  | rest => exact absurd phase asks
  | waiting =>
      refine under.waits_round most (b := b) fun stable => ?_
      exact (Block.stable_iff abs.inv).mp stable i phase
  | fetching g => exact pending_memory most (under.busy_iff.mpr ⟨b, i, g, phase⟩)
  | granted g =>
      refine ⟨_, _, .mail bound fun none => ?_⟩
      have here := abs.downward i bound
      rw [none, down, phase] at here
      cases here
  | asked r =>
      have here : 0 < about b (σ.carried s i) (requestKind r) := by
        rw [abs.upward i bound, up, phase]
        simp only [upRequest, one_self]
        omega
      obtain ⟨m, mem, about, -⟩ := about_pos.mp here
      cases busy : σ.dir.requestInProgress with
      | true => exact pending_memory most busy
      | false =>
          by_cases stable : (lines b).mode.Stable
          · obtain ⟨d, h, inbound⟩ := exists_inbound most bound mem
            exact ⟨d, h, .inbound busy (.inr (about ▸ stable)) inbound⟩
          · exact under.waits_round most stable

/-- A trace is done when nothing of it is left. -/
theorem Replays.traceDone_iff {L : AgentLaws F} {blocks : Finset BlockId} {instrs : List Instruction}
    {n : CpuNode F ficiPort} (replays : Replays L blocks instrs n) :
    FiciCpu.traceDone n.cpu = true ↔ FiciCpu.left n.cpu = 0 := by
  unfold FiciCpu.left
  rw [replays.traceDone, replays.trace]
  exact Nat.sub_eq_zero_iff_le.symm

/-- While something is left to do, somebody waits for something. -/
theorem Underway.waits (under : Underway L s traces σ lines) (most : Nat)
    (left : σ.todo s (sharedBlocks s traces) lines ≠ 0) : ∃ d h, Pending s most σ lines d h := by
  by_cases asks : ∃ b i, ((lines b).slot i).phase ≠ .rest
  · obtain ⟨b, i, asks⟩ := asks
    exact under.waits_request most asks
  · simp only [not_exists, not_not] at asks
    have blocks : ∑ b ∈ sharedBlocks s traces, (lines b).rank s.nodes = 0 :=
      Finset.sum_eq_zero fun b _ => Block.rank_of_rest (under.shows.abs b).inv (asks b)
    rw [System.todo, blocks, Nat.add_zero] at left
    obtain ⟨i, mem, rank⟩ := Finset.exists_ne_zero_of_sum_ne_zero left
    have bound := mem_nodes.mp mem
    obtain ⟨t, here⟩ := under.settled.stations i
    have stage := here.stage (s := s)
    cases t with
    | idle =>
        refine ⟨_, _, .node bound (a := .tick i) ⟨rfl, .inr (.inr ⟨stage, ?_⟩)⟩⟩
        rw [← Bool.not_eq_true, (under.replays i bound).traceDone_iff]
        intro zero
        rw [here.rank, zero] at rank
        exact rank (Nat.zero_mul _)
    | issued m => exact ⟨_, _, .node bound (a := .tock i) ⟨rfl, .inl stage⟩⟩
    | arrived m => exact ⟨_, _, .node bound (a := .tick i) ⟨rfl, .inl stage⟩⟩
    | answered m => exact ⟨_, _, .node bound (a := .tock i) ⟨rfl, .inr stage⟩⟩
    | returned m => exact ⟨_, _, .node bound (a := .tick i) ⟨rfl, .inr (.inl stage)⟩⟩
    | asked c =>
        -- An agent that waits has a request out.
        exfalso
        have view := (under.shows.abs c).view i
        have want : (L.view ((σ.cpus i).agents c)).want ≠ .nothing := (here.agents c).mpr rfl
        rw [view] at want
        exact want (((under.shows.abs c).inv.slots i).rest.mpr (asks c i))

/-- The same rank is the same stage of the same instruction. -/
theorem same_stage {n n' : CpuNode F ficiPort} (same : n'.rank s = n.rank s) :
    n'.stage s = n.stage s ∧ FiciCpu.left n'.cpu = FiciCpu.left n.cpu := by
  have pos : 0 < s.stretch := Nat.succ_pos _
  have stage {n : CpuNode F ficiPort} : n.rank s % s.stretch = n.stage s := by
    rw [CpuNode.rank, Nat.mul_add_mod', Nat.mod_eq_of_lt (stage_lt s n)]
  have left {n : CpuNode F ficiPort} : n.rank s / s.stretch = FiciCpu.left n.cpu := by
    rw [CpuNode.rank, Nat.mul_comm, Nat.mul_add_div pos, Nat.div_eq_of_lt (stage_lt s n), Nat.add_zero]
  exact ⟨by rw [← stage, same, stage], by rw [← left, same, left]⟩

/-- What a node is due to do stays due while it does not get anywhere. -/
theorem Due.same {L : AgentLaws F} {blocks : Finset BlockId} {instrs : List Instruction}
    {n n' : CpuNode F ficiPort} (due : Due s n a i) (replays : Replays L blocks instrs n)
    (replays' : Replays L blocks instrs n') (same : n'.rank s = n.rank s) : Due s n' a i := by
  obtain ⟨stage, left⟩ := same_stage same
  have done : FiciCpu.traceDone n'.cpu = FiciCpu.traceDone n.cpu := by
    rw [Bool.eq_iff_iff, replays.traceDone_iff, replays'.traceDone_iff, left]
  cases a with
  | tick j =>
      rw [Due, stage, done]
      exact due
  | tock j =>
      rw [Due, stage]
      exact due
  | deliver j | dirTick | dirTock | dirDeliver j => exact due
  | external j event => exact event.elim

/-- Somebody's wait is shorter, or this was not the action it is for. -/
def Shorter (s : Settings) (most : Nat) (σ' : System F ficiPort) (lines' : BlockId → Block NodeId)
    (a : Action ficiPort) (d : Nat) (h : Action ficiPort) : Prop :=
  (∃ d' h', Pending s most σ' lines' d' h' ∧ d' < d) ∨ a ≠ h ∧ Pending s most σ' lines' d h

/-- Memory's answer comes closer with the directory's cycles. -/
theorem memory_step (most : Nat) (busy : σ.dir.requestInProgress = true) (busy' : σ'.dir.requestInProgress = true)
    (step : σ.step s a = .ok σ') :
    (σ.ticked s.numProcs = false → Shorter s most σ' lines' a (2 * σ.wait + 1) .dirTick) ∧
      (σ.ticked s.numProcs = true →
        Shorter s most σ' lines' a (2 * (σ.wait - 1) + 2) .dirTock) := by
  have stays (wait : σ'.wait = σ.wait)
      (ticked : σ'.ticked s.numProcs = σ.ticked s.numProcs) (tick : a ≠ .dirTick) (tock : a ≠ .dirTock) :
      (σ.ticked s.numProcs = false → Shorter s most σ' lines' a (2 * σ.wait + 1) .dirTick) ∧
        (σ.ticked s.numProcs = true →
          Shorter s most σ' lines' a (2 * (σ.wait - 1) + 2) .dirTock) := by
    rw [← wait, ← ticked]
    exact ⟨fun waits => .inr ⟨tick, .memory busy' waits⟩, fun done => .inr ⟨tock, .clock busy' done⟩⟩
  cases a with
  | tick j =>
      obtain ⟨below, n, st, -, rfl⟩ := step_tick step
      exact stays rfl (Function.update_of_ne (ne_of_gt below) _ _) (by simp) (by simp)
  | tock j =>
      obtain ⟨below, rfl⟩ := step_tock step
      exact stays rfl (Function.update_of_ne (ne_of_gt below) _ _) (by simp) (by simp)
  | deliver j =>
      obtain ⟨-, m, rest, -, rfl⟩ := step_deliver step
      exact stays rfl rfl (by simp) (by simp)
  | external j event => exact event.elim
  | dirDeliver j =>
      obtain ⟨-, m, rest, -, rfl⟩ := step_dirDeliver step
      exact stays rfl rfl (by simp) (by simp)
  | dirTick =>
      obtain ⟨waits, dir, st, ticked, rfl⟩ := step_dirTick step
      refine ⟨fun _ => .inl ?_, fun done => absurd (waits.symm.trans done) (by simp)⟩
      rcases tickDir_busy busy ticked with ⟨free, -⟩ | ⟨later, -, responseTime⟩
      · cases busy'.symm.trans free
      · refine ⟨_, _, .clock busy' (Function.update_self ..), ?_⟩
        have some : 0 < σ.wait := Nat.sub_pos_of_lt later
        simp only [System.wait, responseTime] at some ⊢
        omega
  | dirTock =>
      obtain ⟨done, rfl⟩ := step_dirTock step
      refine ⟨fun waits => absurd (waits.symm.trans done) (by simp), fun _ => .inl ?_⟩
      refine ⟨_, _, .memory busy' (Function.update_self ..), ?_⟩
      have less : σ.dir.responseTime - (σ.clock + 1) = σ.wait - 1 := Nat.sub_add_eq _ _ _
      simp only [System.wait, DirectoryController.tock, less]
      omega

/-- Where nobody gets anywhere, what somebody waits for comes closer, and the awaited action brings it closer. -/
theorem Underway.waits_step (under : Underway L s traces σ lines) (under' : Underway L s traces σ' lines')
    (defers : F.Defers) (step : σ.step s a = .ok σ') (unmoved : Unmoved s σ σ' lines lines')
    (notDue : ∀ i < s.numProcs, ¬Due s (σ.cpus i) a i)
    (waits : Pending s (mostSent s traces) σ lines d h) : Shorter s (mostSent s traces) σ' lines' a d h := by
  have busy := unmoved.busy under under'
  cases waits with
  | @node i h bound due =>
      refine .inr ⟨fun same => notDue i bound (same ▸ due), .node bound ?_⟩
      exact due.same (under.replays i bound) (under'.replays i bound) (unmoved.ranks i bound)
  | memory at_work waits => exact (memory_step _ at_work (busy.trans at_work) step).1 waits
  | clock at_work done => exact (memory_step _ at_work (busy.trans at_work) step).2 done
  | @mail i bound some =>
      have kept := unmoved.arriving under under' bound
      have some' : σ'.arriving s i ≠ [] := by
        intro none
        obtain ⟨m, mem⟩ := List.exists_mem_of_ne_nil _ some
        have here : (m.kind, m.dirty) ∈ orders m.block (σ.arriving s i) :=
          List.mem_map.mpr ⟨m, List.mem_filter.mpr ⟨mem, by simp⟩, rfl⟩
        rw [← kept, none] at here
        cases here
      rcases mail_step step kept some with closer | ⟨other, same⟩
      · exact .inl ⟨_, _, .mail bound some', closer⟩
      · refine .inr ⟨other, ?_⟩
        rw [← same]
        exact .mail bound some'
  | @inbound m _ _ free ready inbound =>
      have ready' : ¬Deferrable m.kind ∨ (lines' m.block).mode.Stable :=
        ready.imp_right (unmoved.stable under under' m.block).mpr
      rcases inbound.step under.shows.net defers free step under.queue_le
        (fun i bound => unmoved.carried under under' bound) (ready.imp_right under.stable) with
        ⟨d', h', inbound', closer⟩ | ⟨other, inbound'⟩
      · exact .inl ⟨d', h', .inbound (busy.trans free) ready' inbound', closer⟩
      · exact .inr ⟨other, .inbound (busy.trans free) ready' inbound'⟩

/-- The longest wait. -/
def longest (s : Settings) (traces : NodeId → List Instruction) : Nat :=
  mostSent s traces + 2 * (sharedBlocks s traces).card + 2 * s.latency + 4

theorem Underway.waits_le (under : Underway L s traces σ lines) (waits : Pending s (mostSent s traces) σ lines d h) :
    d ≤ longest s traces := by
  unfold longest
  cases waits with
  | node => omega
  | memory busy =>
      have soon := under.timely busy
      omega
  | clock busy =>
      have soon := under.timely busy
      omega
  | @mail i =>
      have := mail_le (s := s) (i := i) σ
      omega
  | inbound free ready inbound =>
      have few := under.queue_le
      cases inbound with
      | queue pre post here =>
          rw [here, List.length_append, List.length_cons] at few
          omega
      | next pre post here =>
          rw [here, List.length_append, List.length_cons] at few
          omega
      | @chan j pre post bound here =>
          have all := under.carried_le bound
          rw [System.carried, List.length_append, List.length_append, here, List.length_append, List.length_cons] at all
          omega
      | @out j pre post bound here =>
          have all := under.carried_le bound
          rw [System.carried, List.length_append, List.length_append, here, List.length_append, List.length_cons] at all
          omega

/-! ## Rounds -/

/-- The lines a state shows, and what somebody waits for: the action, and how far off it is. -/
structure Vigil where
  lines : BlockId → Block NodeId
  far : Nat
  next : Action ficiPort

/-- The vigil is kept until nothing is left to do. -/
structure Vigil.Kept (L : Laws F) (s : Settings) (traces : NodeId → List Instruction) (σ : System F ficiPort)
    (v : Vigil) : Prop where
  under : Underway L s traces σ v.lines
  waits : σ.todo s (sharedBlocks s traces) v.lines = 0 ∧ v.far = 0 ∨
    σ.todo s (sharedBlocks s traces) v.lines ≠ 0 ∧ Pending s (mostSent s traces) σ v.lines v.far v.next

/-- What is left to do, and until then how far off the next of it is. -/
def System.ahead (s : Settings) (traces : NodeId → List Instruction) (σ : System F ficiPort) (v : Vigil) : Nat :=
  σ.todo s (sharedBlocks s traces) v.lines * (longest s traces + 1) + v.far

/-- Somebody waits for the action. -/
def Vigil.Awaits (s : Settings) (traces : NodeId → List Instruction) (σ : System F ficiPort) (v : Vigil)
    (a : Action ficiPort) : Prop :=
  σ.todo s (sharedBlocks s traces) v.lines ≠ 0 ∧ v.next = a

theorem Underway.vigil (under : Underway L s traces σ lines) :
    ∃ v : Vigil, v.lines = lines ∧ v.Kept L s traces σ ∧ v.far ≤ longest s traces := by
  by_cases left : σ.todo s (sharedBlocks s traces) lines = 0
  · exact ⟨⟨lines, 0, .dirTick⟩, rfl, ⟨under, .inl ⟨left, rfl⟩⟩, Nat.zero_le _⟩
  · obtain ⟨d, h, waits⟩ := under.waits (mostSent s traces) left
    exact ⟨⟨lines, d, h⟩, rfl, ⟨under, .inr ⟨left, waits⟩⟩, under.waits_le waits⟩

/-- No action takes anybody back, and the one somebody waits for takes somebody on. -/
theorem Vigil.Kept.step {v : Vigil} (kept : v.Kept L s traces σ) (small : s.numProcs ≤ kMaxSharers)
    (defers : F.Defers) (step : σ.step s a = .ok σ') :
    ∃ v' : Vigil, v'.Kept L s traces σ' ∧ σ'.ahead s traces v' ≤ σ.ahead s traces v ∧
      ∀ h, v.Awaits s traces σ h →
        σ'.ahead s traces v' < σ.ahead s traces v ∨ a ≠ h ∧ v'.Awaits s traces σ' h := by
  obtain ⟨lines', under', less | ⟨same, unmoved, notDue⟩⟩ := kept.under.step small step
  · obtain ⟨v', rfl, kept', far⟩ := under'.vigil
    have lower : σ'.ahead s traces v' < σ.ahead s traces v := by
      have steps := Nat.mul_le_mul_right (longest s traces + 1) less
      rw [Nat.succ_mul] at steps
      unfold System.ahead
      omega
    exact ⟨v', kept', lower.le, fun h _ => .inl lower⟩
  · rcases kept.waits with ⟨none, far⟩ | ⟨some, waits⟩
    · refine ⟨⟨lines', 0, v.next⟩, ⟨under', .inl ⟨same.trans none, rfl⟩⟩, ?_, fun h awaits => absurd none awaits.1⟩
      simp only [System.ahead, same]
      omega
    · have some' : σ'.todo s (sharedBlocks s traces) lines' ≠ 0 := same ▸ some
      rcases kept.under.waits_step under' defers step unmoved notDue waits with
        ⟨d', h', waits', closer⟩ | ⟨other, waits'⟩
      · have lower : σ'.ahead s traces ⟨lines', d', h'⟩ < σ.ahead s traces v := by
          simp only [System.ahead, same]
          omega
        exact ⟨⟨lines', d', h'⟩, ⟨under', .inr ⟨some', waits'⟩⟩, lower.le, fun h _ => .inl lower⟩
      · refine ⟨⟨lines', v.far, v.next⟩, ⟨under', .inr ⟨some', waits'⟩⟩, ?_, fun h awaits => .inr ⟨?_, some', awaits.2⟩⟩
        · simp only [System.ahead, same]
          omega
        · rw [← awaits.2]
          exact other

/-- The action somebody waits for is one of the round's. -/
theorem Pending.mem {most : Nat} (waits : Pending s most σ lines d h) {actions : List (Action ficiPort)}
    (round : Round s σ actions) : h ∈ actions := by
  cases waits with
  | @node i h bound due =>
      cases h with
      | tick j =>
          obtain ⟨rfl, -⟩ := due
          exact round.tick j bound
      | tock j =>
          obtain ⟨rfl, -⟩ := due
          exact round.tock j bound
      | deliver j | dirTick | dirTock | dirDeliver j => exact due.elim
      | external j event => exact event.elim
  | memory => exact round.dirTick
  | clock => exact round.dirTock
  | @mail i bound =>
      rcases fetches_mail (rfl : fetches i (σ.mail s i) = _) with
        ⟨action, -⟩ | ⟨action, -⟩ | ⟨action, chan, -⟩ | ⟨action, -⟩ <;> rw [action]
      · exact round.tick i bound
      · exact round.tock i bound
      · exact round.deliver i bound chan
      · exact round.dirTock
  | inbound free ready inbound =>
      cases inbound with
      | queue => exact round.dirTick
      | next => exact round.dirTock
      | chan pre post bound here => exact round.dirDeliver _ bound (by simp [here])
      | out pre post bound here => exact round.tock _ bound

/-- The rounds that suffice: every instruction may cost its stretch, and the longest wait before each step of it. -/
def completionRounds (s : Settings) (traces : NodeId → List Instruction) : Nat :=
  (∑ i ∈ s.nodes, (traces i).length * s.stretch) * (longest s traces + 1) + longest s traces

theorem todo_initial (L : Laws F) (s : Settings) (traces : NodeId → List Instruction) :
    (coherenceMode F s traces).todo s (sharedBlocks s traces) (fun _ => Block.initial NodeId) =
      ∑ i ∈ s.nodes, (traces i).length * s.stretch := by
  have blocks : ∑ b ∈ sharedBlocks s traces, (Block.initial NodeId).rank s.nodes = 0 :=
    Finset.sum_eq_zero fun _ _ => Block.rank_of_rest Block.Inv.initial fun _ => rfl
  rw [System.todo, blocks, Nat.add_zero]
  refine Finset.sum_congr rfl fun i _ => ?_
  have here : ((coherenceMode F s traces).cpus i).rank s = (traces i).length * s.stretch + 0 :=
    (Station.At.initial L.toAgentLaws (traces i)).rank
  rw [here, Nat.add_zero]

/-- After each round there is less ahead. -/
theorem Rounds.ahead (L : Laws F) (small : s.numProcs ≤ kMaxSharers) (defers : F.Defers)
    {k : Nat} (rounds : Rounds s (coherenceMode F s traces) k σ) :
    ∃ v : Vigil, v.Kept L s traces σ ∧ σ.ahead s traces v ≤ completionRounds s traces - k := by
  induction rounds with
  | none =>
      obtain ⟨v, lines, kept, far⟩ := (Underway.initial L s traces).vigil
      refine ⟨v, kept, ?_⟩
      rw [System.ahead, lines, todo_initial L, completionRounds]
      omega
  | @more k τ τ' actions rounds round ran ih =>
      obtain ⟨v, kept, le⟩ := ih
      obtain ⟨v', kept', le', lower⟩ := Machine.exec_lowers (m := System.machine F ficiPort s)
        (I := fun σ v => Vigil.Kept L s traces σ v) (System.ahead s traces) (fun σ v => v.Awaits s traces σ)
        (fun τ v a τ' kept step => kept.step small defers step) kept ran
      refine ⟨v', kept', ?_⟩
      rcases kept.waits with ⟨none, far⟩ | ⟨some, waits⟩
      · have zero : τ.ahead s traces v = 0 := by rw [System.ahead, none, far, Nat.zero_mul]
        omega
      · have := lower v.next (waits.mem round) ⟨some, rfl⟩
        omega

/-- Nothing is left to do. -/
theorem Underway.isDone (under : Underway L s traces σ lines) (none : σ.todo s (sharedBlocks s traces) lines = 0) :
    σ.isDone s := by
  intro i bound
  have ranks : ∑ j ∈ s.nodes, (σ.cpus j).rank s = 0 := (Nat.add_eq_zero_iff.mp none).1
  have rank := Finset.sum_eq_zero_iff.mp ranks i (mem_nodes.mpr bound)
  obtain ⟨t, here⟩ := under.settled.stations i
  have pos : 0 < s.stretch := Nat.succ_pos _
  rw [here.rank, Nat.add_eq_zero_iff, Nat.mul_eq_zero] at rank
  obtain ⟨left | no, stage⟩ := rank
  · have idle : t = .idle := by
      cases t with
      | idle => rfl
      | issued m | arrived m | asked c | answered m | returned m =>
          simp only [Station.rank] at stage
          omega
    have done := (under.replays i bound).traceDone_iff.mpr left
    have free : FiciCpu.outstanding (σ.cpus i).cpu = false := by
      rw [← Bool.not_eq_true, here.outstanding, idle]
      simp
    have isDone : FiciCpu.isDone (σ.cpus i).cpu =
        (FiciCpu.traceDone (σ.cpus i).cpu && !FiciCpu.outstanding (σ.cpus i).cpu) := rfl
    rw [isDone, done, free]
    rfl
  · exact absurd no pos.ne'

/-! ## There is always another round -/

section

variable (L) (small : s.numProcs ≤ kMaxSharers)
include L small

theorem Course.nodeTick (reached : (System.machine F ficiPort s).Reachable (coherenceMode F s traces) σ)
    (bound : i < s.numProcs) (waits : σ.ticked i = false) :
    ∃ σ', Course s (fun _ => False) σ [.tick i] σ' ∧ σ'.ticked i = true ∧ (σ'.cpus i).ntwkInNext = none := by
  obtain ⟨lines, shows, -⟩ := settled_run L small reached
  have silent := coherenceMode_silent L small reached (.tick i)
  cases ticked : (σ.cpus i).tick s i σ.stats with
  | error what =>
      exfalso
      simp [System.thrown, System.step, bound, waits, ticked] at silent
  | ok x =>
      obtain ⟨n, st⟩ := x
      refine ⟨{ σ with
          cpus := Function.update σ.cpus i n
          ticked := Function.update σ.ticked i true
          stats := st },
        .one (by simp only [System.step, bound, waits, and_self, if_true, ticked]) (fun _ _ => id) (fun _ => id),
        Function.update_self .., ?_⟩
      simp only [Function.update_self]
      exact (tick_ticked ticked).1.ntwkInNext.trans (shows.net.tocked i bound waits)

theorem Course.directoryTick (reached : (System.machine F ficiPort s).Reachable (coherenceMode F s traces) σ)
    (waits : σ.ticked s.numProcs = false) :
    ∃ σ', Course s (fun _ => False) σ [.dirTick] σ' ∧ σ'.ticked s.numProcs = true := by
  have silent := coherenceMode_silent L small reached .dirTick
  cases ticked : System.tickDir F s σ.dir σ.clock σ.stats with
  | error what =>
      exfalso
      simp [System.thrown, System.step, waits, ticked] at silent
  | ok x =>
      obtain ⟨d, st⟩ := x
      exact ⟨{ σ with dir := d, ticked := Function.update σ.ticked s.numProcs true, stats := st },
        .one (by simp only [System.step, waits, if_true, ticked]) (fun _ _ => id) (fun _ => id),
        Function.update_self ..⟩

/-- A node's turn. -/
theorem Course.nodeTurn (reached : (System.machine F ficiPort s).Reachable (coherenceMode F s traces) σ)
    (bound : i < s.numProcs) :
    ∃ actions σ', Course s (· = i) σ actions σ' ∧ .tick i ∈ actions ∧ .tock i ∈ actions ∧
      (σ.chan s.numProcs i ≠ [] → .deliver i ∈ actions) := by
  obtain ⟨σ₁, xs, first, waits⟩ : ∃ σ₁ xs, Course s (fun _ => False) σ xs σ₁ ∧ σ₁.ticked i = false := by
    cases ticked : σ.ticked i with
    | false => exact ⟨σ, [], .empty .., ticked⟩
    | true =>
        obtain ⟨σ₁, course, waits⟩ := Course.tock bound ticked
        exact ⟨σ₁, _, course, waits⟩
  obtain ⟨σ₂, second, ticked, free⟩ := Course.nodeTick L small (first.reached reached) bound waits
  have before := first.append second
  by_cases empty : σ₂.chan s.numProcs i = []
  · obtain ⟨σ₃, last, -⟩ := Course.tock bound ticked
    refine ⟨_, σ₃, (before.append last).widen ?_, by simp, by simp, fun some => ?_⟩
    · rintro j ((no | no) | no) <;> exact no.elim
    · exact absurd empty (before.down i (fun no => no.elim id id) some)
  · obtain ⟨σ₃, third, ticked⟩ := Course.deliver bound ticked free empty
    obtain ⟨σ₄, last, -⟩ := Course.tock bound ticked
    refine ⟨_, σ₄, ((before.append third).append last).widen ?_, by simp, by simp, fun _ => by simp⟩
    rintro j (((no | no) | mine) | no)
    · exact no.elim
    · exact no.elim
    · exact mine
    · exact no.elim

/-- The turns of the first nodes. -/
theorem Course.nodeTurns (reached : (System.machine F ficiPort s).Reachable (coherenceMode F s traces) σ) (m : Nat)
    (within : m ≤ s.numProcs) :
    ∃ actions σ', Course s (· < m) σ actions σ' ∧ ∀ i < m, .tick i ∈ actions ∧ .tock i ∈ actions ∧
      (σ.chan s.numProcs i ≠ [] → .deliver i ∈ actions) := by
  induction m with
  | zero => exact ⟨[], σ, .empty .., fun i no => absurd no (Nat.not_lt_zero i)⟩
  | succ m ih =>
      obtain ⟨xs, σ₁, first, turns⟩ := ih (Nat.le_of_succ_le within)
      obtain ⟨ys, σ₂, second, tick, tock, deliver⟩ := Course.nodeTurn L small (first.reached reached) within
      refine ⟨xs ++ ys, σ₂, (first.append second).widen ?_, fun i below => ?_⟩
      · rintro j (less | rfl)
        · exact Nat.lt_succ_of_lt less
        · exact Nat.lt_succ_self j
      · rcases Nat.lt_succ_iff_lt_or_eq.mp below with less | rfl
        · obtain ⟨tick, tock, deliver⟩ := turns i less
          exact ⟨List.mem_append_left _ tick, List.mem_append_left _ tock,
            fun some => List.mem_append_left _ (deliver some)⟩
        · exact ⟨List.mem_append_right _ tick, List.mem_append_right _ tock,
            fun some => List.mem_append_right _ (deliver (first.down i (Nat.lt_irrefl i) some))⟩

/-- From every state that a run reaches there is another round. -/
theorem exists_shared_round (reached : (System.machine F ficiPort s).Reachable (coherenceMode F s traces) σ) :
    ∃ actions σ', Round s σ actions ∧ (System.machine F ficiPort s).exec σ actions = .ok σ' := by
  obtain ⟨xs, σ₁, first, turns⟩ := Course.nodeTurns L small reached s.numProcs le_rfl
  obtain ⟨σ₂, ys, second, waits⟩ :
      ∃ σ₂ ys, Course s (fun _ => False) σ₁ ys σ₂ ∧ σ₂.ticked s.numProcs = false := by
    cases ticked : σ₁.ticked s.numProcs with
    | false => exact ⟨σ₁, [], .empty .., ticked⟩
    | true =>
        obtain ⟨σ₂, course, waits, -⟩ := Course.dirTock ticked
        exact ⟨σ₂, _, course, waits⟩
  have before := first.append second
  obtain ⟨σ₃, third, ticked⟩ := Course.directoryTick L small (before.reached reached) waits
  have before := before.append third
  obtain ⟨zs, σ₄, ran, ticked, -, handed⟩ := dirDelivers ticked s.numProcs le_rfl
  obtain ⟨σ₅, last, -⟩ := Course.dirTock ticked
  refine ⟨xs ++ ys ++ [.dirTick] ++ zs ++ [.dirTock], σ₅, ⟨fun i below => ?_, fun i below => ?_,
    fun i below some => ?_, by simp, by simp, fun i below some => ?_⟩, ?_⟩
  · simp [(turns i below).1]
  · simp [(turns i below).2.1]
  · simp [(turns i below).2.2 some]
  · simp [handed i below (before.up i some)]
  · rw [Machine.exec_append, Machine.exec_append, before.ran]
    simp only [Except.bind, ran]
    exact last.ran

end

/-- With nothing left to do nothing is on its way, and every entry rests. -/
theorem Underway.drained (under : Underway L s traces σ lines) (none : σ.todo s (sharedBlocks s traces) lines = 0) :
    (∀ i < s.numProcs, σ.carried s i = [] ∧ σ.arriving s i = []) ∧ ∀ b, (σ.dir.directory b).state.Stable := by
  have rest (b : BlockId) (i : NodeId) : ((lines b).slot i).phase = .rest := by
    by_contra asks
    obtain ⟨bound, mem⟩ := under.asker asks
    have blocks : ∑ c ∈ sharedBlocks s traces, (lines c).rank s.nodes = 0 := (Nat.add_eq_zero_iff.mp none).2
    have rank := Finset.sum_eq_zero_iff.mp blocks b mem
    exact asks (Block.rest_of_rank rank (mem_nodes.mpr bound))
  have idle (b : BlockId) (i : NodeId) := Block.idle_of_rest (under.shows.abs b).inv (rest b) i
  refine ⟨fun i bound => ⟨?_, ?_⟩, fun b => under.stable (Block.stable_of_rest (under.shows.abs b).inv (rest b))⟩
  · by_contra some
    obtain ⟨m, mem⟩ := List.exists_mem_of_ne_nil _ some
    have here : 0 < about m.block (σ.carried s i) m.kind := about_pos.mpr ⟨m, mem, rfl, rfl⟩
    rw [(under.shows.abs m.block).upward i bound, up, rest, idle, under.unwritten] at here
    simp [upRequest, upReply] at here
  · by_contra some
    obtain ⟨m, mem⟩ := List.exists_mem_of_ne_nil _ some
    have here : (m.kind, m.dirty) ∈ orders m.block (σ.arriving s i) :=
      List.mem_map.mpr ⟨m, List.mem_filter.mpr ⟨mem, by simp⟩, rfl⟩
    rw [(under.shows.abs m.block).downward i bound, down, rest, idle] at here
    cases here

/-- After enough rounds everybody is done. -/
theorem Rounds.finished (L : Laws F) (small : s.numProcs ≤ kMaxSharers) (defers : F.Defers) {k : Nat}
    (rounds : Rounds s (coherenceMode F s traces) k σ) (enough : completionRounds s traces ≤ k) :
    σ.isDone s ∧ (∀ i < s.numProcs, σ.carried s i = [] ∧ σ.arriving s i = []) ∧
      ∀ b, (σ.dir.directory b).state.Stable := by
  obtain ⟨v, kept, le⟩ := rounds.ahead L small defers
  have none : σ.todo s (sharedBlocks s traces) v.lines = 0 := by
    rcases kept.waits with ⟨none, -⟩ | ⟨some, -⟩
    · exact none
    · have pos : 0 < σ.todo s (sharedBlocks s traces) v.lines * (longest s traces + 1) :=
        Nat.mul_pos (Nat.pos_of_ne_zero some) (Nat.succ_pos _)
      unfold System.ahead at le
      omega
  exact ⟨kept.under.isDone none, kept.under.drained none⟩

/-- Every protocol takes every CPU through its trace, whatever the CPUs share and however the ring and the
    nodes' cycles interleave: there is always another round, and after enough of them all are done and
    nothing is on its way. -/
theorem coherence_mode_completes (p : Protocol) (s : Settings) (small : s.numProcs ≤ kMaxSharers)
    (traces : NodeId → List Instruction) :
    (∀ k σ, Rounds s (coherenceMode p.fsm s traces) k σ → completionRounds s traces ≤ k →
        σ.isDone s ∧ (∀ i < s.numProcs, σ.carried s i = [] ∧ σ.arriving s i = []) ∧
          ∀ b, (σ.dir.directory b).state.Stable) ∧
      ∀ σ, (System.machine p.fsm ficiPort s).Reachable (coherenceMode p.fsm s traces) σ →
        ∃ actions σ', Round s σ actions ∧ (System.machine p.fsm ficiPort s).exec σ actions = .ok σ' := by
  exact ⟨fun k σ rounds enough => rounds.finished p.laws small p.defers enough,
    fun σ reached => exists_shared_round p.laws small reached⟩

/-- The two rivals under MOESIF go through as many rounds as they need. -/
theorem coherence_mode_completes_rivals :
    ∃ σ, Rounds rivalSettings (coherenceMode moesif rivalSettings rivals) 2276 σ ∧
      σ.isDone rivalSettings ∧ (∀ i < 2, σ.carried rivalSettings i = [] ∧ σ.arriving rivalSettings i = []) ∧
      ∀ b, (σ.dir.directory b).state.Stable := by
  obtain ⟨finished, more⟩ := coherence_mode_completes .MOESIF rivalSettings (by decide) rivals
  obtain ⟨σ, rounds, -⟩ := exists_rounds more 2276
  exact ⟨σ, rounds, finished 2276 σ rounds (by decide)⟩

end Coherence
