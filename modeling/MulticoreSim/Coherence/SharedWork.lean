import Mathlib.Algebra.BigOperators.Group.Finset.Piecewise
import MulticoreSim.Coherence.SharedProgress

/-! # What is left to do

Whatever the CPUs share, every action takes somebody's request on or leaves all of
them where they are. How far they have to go is one number: what the CPUs have not
asked for yet, and what the lines have left of what has been asked.
-/

namespace Coherence

open DirectoryProtocol Station

variable {F : ProtocolFsm}

/-! ## The lines -/

/-- The blocks in the traces. -/
def sharedBlocks (s : Settings) (traces : NodeId → List Instruction) : Finset BlockId :=
  s.nodes.biUnion fun i => touched s (traces i)

theorem mem_sharedBlocks {s : Settings} {traces : NodeId → List Instruction} {i : NodeId} (bound : i < s.numProcs)
    {x : Instruction} (mem : x ∈ traces i) : x.block s ∈ sharedBlocks s traces :=
  Finset.mem_biUnion.mpr ⟨i, mem_nodes.mpr bound, by simpa [touched] using ⟨x, mem, rfl⟩⟩

/-- What a run shows of the network and its lines. -/
structure Underway (L : Laws F) (s : Settings) (traces : NodeId → List Instruction) (σ : System F ficiPort)
    (lines : BlockId → Block NodeId) : Prop where
  shows : Shows L (fun _ _ => False) s σ lines
  settled : Settled L σ lines
  timely : σ.Timely s
  replays : ∀ i < s.numProcs, Replays L.toAgentLaws (sharedBlocks s traces) (traces i) (σ.cpus i)
  absent : ∀ i, s.numProcs ≤ i → ∀ b, (L.view ((σ.cpus i).agents b)).want = .nothing

/-- What is left to do. -/
def System.todo (s : Settings) (blocks : Finset BlockId) (σ : System F ficiPort) (lines : BlockId → Block NodeId) :
    Nat :=
  ∑ i ∈ s.nodes, (σ.cpus i).rank s + ∑ b ∈ blocks, (lines b).rank s.nodes

/-- Nobody has got anywhere. -/
structure Unmoved (s : Settings) (σ σ' : System F ficiPort) (lines lines' : BlockId → Block NodeId) : Prop where
  still : ∀ b, (lines b).Still (lines' b)
  ranks : ∀ i < s.numProcs, (σ'.cpus i).rank s = (σ.cpus i).rank s

section

variable {L : Laws F} {s : Settings} {traces : NodeId → List Instruction} {σ σ' : System F ficiPort}
  {lines lines' : BlockId → Block NodeId} {b : BlockId} {B B' : Block NodeId} {i : NodeId} {a : Action ficiPort}

theorem Underway.initial (L : Laws F) (s : Settings) (traces : NodeId → List Instruction) :
    Underway L s traces (coherenceMode F s traces) fun _ => Block.initial NodeId where
  shows := Shows.initial L s fun _ _ _ => id
  settled := {
    stations := fun i => ⟨.idle, .initial L.toAgentLaws (traces i)⟩
    closed := fun _ => Block.Closed.initial L.profile
    live := fun _ => ⟨Block.Live.initial, Block.Untrapped.initial⟩ }
  timely busy := by cases busy
  replays i _ := Replays.initial L.toAgentLaws _ (traces i)
  absent i _ b := by
    change (L.view F.initial).want = .nothing
    rw [L.view_initial]

/-- Who has a request out is one of the CPUs, and asks for a block of the traces. -/
theorem Underway.asker (under : Underway L s traces σ lines) (asks : ((lines b).slot i).phase ≠ .rest) :
    i < s.numProcs ∧ b ∈ sharedBlocks s traces := by
  have view := (under.shows.abs b).view i
  have want : (L.view ((σ.cpus i).agents b)).want ≠ .nothing := by
    rw [view]
    exact fun nothing => asks (((under.shows.abs b).inv.slots i).rest.mp nothing)
  have bound : i < s.numProcs := by
    by_contra out
    exact want (under.absent i (Nat.le_of_not_lt out) b)
  exact ⟨bound, (under.replays i bound).agents b want⟩

theorem Underway.among (under : Underway L s traces σ lines) (b : BlockId) : (lines b).Among s.nodes where
  asks i asks := mem_nodes.mpr (under.asker asks).1
  told i told := by
    refine mem_nodes.mpr ((under.shows.abs b).entry.members.bound i ?_)
    by_contra out
    exact told ((under.shows.abs b).inv.outsiders i out)
  members i mem := mem_nodes.mpr ((under.shows.abs b).entry.members.bound i mem)

theorem Underway.rest (under : Underway L s traces σ lines) (out : b ∉ sharedBlocks s traces) (i : NodeId) :
    ((lines b).slot i).phase = .rest := by
  by_contra asks
  exact out (under.asker asks).2

theorem Settled.step (small : s.numProcs ≤ kMaxSharers) (shows : Shows L (fun _ _ => False) s σ lines)
    (settled : Settled L σ lines) (step : σ.step s a = .ok σ')
    (advances : ∀ b, Advance L (fun _ _ => False) s σ a b (lines b) (lines' b)) : Settled L σ' lines' where
  stations i := Station.At.step (settled.stations i) step
  closed b := (advances b).steps.closed (fun _ _ => Chosen.event) (fun _ _ => Chosen.keeps)
    (shows.abs b).inv (shows.abs b).within (settled.closed b)
  live b := by
    have fed : Fed L s σ a := by
      cases a with
      | dirTick =>
          intro r rest free queue
          exact L.fed ((shows.abs r.block).meets shows.net small free queue) (settled.closed r.block)
      | tick i | tock i | deliver i | external i event | dirTock | dirDeliver src => trivial
    exact (advances b).live fed (shows.abs b).inv (settled.live b).1 (settled.live b).2

/-- An action that asks for nothing on a line takes it on or leaves it alone. -/
theorem Underway.line (under : Underway L s traces σ lines)
    (advance : Advance L (fun _ _ => False) s σ a b (lines b) B')
    (quiet : ∀ i, a = .tick i → ¬Asks ((σ.cpus i).portStep ((σ.cpus i).called s i)) b) :
    B'.rank s.nodes < (lines b).rank s.nodes ∨
      B'.rank s.nodes = (lines b).rank s.nodes ∧ (lines b).Still B' := by
  have abs := under.shows.abs b
  have steps := advance.steps.under (I := fun X => X.Inv ∧ L.profile.Within X ∧ X.Closed L.profile)
    ⟨abs.inv, abs.within, under.settled.closed b⟩ ?_
  · refine steps.rank abs.inv (under.among b) ?_
    rintro X e ⟨chosen, inv, -, closed⟩ enabled
    cases a with
    | tick i =>
        rcases chosen with ⟨-, ⟨m, mem, -⟩, -⟩ | ⟨-, -, m, a, arrived, about, answer, ⟨⟨q, rfl⟩, toProc⟩ | ⟨rfl, -⟩⟩ |
          takes
        · have none : ((σ.cpus i).called s i).sends = [] := FiciCpu.tick_sends _ s i _
          rw [none] at mem
          cases mem
        · exact absurd ⟨m, a, arrived, about, about ▸ answer, toProc⟩ (quiet i rfl)
        · exact .inr ⟨i, rfl⟩
        · left
          cases e <;> first | exact takes.elim | trivial
    | dirTick =>
        left
        rcases chosen with ⟨i, g, rfl⟩ | ⟨r, rest, Y, -, -, -, -, legal⟩
        · trivial
        · cases e with
          | writeback i =>
              have notices := (closed.slots i).notices
              exact absurd enabled.2.2 (by omega)
          | ask i r | evict i | lose i | refill i => cases legal.2.1
          | _ => trivial
    | external i event => exact event.elim
    | tock i | deliver i | dirTock | dirDeliver src => exact chosen.elim
  · rintro X e ⟨inv, within, closed⟩ chosen enabled
    exact ⟨inv.after enabled, within.after enabled chosen.event,
      closed.after inv within enabled chosen.event chosen.keeps⟩

/-- A request for a line adds what is set aside for it. -/
theorem Underway.asked (under : Underway L s traces σ lines) (bound : i < s.numProcs)
    (advance : Advance L (fun _ _ => False) s σ (.tick i) b (lines b) B') :
    B'.rank s.nodes ≤ (lines b).rank s.nodes + s.cost := by
  have abs := under.shows.abs b
  have kept := advance.steps.keep (I := fun X => X.Inv ∧ X.Among s.nodes ∧
    (X.rank s.nodes ≤ (lines b).rank s.nodes ∨
      X.rank s.nodes ≤ (lines b).rank s.nodes + s.cost ∧ ∃ q, (X.slot i).phase = .asked q))
    ⟨abs.inv, under.among b, .inl (Nat.le_refl _)⟩ ?_
  · exact kept.2.2.elim (fun le => le.trans (Nat.le_add_right _ _)) And.left
  · rintro X e ⟨inv, among, sofar⟩ chosen enabled
    have inv' := inv.after enabled
    rcases chosen with ⟨-, ⟨m, mem, -⟩, -⟩ | ⟨-, -, m, a, -, -, -, ⟨⟨q, rfl⟩, -⟩ | ⟨rfl, -⟩⟩ | takes
    · have none : ((σ.cpus i).called s i).sends = [] := FiciCpu.tick_sends _ s i _
      rw [none] at mem
      cases mem
    · refine ⟨inv', among.after inv enabled ?_, .inr ?_⟩
      · rintro j r same
        cases same
        exact mem_nodes.mpr bound
      · rcases sofar with le | ⟨-, r, before⟩
        · refine ⟨Block.rank_ask.trans (Nat.add_le_add_right le _), q, ?_⟩
          simp [Block.after, Slot.ask]
        · cases before.symm.trans enabled.1
    · refine ⟨inv', among.after inv enabled (fun j r same => by cases same), .inl ?_⟩
      have still : X.Still (X.after (.refill i)) := Block.still_modify (fun _ => rfl) fun _ => rfl
      rw [Block.still_rank still rfl]
      rcases sofar with le | ⟨-, r, before⟩
      · exact le
      · cases before.symm.trans enabled.1
    · have works : e.Works := by cases e <;> first | exact takes.elim | trivial
      have less := Block.rank_after inv among enabled works
      refine ⟨inv', among.after inv enabled ?_, ?_⟩
      · rintro j r rfl
        exact takes.elim
      · rcases sofar with le | ⟨le, r, before⟩
        · exact .inl (less.le.trans le)
        · refine .inr ⟨less.le.trans le, r, ?_⟩
          cases e with
          | accept j =>
              cases takes
              obtain ⟨g, granted⟩ := enabled
              cases before.symm.trans granted
          | drop j | surrender j | share j | own j keep =>
              cases takes
              simpa [Block.after, Slot.answer] using before
          | _ => exact takes.elim

/-! ## One step -/

section

theorem step_tick (step : σ.step s (.tick i) = .ok σ') : i < s.numProcs ∧
    ∃ n st, (σ.cpus i).tick s i σ.stats = .ok (n, st) ∧
      σ' = { σ with
        cpus := Function.update σ.cpus i n
        ticked := Function.update σ.ticked i true
        stats := st } := by
  simp only [System.step] at step
  split at step
  · next here =>
      split at step
      · cases step
      · next n st ticked => exact ⟨here.1, n, st, ticked, (Except.ok.inj step).symm⟩
  · cases step

theorem step_tock (step : σ.step s (.tock i) = .ok σ') : i < s.numProcs ∧
    σ' = { σ with
      cpus := Function.update σ.cpus i (σ.cpus i).tock
      chan := System.send σ.chan i (σ.cpus i).ntwkOutNext
      ticked := Function.update σ.ticked i false } := by
  simp only [System.step] at step
  split at step
  · next here => exact ⟨here.1, (Except.ok.inj step).symm⟩
  · cases step

theorem step_deliver (step : σ.step s (.deliver i) = .ok σ') : i < s.numProcs ∧
    ∃ m rest, σ.chan s.numProcs i = m :: rest ∧
      σ' = { σ with
        cpus := Function.update σ.cpus i { σ.cpus i with ntwkInNext := some m }
        chan := Function.update σ.chan s.numProcs (Function.update (σ.chan s.numProcs) i rest) } := by
  simp only [System.step] at step
  split at step
  · next here =>
      split at step
      · cases step
      · next m rest queue => exact ⟨here.1, m, rest, queue, (Except.ok.inj step).symm⟩
  · cases step

theorem step_dirTick (step : σ.step s .dirTick = .ok σ') :
    σ.ticked s.numProcs = false ∧ ∃ d st, System.tickDir F s σ.dir σ.clock σ.stats = .ok (d, st) ∧
      σ' = { σ with dir := d, ticked := Function.update σ.ticked s.numProcs true, stats := st } := by
  simp only [System.step] at step
  split at step
  · next waits =>
      split at step
      · cases step
      · next d st ticked => exact ⟨waits, d, st, ticked, (Except.ok.inj step).symm⟩
  · cases step

theorem step_dirTock (step : σ.step s .dirTock = .ok σ') :
    σ.ticked s.numProcs = true ∧
      σ' = { σ with
        dir := { σ.dir.tock with ntwkOutNext := [] }
        chan := System.send σ.chan s.numProcs σ.dir.ntwkOutNext
        ticked := Function.update σ.ticked s.numProcs false
        clock := σ.clock + 1 } := by
  simp only [System.step] at step
  split at step
  · next ticked => exact ⟨ticked, (Except.ok.inj step).symm⟩
  · cases step

theorem step_dirDeliver (step : σ.step s (.dirDeliver i) = .ok σ') : i < s.numProcs ∧
    ∃ m rest, σ.chan i s.numProcs = m :: rest ∧
      σ' = { σ with
        dir := { σ.dir with requestNext := σ.dir.requestNext ++ [m] }
        chan := Function.update σ.chan i (Function.update (σ.chan i) s.numProcs rest) } := by
  simp only [System.step] at step
  split at step
  · next here =>
      split at step
      · cases step
      · next m rest queue => exact ⟨here.1, m, rest, queue, (Except.ok.inj step).symm⟩
  · cases step

end

/-- A CPU for whose node something is due. -/
def Due (s : Settings) (n : CpuNode F ficiPort) : Action ficiPort → NodeId → Prop
  | .tick j, i => j = i ∧ (n.stage s = s.cost + 4 ∨ n.stage s = 1 ∨ n.stage s = 0 ∧ FiciCpu.traceDone n.cpu = false)
  | .tock j, i => j = i ∧ (n.stage s = s.cost + 5 ∨ n.stage s = 2)
  | _, _ => False

/-- What a step makes of a node: it asks for one block, or for none. -/
def Goes (s : Settings) (blocks : Finset BlockId) (i : NodeId) (a : Action ficiPort) (n n' : CpuNode F ficiPort) :
    Prop :=
  n'.rank s ≤ n.rank s ∧ (Due s n a i → n'.rank s < n.rank s) ∧
      (a = .tick i → ∀ b, ¬Asks (n.portStep (n.called s i)) b) ∨
    a = .tick i ∧ n'.rank s + s.cost < n.rank s ∧ ∃ c ∈ blocks, ∀ b, Asks (n.portStep (n.called s i)) b → b = c

theorem Underway.node (under : Underway L s traces σ lines) (bound : i < s.numProcs) (step : σ.step s a = .ok σ') :
    Replays L.toAgentLaws (sharedBlocks s traces) (traces i) (σ'.cpus i) ∧
      Goes s (sharedBlocks s traces) i a (σ.cpus i) (σ'.cpus i) := by
  have replays := under.replays i bound
  obtain ⟨t, here⟩ := under.settled.stations i
  have same (cpus : σ'.cpus i = σ.cpus i) (notDue : ¬Due s (σ.cpus i) a i) (other : a ≠ .tick i) :
      Replays L.toAgentLaws (sharedBlocks s traces) (traces i) (σ'.cpus i) ∧
        Goes s (sharedBlocks s traces) i a (σ.cpus i) (σ'.cpus i) := by
    rw [cpus]
    exact ⟨replays, .inl ⟨Nat.le_refl _, fun due => absurd due notDue, fun eq => absurd eq other⟩⟩
  cases a with
  | tick j =>
      obtain ⟨-, n, st, ticked, rfl⟩ := step_tick step
      by_cases eq : i = j
      · subst eq
        simp only [Function.update_self]
        obtain ⟨replays', ⟨le, none, due⟩ | ⟨less, c, mem, one⟩⟩ :=
          replays.tick here (fun x => mem_sharedBlocks bound) ticked
        · exact ⟨replays', .inl ⟨le, fun d => due d.2, fun _ => none⟩⟩
        · exact ⟨replays', .inr ⟨rfl, less, c, mem, one⟩⟩
      · exact same (Function.update_of_ne eq _ _) (fun due => eq due.1.symm) fun act => eq (Action.tick.inj act).symm
  | tock j =>
      obtain ⟨-, rfl⟩ := step_tock step
      by_cases eq : i = j
      · subst eq
        simp only [Function.update_self]
        obtain ⟨replays', le, due⟩ := replays.tock (s := s) here
        exact ⟨replays', .inl ⟨le, fun d => due d.2, fun act => by cases act⟩⟩
      · exact same (Function.update_of_ne eq _ _) (fun due => eq due.1.symm) fun act => by cases act
  | deliver j =>
      obtain ⟨-, m, rest, -, rfl⟩ := step_deliver step
      by_cases eq : i = j
      · subst eq
        simp only [Function.update_self]
        exact ⟨⟨replays.trace, replays.traceDone, replays.requests, replays.agents⟩,
          .inl ⟨Nat.le_refl _, fun due => due.elim, fun act => by cases act⟩⟩
      · exact same (Function.update_of_ne eq _ _) id fun act => by cases act
  | external j event => exact event.elim
  | dirTick =>
      obtain ⟨-, d, st, -, rfl⟩ := step_dirTick step
      exact same rfl id fun act => by cases act
  | dirTock =>
      obtain ⟨-, rfl⟩ := step_dirTock step
      exact same rfl id fun act => by cases act
  | dirDeliver j =>
      obtain ⟨-, m, rest, -, rfl⟩ := step_dirDeliver step
      exact same rfl id fun act => by cases act

/-- No action reaches a node that is not there. -/
theorem step_absent (step : σ.step s a = .ok σ') (out : s.numProcs ≤ i) : σ'.cpus i = σ.cpus i := by
  have ne {j : NodeId} (bound : j < s.numProcs) : i ≠ j := fun same => absurd (same ▸ bound) (Nat.not_lt.mpr out)
  cases a with
  | tick j =>
      obtain ⟨bound, n, st, -, rfl⟩ := step_tick step
      exact Function.update_of_ne (ne bound) _ _
  | tock j =>
      obtain ⟨bound, rfl⟩ := step_tock step
      exact Function.update_of_ne (ne bound) _ _
  | deliver j =>
      obtain ⟨bound, m, rest, -, rfl⟩ := step_deliver step
      exact Function.update_of_ne (ne bound) _ _
  | external j event => exact event.elim
  | dirTick =>
      obtain ⟨-, d, st, -, rfl⟩ := step_dirTick step
      rfl
  | dirTock =>
      obtain ⟨-, rfl⟩ := step_dirTock step
      rfl
  | dirDeliver j =>
      obtain ⟨-, m, rest, -, rfl⟩ := step_dirDeliver step
      rfl

/-- Asking for a block takes more off a CPU's way than it puts on the block's. -/
theorem Underway.asking (under : Underway L s traces σ lines) (bound : i < s.numProcs)
    (advances : ∀ b, Advance L (fun _ _ => False) s σ (.tick i) b (lines b) (lines' b))
    (others : ∀ j < s.numProcs, j ≠ i → (σ'.cpus j).rank s ≤ (σ.cpus j).rank s)
    (less : (σ'.cpus i).rank s + s.cost < (σ.cpus i).rank s) {c : BlockId}
    (one : ∀ b, Asks ((σ.cpus i).portStep ((σ.cpus i).called s i)) b → b = c) :
    σ'.todo s (sharedBlocks s traces) lines' < σ.todo s (sharedBlocks s traces) lines := by
  have nodes : ∑ j ∈ s.nodes, ((σ'.cpus j).rank s + if j = i then s.cost + 1 else 0) ≤
      ∑ j ∈ s.nodes, (σ.cpus j).rank s := by
    refine Finset.sum_le_sum fun j mem => ?_
    split
    · next same =>
        subst same
        omega
    · next other => exact others j (mem_nodes.mp mem) other
  have blocks : ∑ b ∈ sharedBlocks s traces, (lines' b).rank s.nodes ≤
      ∑ b ∈ sharedBlocks s traces, ((lines b).rank s.nodes + if b = c then s.cost else 0) := by
    refine Finset.sum_le_sum fun b _ => ?_
    split
    · exact under.asked bound (advances b)
    · next other =>
        refine (under.line (advances b) fun j same => ?_).elim Nat.le_of_lt fun equal => equal.1.le
        cases same
        exact fun asks => other (one b asks)
  have own : ∑ j ∈ s.nodes, (if j = i then s.cost + 1 else 0) = s.cost + 1 := by
    rw [Finset.sum_ite_eq' s.nodes i fun _ => s.cost + 1, if_pos (mem_nodes.mpr bound)]
  have set : ∑ b ∈ sharedBlocks s traces, (if b = c then s.cost else 0) ≤ s.cost := by
    rw [Finset.sum_ite_eq' (sharedBlocks s traces) c fun _ => s.cost]
    split
    · exact Nat.le_refl _
    · exact Nat.zero_le _
  rw [Finset.sum_add_distrib, own] at nodes
  rw [Finset.sum_add_distrib] at blocks
  unfold System.todo
  omega

/-- Every action leaves less to do, or leaves everybody where they are; and what a CPU's node is due to
    do leaves less. -/
theorem Underway.step (under : Underway L s traces σ lines) (small : s.numProcs ≤ kMaxSharers)
    (step : σ.step s a = .ok σ') :
    ∃ lines', Underway L s traces σ' lines' ∧
      (σ'.todo s (sharedBlocks s traces) lines' < σ.todo s (sharedBlocks s traces) lines ∨
        σ'.todo s (sharedBlocks s traces) lines' = σ.todo s (sharedBlocks s traces) lines ∧
          Unmoved s σ σ' lines lines' ∧ ∀ i < s.numProcs, ¬Due s (σ.cpus i) a i) := by
  obtain ⟨lines', advances⟩ := step_advances fici_laws under.shows.net small under.shows.abs
    (tidy_of_none σ a) step
  have under' : Underway L s traces σ' lines' := {
    shows := ⟨under.shows.net.step fici_laws small under.shows.abs step, fun b => (advances b).1⟩
    settled := under.settled.step small under.shows step fun b => (advances b).2
    timely := under.timely.step step
    replays := fun i bound => (under.node bound step).1
    absent := fun i out b => by
      rw [step_absent step out]
      exact under.absent i out b }
  refine ⟨lines', under', ?_⟩
  by_cases asking : ∃ i < s.numProcs, a = .tick i ∧ (σ'.cpus i).rank s + s.cost < (σ.cpus i).rank s ∧
      ∃ c ∈ sharedBlocks s traces, ∀ b, Asks ((σ.cpus i).portStep ((σ.cpus i).called s i)) b → b = c
  · obtain ⟨i, bound, rfl, less, c, -, one⟩ := asking
    refine .inl (under.asking bound (fun b => (advances b).2) (fun j below other => ?_) less one)
    rcases (under.node below step).2 with ⟨le, -⟩ | ⟨same, -⟩
    · exact le
    · exact absurd (Action.tick.inj same).symm other
  · have node (i : NodeId) (bound : i < s.numProcs) := ((under.node bound step).2).resolve_right
      fun yes => asking ⟨i, bound, yes⟩
    have line (b : BlockId) := under.line (advances b).2 fun i same => by
      subst same
      exact (node i (step_tick step).1).2.2 rfl b
    have nodes := Finset.sum_le_sum fun i (mem : i ∈ s.nodes) => (node i (mem_nodes.mp mem)).1
    have blocks := Finset.sum_le_sum fun b (_ : b ∈ sharedBlocks s traces) =>
      (line b).elim Nat.le_of_lt fun equal => equal.1.le
    by_cases less : σ'.todo s (sharedBlocks s traces) lines' < σ.todo s (sharedBlocks s traces) lines
    · exact .inl less
    · unfold System.todo at less ⊢
      have ranks := (Finset.sum_eq_sum_iff_of_le fun i (mem : i ∈ s.nodes) =>
        (node i (mem_nodes.mp mem)).1).mp (by omega)
      have equal := (Finset.sum_eq_sum_iff_of_le fun b (_ : b ∈ sharedBlocks s traces) =>
        (line b).elim Nat.le_of_lt fun equal => equal.1.le).mp (by omega)
      refine .inr ⟨by omega, ⟨fun b => ?_, fun i bound => ranks i (mem_nodes.mpr bound)⟩, fun i bound due => ?_⟩
      · by_cases mem : b ∈ sharedBlocks s traces
        · rcases line b with lower | ⟨-, still⟩
          · exact absurd (equal b mem) lower.ne
          · exact still
        · exact Block.still_of_rest (under.shows.abs b).inv (under'.shows.abs b).inv (under.rest mem) (under'.rest mem)
      · exact ((node i bound).2.1 due).ne (ranks i (mem_nodes.mpr bound))

end

end Coherence
