import MulticoreSim.Coherence.Refinement

/-! # Runs of the network

The network's bookkeeping holds in every run, over any port that sends eviction
notices only, and so does what the abstract lines keep.
-/

namespace Coherence

open DirectoryProtocol

variable {F : ProtocolFsm} {π : CpuPort} {L : Laws F} {R : π.State → BlockId → Prop} {s : Settings}
  {σ σ' : System F π} {b : BlockId} {B B' : Block NodeId} {i : NodeId}

/-! ## Frames of a node's tick -/

/-- What the agents' halves of a tick leave alone. -/
structure Ticked (s : Settings) (i : NodeId) (n n' : CpuNode F π) : Prop where
  cpuInNext : n'.cpuInNext = n.cpuInNext
  ntwkInNext : n'.ntwkInNext = n.ntwkInNext
  out : ∀ m ∈ n'.ntwkOutNext, m ∈ n.ntwkOutNext ∨ m.src = i ∧ m.dst = s.numProcs

theorem apply_ticked (n : CpuNode F π) (s : Settings) (i : NodeId) (block : BlockId)
    (a : AgentStep F.AgentState) : Ticked s i n (n.apply s i block a) where
  cpuInNext := rfl
  ntwkInNext := rfl
  out m mem := by
    rcases List.mem_append.mp mem with old | new
    · exact .inl old
    · right
      cases kind : a.toDir with
      | none => simp [kind] at new
      | some k =>
          rw [kind, Option.map_some, Option.toList_some, List.mem_singleton] at new
          rw [new]
          exact ⟨rfl, rfl⟩

theorem tickProc_ticked {n n' : CpuNode F π} {st st' : CoherenceStats}
    (step : n.tickProc s i st = .ok (n', st')) :
    Ticked s i n n' ∧ n'.cpuIn = none ∧ n'.ntwkIn = n.ntwkIn := by
  unfold CpuNode.tickProc at step
  split at step
  · next free =>
      cases step
      exact ⟨⟨rfl, rfl, fun _ => .inl⟩, free, rfl⟩
  · next m arrived =>
      split at step
      · cases step
      · next a answer =>
          cases step
          exact ⟨⟨rfl, rfl, (apply_ticked n s i m.block a).out⟩, rfl, rfl⟩

theorem tickNtwk_ticked {n n' : CpuNode F π} {st st' : CoherenceStats}
    (step : n.tickNtwk s i st = .ok (n', st')) :
    Ticked s i n n' ∧ n'.cpuIn = n.cpuIn ∧ n'.ntwkIn = none := by
  unfold CpuNode.tickNtwk at step
  split at step
  · next free =>
      cases step
      exact ⟨⟨rfl, rfl, fun _ => .inl⟩, rfl, free⟩
  · next m arrived =>
      split at step
      · cases step
      · next a answer =>
          cases step
          exact ⟨⟨rfl, rfl, (apply_ticked n s i m.block a).out⟩, rfl, rfl⟩

/-- A whole tick of a CPU node. -/
theorem tick_ticked {n n' : CpuNode F π} {st st' : CoherenceStats}
    (step : n.tick s i st = .ok (n', st')) :
    Ticked s i (n.portStep (n.called s i)) n' ∧ n'.cpuIn = none ∧ n'.ntwkIn = none := by
  unfold CpuNode.tick at step
  simp only at step
  split at step
  · cases step
  · next n₁ st₁ proc =>
      obtain ⟨first, cpuIn, -⟩ := tickProc_ticked proc
      obtain ⟨second, cpuIn', ntwkIn⟩ := tickNtwk_ticked step
      refine ⟨⟨second.cpuInNext.trans first.cpuInNext, second.ntwkInNext.trans first.ntwkInNext,
        fun m mem => ?_⟩, cpuIn'.trans cpuIn, ntwkIn⟩
      rcases second.out m mem with old | new
      · exact first.out m old
      · exact .inr new

/-! ## The network's bookkeeping -/

theorem Network.initial (s : Settings) (cpu : NodeId → π.State) :
    Network s (System.initial F π s cpu) where
  out _ m mem := by cases mem
  sent _ _ m mem := by cases mem
  queued m mem := by cases mem
  ticked _ _ ticked := by cases ticked
  tocked _ _ _ := rfl
  sendE _ := rfl

/-- Replacing one node's port and outbox. -/
theorem Network.cpu (net : Network s σ) {n : CpuNode F π} {ticked : NodeId → Bool}
    {st : CoherenceStats} (others : ∀ j, j ≠ i → ticked j = σ.ticked j)
    (out : ∀ m ∈ n.ntwkOutNext, m.src = i ∧ m.dst = s.numProcs)
    (done : ticked i = true → n.ntwkIn = none ∧ n.cpuIn = none)
    (fresh : ticked i = false → n.ntwkInNext = none) :
    Network s { σ with cpus := Function.update σ.cpus i n, ticked := ticked, stats := st } where
  out j m mem := by
    by_cases eq : j = i
    · subst j
      exact out m (by simpa using mem)
    · exact net.out j m (by simpa [eq] using mem)
  sent := net.sent
  queued := net.queued
  ticked j bound here := by
    by_cases eq : j = i
    · subst j
      simpa using done here
    · simpa [eq] using net.ticked j bound ((others j eq).symm.trans here)
  tocked j bound here := by
    by_cases eq : j = i
    · subst j
      simpa using fresh here
    · simpa [eq] using net.tocked j bound ((others j eq).symm.trans here)
  sendE := net.sendE

theorem Network.tick (net : Network s σ) (laws : PortLaws π R)
    (step : σ.step s (.tick i) = .ok σ') : Network s σ' := by
  simp only [System.step] at step
  split at step
  · next here =>
      split at step
      · cases step
      · next n st taken =>
          cases step
          obtain ⟨frame, cpuIn, ntwkIn⟩ := tick_ticked taken
          refine net.cpu (fun j ne => by simp [ne]) ?_ (fun _ => ⟨ntwkIn, cpuIn⟩)
            (fun not => by simp at not)
          intro m mem
          rcases frame.out m mem with old | new
          · rcases List.mem_append.mp old with old | sent
            · exact net.out i m old
            · obtain ⟨src, dst, -⟩ := laws.tick_sends _ _ _ _ m sent
              exact ⟨src, dst⟩
          · exact new
  · cases step

theorem Network.external (net : Network s σ) (laws : PortLaws π R) {event : π.Event}
    (step : σ.step s (.external i event) = .ok σ') : Network s σ' := by
  simp only [System.step] at step
  split at step
  · next here =>
      split at step
      · cases step
      · next p called =>
          cases step
          refine net.cpu (fun _ _ => rfl) ?_ (fun ticked => ?_) (net.tocked i here.1)
          · intro m mem
            rcases List.mem_append.mp mem with old | sent
            · exact net.out i m old
            · obtain ⟨src, dst, -⟩ := laws.external_sends _ _ _ _ _ _ called m sent
              exact ⟨src, dst⟩
          · cases here.2.symm.trans ticked
  · cases step

theorem Network.tock (net : Network s σ) (step : σ.step s (.tock i) = .ok σ') : Network s σ' := by
  simp only [System.step] at step
  split at step
  · cases step
    have kept : Network s { σ with
        cpus := Function.update σ.cpus i (σ.cpus i).tock
        ticked := Function.update σ.ticked i false } :=
      net.cpu (fun j ne => by simp [ne])
        (fun m mem => by simp [CpuNode.tock] at mem) (fun ticked => by simp at ticked)
        (fun _ => rfl)
    refine ⟨kept.out, fun j bound m mem => ?_, kept.queued, kept.ticked, kept.tocked, kept.sendE⟩
    simp only at mem
    by_cases eq : j = i
    · subst j
      simp only [send_self, List.mem_append, List.mem_filter] at mem
      rcases mem with old | new
      · exact net.sent i bound m old
      · exact (net.out i m new.1).1
    · rw [send_of_ne _ _ eq] at mem
      exact net.sent j bound m mem
  · cases step

theorem Network.deliver (net : Network s σ) (step : σ.step s (.deliver i) = .ok σ') :
    Network s σ' := by
  simp only [System.step] at step
  split at step
  · next here =>
      split at step
      · cases step
      · next m rest waiting =>
          cases step
          have kept : Network s { σ with
              cpus := Function.update σ.cpus i { σ.cpus i with ntwkInNext := some m } } :=
            net.cpu (fun _ _ => rfl) (net.out i)
              (net.ticked i here.1) (fun not => by simp [here.2.1] at not)
          refine ⟨kept.out, fun j bound m' mem => ?_, kept.queued, kept.ticked, kept.tocked,
            kept.sendE⟩
          have ne : j ≠ s.numProcs := Nat.ne_of_lt bound
          exact net.sent j bound m' (by simpa [ne] using mem)
  · cases step

theorem Network.dirTock (net : Network s σ) (step : σ.step s .dirTock = .ok σ') :
    Network s σ' := by
  simp only [System.step] at step
  split at step
  · cases step
    refine ⟨net.out, fun j bound m mem => ?_, fun m mem => ?_, fun j bound here => ?_,
      fun j bound here => ?_, net.sendE⟩
    · simp only at mem
      rw [send_of_ne _ _ (Nat.ne_of_lt bound)] at mem
      exact net.sent j bound m mem
    · refine net.queued m ?_
      simp only [DirectoryController.tock, List.nil_append, List.mem_append] at mem ⊢
      exact mem.symm
    · exact net.ticked j bound (by simpa [Nat.ne_of_lt bound] using here)
    · exact net.tocked j bound (by simpa [Nat.ne_of_lt bound] using here)
  · cases step

theorem Network.dirDeliver (net : Network s σ) {src : NodeId}
    (step : σ.step s (.dirDeliver src) = .ok σ') : Network s σ' := by
  simp only [System.step] at step
  split at step
  · next here =>
      split at step
      · cases step
      · next m rest waiting =>
          cases step
          refine ⟨net.out, fun j bound m' mem => ?_, fun m' mem => ?_, net.ticked, net.tocked,
            net.sendE⟩
          · by_cases eq : j = src
            · subst j
              refine net.sent src bound m' ?_
              rw [waiting]
              exact List.mem_cons_of_mem _ (by simpa using mem)
            · exact net.sent j bound m' (by simpa [eq] using mem)
          · simp only [List.mem_append, List.mem_singleton] at mem
            rcases mem with (old | rfl) | old
            · exact net.queued m' (by simp [old])
            · have src_eq := net.sent src here.1 m' (by simp [waiting])
              rw [src_eq]
              exact here.1
            · exact net.queued m' (by simp [old])
  · cases step

theorem scheduleDataResponse_queues (d : DirectoryController) (s : Settings) (st : CoherenceStats)
    (block : BlockId) (target : NodeId) :
    (d.scheduleDataResponse s st block target).1.requestNext = d.requestNext ∧
      (d.scheduleDataResponse s st block target).1.requestQueue = d.requestQueue := by
  unfold DirectoryController.scheduleDataResponse
  split
  · exact ⟨rfl, rfl⟩
  · simp only
    split <;> exact ⟨rfl, rfl⟩

/-- Carrying an outcome out brings no message in. -/
theorem carryOut_queues (d : DirectoryController) (s : Settings) (st : CoherenceStats) (r : Message)
    (rest : List Message) (o : Outcome) {m : Message}
    (mem : m ∈ (d.carryOut s st r rest o).1.requestNext ++
      (d.carryOut s st r rest o).1.requestQueue) : m ∈ d.requestNext ++ r :: rest := by
  have queues : (d.carryOut s st r rest o).1.requestNext =
      (if o.cycled then d.requestNext ++ [r] else d.requestNext) ∧
        (d.carryOut s st r rest o).1.requestQueue = rest := by
    unfold DirectoryController.carryOut
    simp only
    split
    · exact ⟨rfl, rfl⟩
    · exact scheduleDataResponse_queues _ _ _ _ _
  rw [queues.1, queues.2] at mem
  split at mem <;> simp only [List.mem_append, List.mem_cons, List.not_mem_nil, or_false] at mem ⊢ <;>
    tauto

theorem respond_queues (d : DirectoryController) (s : Settings) (usesE : Bool) (st : CoherenceStats) :
    (d.respond s usesE st).1.requestNext = d.requestNext ∧
      (d.respond s usesE st).1.requestQueue = d.requestQueue := by
  unfold DirectoryController.respond
  split
  · simp only
    split <;> exact ⟨rfl, rfl⟩
  · exact ⟨rfl, rfl⟩

theorem processQueue_queues {d d' : DirectoryController} {st st' : CoherenceStats}
    (step : System.processQueue F s d st = .ok (d', st')) {m : Message}
    (mem : m ∈ d'.requestNext ++ d'.requestQueue) : m ∈ d.requestNext ++ d.requestQueue := by
  unfold System.processQueue at step
  split at step
  · cases step
    exact mem
  · split at step
    · cases step
      exact mem
    · next r rest queue =>
        rw [queue]
        simp only at step
        split at step
        · next o written =>
            have eq : (d.carryOut s st r rest o).1 = d' := congrArg Prod.fst (Except.ok.inj step)
            exact carryOut_queues d s st r rest o (eq ▸ mem)
        · split at step
          · cases step
          · next o handled =>
              have eq : (d.carryOut s st r rest o).1 = d' := congrArg Prod.fst (Except.ok.inj step)
              exact carryOut_queues d s st r rest o (eq ▸ mem)

theorem respond_sendE (d : DirectoryController) (s : Settings) (usesE : Bool) (st : CoherenceStats)
    (uses : d.sendE = true → usesE = true) (marked : d.requestInProgress = false → d.sendE = false)
    (free : (d.respond s usesE st).1.requestInProgress = false) :
    (d.respond s usesE st).1.sendE = false := by
  rcases respond_fields uses s st with same | ⟨-, answered⟩
  · rw [same] at free ⊢
    exact marked free
  · rw [answered]

theorem Network.dirTick (net : Network s σ) (small : s.numProcs ≤ kMaxSharers)
    {lines : BlockId → Block NodeId} (abs : ∀ b, Abs L R s σ b (lines b))
    (step : σ.step s .dirTick = .ok σ') : Network s σ' := by
  simp only [System.step] at step
  split at step
  · split at step
    · cases step
    · next d st result =>
        cases step
        unfold System.tickDir at result
        split at result
        · cases result
        · next d' st' taken =>
            let clocked : System F π := { σ with dir := { σ.dir with currentClock := σ.clock } }
            have net' : Network s clocked :=
              ⟨net.out, net.sent, net.queued, net.ticked, net.tocked, net.sendE⟩
            have abs' : ∀ b, Abs L R s clocked b (lines b) := fun b =>
              (abs b).moved (fun _ => rfl) (fun _ _ _ => rfl) (fun _ _ => rfl) (fun _ => rfl) rfl
                (fun _ _ => id)
            obtain ⟨marked, lines', first⟩ := processQueue_advances net' small abs' taken
            have uses := uses_sendE marked fun b => (first b).1
            have dir : d = (d'.respond s F.usesE st').1 :=
              (congrArg Prod.fst (Except.ok.inj result)).symm
            subst dir
            refine ⟨net.out, net.sent, fun m mem => ?_, fun j bound here => ?_,
              fun j bound here => ?_, respond_sendE d' s F.usesE st' uses marked⟩
            · obtain ⟨next, queue⟩ := respond_queues d' s F.usesE st'
              simp only [next, queue] at mem
              exact net.queued m (processQueue_queues taken mem)
            · exact net.ticked j bound (by simpa [Nat.ne_of_lt bound] using here)
            · exact net.tocked j bound (by simpa [Nat.ne_of_lt bound] using here)
  · cases step

/-- Every action keeps the network's bookkeeping. -/
theorem Network.step (net : Network s σ) (laws : PortLaws π R) (small : s.numProcs ≤ kMaxSharers)
    {lines : BlockId → Block NodeId} (abs : ∀ b, Abs L R s σ b (lines b)) {a : Action π}
    (step : σ.step s a = .ok σ') : Network s σ' := by
  cases a with
  | tick i => exact net.tick laws step
  | tock i => exact net.tock step
  | deliver i => exact net.deliver step
  | external i event => exact net.external laws step
  | dirTick => exact net.dirTick small abs step
  | dirTock => exact net.dirTock step
  | dirDeliver src => exact net.dirDeliver step

/-! ## Lines along a run -/

/-- Before the first cycle nobody has heard of any line. -/
theorem Abs.initial (L : Laws F) (s : Settings) {cpu : NodeId → π.State}
    (empty : ∀ i < s.numProcs, ¬ R (cpu i) b) :
    Abs L R s (System.initial F π s cpu) b (Block.initial NodeId) where
  inv := Block.Inv.initial
  within := Profile.Within.initial L.profile
  view _ := L.view_initial
  upward i _ k := by simp [System.carried, System.initial, DirectoryController.make, Block.initial, up,
    upRequest, upReply]
  downward i _ := by simp [System.arriving, System.initial, DirectoryController.make, CpuNode.inbox,
    Block.initial, down, downGrant, downOrder]
  fetching i g := by simp [System.initial, DirectoryController.owes, DirectoryController.make,
    Block.initial]
  entry := Entry.initial L.profile L.marks s.numProcs b
  resident i bound has := absurd has (empty i bound)

/-- What a state shows: a line for every block, and the bookkeeping of the network. -/
structure Shows (L : Laws F) (R : π.State → BlockId → Prop) (s : Settings) (σ : System F π)
    (lines : BlockId → Block NodeId) : Prop where
  net : Network s σ
  abs : ∀ b, Abs L R s σ b (lines b)

theorem Shows.initial (L : Laws F) (s : Settings) {cpu : NodeId → π.State}
    (empty : ∀ i < s.numProcs, ∀ b, ¬ R (cpu i) b) :
    Shows L R s (System.initial F π s cpu) fun _ => Block.initial NodeId where
  net := Network.initial s cpu
  abs b := Abs.initial L s fun i bound => empty i bound b

/-- What the advances of the lines keep, along with the state's own part, holds in every run. -/
theorem Shows.run {ok : System F π → Action π → Prop} {cpu : NodeId → π.State}
    {I : System F π → (BlockId → Block NodeId) → Prop} (laws : PortLaws π R)
    (small : s.numProcs ≤ kMaxSharers) (empty : ∀ i < s.numProcs, ∀ b, ¬ R (cpu i) b)
    (tidy : ∀ σ lines a, Shows L R s σ lines → I σ lines → ok σ a → Tidy R s σ a)
    (base : I (System.initial F π s cpu) fun _ => Block.initial NodeId)
    (kept : ∀ σ lines a σ' lines', Shows L R s σ lines → I σ lines → ok σ a →
      σ.step s a = .ok σ' → (∀ b, Advance L R s σ a b (lines b) (lines' b)) →
      Shows L R s σ' lines' → I σ' lines')
    (run : (System.machine F π s).Run ok (System.initial F π s cpu) σ) :
    ∃ lines, Shows L R s σ lines ∧ I σ lines := by
  refine run.invariant (I := fun σ => ∃ lines, Shows L R s σ lines ∧ I σ lines)
    ⟨_, Shows.initial L s empty, base⟩ ?_
  rintro σ a σ' ⟨lines, shows, inv⟩ guarded stepped
  obtain ⟨lines', advances⟩ := step_advances laws shows.net small shows.abs
    (tidy σ lines a shows inv guarded) stepped
  have shows' : Shows L R s σ' lines' :=
    ⟨shows.net.step laws small shows.abs stepped, fun b => (advances b).1⟩
  exact ⟨lines', shows',
    kept σ lines a σ' lines' shows inv guarded stepped (fun b => (advances b).2) shows'⟩

/-! ## Rounds -/

/-- A round's actions, with any others between them. -/
structure Round (s : Settings) (σ : System F π) (actions : List (Action π)) : Prop where
  tick : ∀ i < s.numProcs, .tick i ∈ actions
  tock : ∀ i < s.numProcs, .tock i ∈ actions
  deliver : ∀ i < s.numProcs, σ.chan s.numProcs i ≠ [] → .deliver i ∈ actions
  dirTick : .dirTick ∈ actions
  dirTock : .dirTock ∈ actions
  dirDeliver : ∀ i < s.numProcs, σ.chan i s.numProcs ≠ [] → .dirDeliver i ∈ actions

end Coherence
