import MulticoreSim.Coherence.PresenceSlots
import MulticoreSim.Coherence.Progress
import MulticoreSim.Coherence.Uplink

/-! # What a completed run leaves behind

A full-mode run completes once the cores are through and the network says it is done.
The network asks the adapters only, and an adapter knows nothing of the eviction
notices it has sent: those are what a completed run can leave behind, and nothing else is.
They are all taken up where the caches have been quiet for long enough.
-/

namespace Coherence

open DirectoryProtocol Memory

variable {F : ProtocolFsm} {s : Settings}

/-- `CoherenceAdapter::is_done`. -/
def CoherenceAdapter.isDone (a : CoherenceAdapter) : Bool :=
  a.cacheInNext.isNone && a.outboundProc.isEmpty

/-- `Network::is_done` over adapters: the directory's node has no port and is always done. -/
def System.networkDone (s : Settings) (σ : System F adapterPort) : Bool :=
  (List.range s.numProcs).all fun i => CoherenceAdapter.isDone (σ.cpus i).cpu

/-- A core that is through has given every slot of its L1 back. -/
def System.CoresThrough (s : Settings) (σ : System F adapterPort) : Prop :=
  ∀ i < s.numProcs, ∀ e ∈ (CoherenceAdapter.l1d (σ.cpus i).cpu).mshr.table, e.valid = false

instance (σ : System F adapterPort) : Decidable (σ.CoresThrough s) := by
  unfold System.CoresThrough
  infer_instance

/-! ## What can be left -/

/-- Nothing is in a port or a queue of the node. -/
structure CpuNode.Drained (n : CpuNode F adapterPort) : Prop where
  port : CoherenceAdapter.isDone n.cpu = true
  cpuInNext : n.cpuInNext = none
  cpuIn : n.cpuIn = none
  ntwkInNext : n.ntwkInNext = none
  ntwkIn : n.ntwkIn = none
  ntwkOutNext : n.ntwkOutNext = []

/-- Nothing is queued at the directory, and memory prepares no answer. -/
structure DirectoryController.Drained (d : DirectoryController) : Prop where
  requestNext : d.requestNext = []
  requestQueue : d.requestQueue = []
  response : d.requestInProgress = false
  ntwkOutNext : d.ntwkOutNext = []

/-- No message is anywhere. -/
structure System.Drained (s : Settings) (σ : System F adapterPort) : Prop where
  cpus : ∀ i < s.numProcs, (σ.cpus i).Drained
  dir : σ.dir.Drained
  toDir : ∀ i < s.numProcs, σ.chan i s.numProcs = []
  toCpu : ∀ i < s.numProcs, σ.chan s.numProcs i = []

instance (n : CpuNode F adapterPort) : Decidable n.Drained :=
  decidable_of_iff (CoherenceAdapter.isDone n.cpu = true ∧ n.cpuInNext = none ∧ n.cpuIn = none ∧
      n.ntwkInNext = none ∧ n.ntwkIn = none ∧ n.ntwkOutNext = [])
    ⟨fun ⟨port, cpuInNext, cpuIn, ntwkInNext, ntwkIn, ntwkOutNext⟩ =>
        ⟨port, cpuInNext, cpuIn, ntwkInNext, ntwkIn, ntwkOutNext⟩,
      fun ⟨port, cpuInNext, cpuIn, ntwkInNext, ntwkIn, ntwkOutNext⟩ =>
        ⟨port, cpuInNext, cpuIn, ntwkInNext, ntwkIn, ntwkOutNext⟩⟩

instance (d : DirectoryController) : Decidable d.Drained :=
  decidable_of_iff (d.requestNext = [] ∧ d.requestQueue = [] ∧ d.requestInProgress = false ∧
      d.ntwkOutNext = [])
    ⟨fun ⟨next, queue, response, out⟩ => ⟨next, queue, response, out⟩,
      fun ⟨next, queue, response, out⟩ => ⟨next, queue, response, out⟩⟩

instance (σ : System F adapterPort) : Decidable (σ.Drained s) :=
  decidable_of_iff ((∀ i < s.numProcs, (σ.cpus i).Drained) ∧ σ.dir.Drained ∧
      (∀ i < s.numProcs, σ.chan i s.numProcs = []) ∧ ∀ i < s.numProcs, σ.chan s.numProcs i = [])
    ⟨fun ⟨cpus, dir, toDir, toCpu⟩ => ⟨cpus, dir, toDir, toCpu⟩,
      fun ⟨cpus, dir, toDir, toCpu⟩ => ⟨cpus, dir, toDir, toCpu⟩⟩

/-! ## Nodes at rest -/

/-- The node is asked for nothing, and waits for nothing. -/
structure CpuNode.AtRest (L : AgentLaws F) (n : CpuNode F adapterPort) : Prop where
  cacheInNext : CoherenceAdapter.cacheInNext n.cpu = none
  outboundProc : CoherenceAdapter.outboundProc n.cpu = []
  cpuInNext : n.cpuInNext = none
  cpuIn : n.cpuIn = none
  wants : ∀ b, (L.view (n.agents b)).want = .nothing

/-- The action fills no cache and puts out no eviction notice. -/
def Quiet (s : Settings) (σ : System F adapterPort) : Action adapterPort → Prop
  | .tick i => CoherenceAdapter.cacheInNext (σ.cpus i).cpu = none
  | .external i event => (CoherenceAdapter.core (σ.cpus i).cpu s i (σ.cpus i).cpuInNext event).sends = []
  | .tock _ | .deliver _ | .dirTick | .dirTock | .dirDeliver _ => True

instance (s : Settings) (σ : System F adapterPort) (a : Action adapterPort) : Decidable (Quiet s σ a) :=
  match a with
  | .tick i => inferInstanceAs (Decidable (CoherenceAdapter.cacheInNext (σ.cpus i).cpu = none))
  | .external i event => inferInstanceAs
      (Decidable ((CoherenceAdapter.core (σ.cpus i).cpu s i (σ.cpus i).cpuInNext event).sends = []))
  | .tock _ | .deliver _ | .dirTick | .dirTock | .dirDeliver _ => isTrue trivial

section

variable {L : AgentLaws F} {n n' : CpuNode F adapterPort} {i : NodeId} {st st' : CoherenceStats}

/-- An agent that answers its processor leaves a fill behind. -/
theorem apply_silent {b : BlockId} {a : AgentStep F.AgentState}
    (unfilled : CoherenceAdapter.cacheInNext (n.apply s i b a).cpu = none) :
    a.toProc = false ∧ (n.apply s i b a).cpu = n.cpu := by
  unfold CpuNode.apply at unfilled ⊢
  cases proc : a.toProc with
  | true =>
      rw [proc] at unfilled
      cases unfilled
  | false => exact ⟨rfl, rfl⟩

/-- Only an answer ends a want. -/
theorem want_of_silent {v v' : View} {k : MessageKind} {toDir : Option MessageKind} {P : Profile}
    (spec : NtwkSpec P v k toDir false v') : v'.want = v.want := by
  rcases spec with ⟨g, -, -, -, answers, -⟩ | ⟨-, ⟨-, -, -, rfl⟩ | ⟨-, -, -, rfl⟩ | ⟨-, -, -, -, rfl⟩ | ⟨-, -, -, -, rfl⟩⟩
  · cases answers
  all_goals rfl

namespace CoherenceAdapter

/-- Without a fill to make, an adapter only passes a request on. -/
theorem tick_unfilled (a : CoherenceAdapter) (unfilled : a.cacheInNext = none) (slot : Option Message) :
    a.tick s i slot = { state := (a.drain slot).1, cpuInNext := (a.drain slot).2 } := by
  have same : (a.drain slot).1.cacheInNext = none := by
    unfold drain
    split <;> exact unfilled
  unfold tick
  simp only [same]

theorem drain_none {a : CoherenceAdapter} {slot : Option Message} (empty : (a.drain slot).2 = none) :
    slot = none ∧ a.outboundProc = [] := by
  cases slot with
  | some m => simp [drain] at empty
  | none =>
      cases asked : a.outboundProc with
      | nil => exact ⟨rfl, rfl⟩
      | cons m rest => simp [drain, asked] at empty

/-- A cache's calls only add to what an adapter has to ask for. -/
theorem sink_pending (a : CoherenceAdapter) (calls : List SinkCall) :
    (a.sink s i calls).1.cacheInNext = a.cacheInNext ∧
      ((a.sink s i calls).1.outboundProc = [] → a.outboundProc = []) := by
  induction calls generalizing a with
  | nil => exact ⟨rfl, id⟩
  | cons call rest ih =>
      cases call with
      | onMiss blockAddr op =>
          obtain ⟨same, asks⟩ := ih (a.onMiss s i blockAddr op)
          exact ⟨same, fun none => (List.append_eq_nil_iff.mp (asks none)).1⟩
      | onEvict blockAddr dirty => exact ih a

end CoherenceAdapter

namespace CpuNode.AtRest

/-- A node at rest was at rest before it took in a message: that was no answer. -/
theorem of_tickNtwk (step : n.tickNtwk s i st = .ok (n', st')) (rest : n'.AtRest L) : n.AtRest L := by
  unfold CpuNode.tickNtwk at step
  split at step
  · cases step
    exact rest
  · next m _ =>
      split at step
      · cases step
      · next a answer =>
          cases step
          obtain ⟨outbound, filled, -⟩ :=
            CoherenceAdapter.onNtwkEvent_fields (s := s) (n.apply s i m.block a).cpu m
          obtain ⟨silent, same⟩ := apply_silent (filled.symm.trans rest.cacheInNext)
          have spec := L.ntwk _ _ _ answer
          rw [silent] at spec
          refine ⟨?_, ?_, rest.cpuInNext, rest.cpuIn, fun b => ?_⟩
          · rw [← same]
            exact filled.symm.trans rest.cacheInNext
          · rw [← same]
            exact outbound.symm.trans rest.outboundProc
          · have here := rest.wants b
            by_cases own : b = m.block
            · subst own
              simp only [CpuNode.apply, Function.update_self] at here
              exact (want_of_silent spec).symm.trans here
            · simpa only [CpuNode.apply, Function.update_of_ne own] using here

/-- It was asked nothing in the half before: it would have answered, or asked the directory. -/
theorem of_tickProc (step : n.tickProc s i st = .ok (n', st')) (rest : n'.AtRest L) : n.AtRest L := by
  unfold CpuNode.tickProc at step
  split at step
  · cases step
    exact rest
  · next m _ =>
      split at step
      · cases step
      · next a answer =>
          cases step
          obtain ⟨silent, -⟩ := apply_silent (b := m.block) (a := a) rest.cacheInNext
          have here := rest.wants m.block
          simp only [CpuNode.apply, Function.update_self] at here
          obtain ⟨-, ⟨-, answers, -⟩ | ⟨r, -, -, asks, -⟩⟩ := L.proc _ _ _ answer
          · cases silent.symm.trans answers
          · rw [asks] at here
            cases r <;> cases here

theorem of_port (unfilled : CoherenceAdapter.cacheInNext n.cpu = none)
    (rest : (n.portStep (CoherenceAdapter.tick s i n.cpu n.cpuInNext)).AtRest L) : n.AtRest L := by
  rw [CoherenceAdapter.tick_unfilled _ unfilled] at rest
  obtain ⟨slot, outbound⟩ := CoherenceAdapter.drain_none rest.cpuInNext
  exact ⟨unfilled, outbound, slot, rest.cpuIn, rest.wants⟩

theorem of_tock (rest : n.tock.AtRest L) : n.AtRest L := by
  obtain ⟨pending, idle⟩ := Option.or_eq_none_iff.mp rest.cpuIn
  exact ⟨rest.cacheInNext, rest.outboundProc, pending, idle, rest.wants⟩

theorem of_core {event : CoreEvent}
    (rest : (n.portStep (CoherenceAdapter.core n.cpu s i n.cpuInNext event)).AtRest L) : n.AtRest L := by
  obtain ⟨cacheInNext, outbound, slot, cpuIn, wants⟩ := rest
  cases event with
  | issue req =>
      obtain ⟨same, asks⟩ := CoherenceAdapter.sink_pending (s := s) (i := i)
        { n.cpu with
          l1d := ((CoherenceAdapter.l1d n.cpu).issue (β := .cache) (CoherenceAdapter.l2d n.cpu) req).1.cache
          l2d := ((CoherenceAdapter.l1d n.cpu).issue (β := .cache) (CoherenceAdapter.l2d n.cpu) req).1.below }
        ((CoherenceAdapter.l1d n.cpu).issue (β := .cache) (CoherenceAdapter.l2d n.cpu) req).1.calls
      exact ⟨same.symm.trans cacheInNext, asks outbound, slot, cpuIn, wants⟩
  | complete id => exact ⟨cacheInNext, outbound, slot, cpuIn, wants⟩
  | tick => exact ⟨cacheInNext, outbound, slot, cpuIn, wants⟩

end CpuNode.AtRest

end

section

variable {σ σ' : System F adapterPort}

theorem System.portDone (done : σ.networkDone s = true) {i : NodeId} (bound : i < s.numProcs) :
    (CoherenceAdapter.cacheInNext (σ.cpus i).cpu) = none ∧
      (CoherenceAdapter.outboundProc (σ.cpus i).cpu) = [] := by
  have each := List.all_eq_true.mp done i (List.mem_range.mpr bound)
  simpa [CoherenceAdapter.isDone] using each

theorem Fenced.unasked {L : AgentLaws F} (fenced : Fenced s σ) {i : NodeId} (far : s.numProcs ≤ i)
    (b : BlockId) : (L.view ((σ.cpus i).agents b)).want = .nothing := by
  rw [fenced.fresh i far b, L.view_initial]

/-! ## Lines at rest -/

variable {L : Laws F} {B : Block NodeId} {b : BlockId}

/-- Where no agent waits, the directory works for nobody. -/
theorem Abs.unrequested (abs : Abs L (fun _ _ => False) s σ b B)
    (wants : ∀ i, (L.view ((σ.cpus i).agents b)).want = .nothing) :
    (∀ i, (B.slot i).phase = .rest) ∧ B.mode.requester = none := by
  have rest (j : NodeId) : (B.slot j).phase = .rest := by
    apply (abs.inv.slots j).rest.mp
    have view := abs.view j
    rw [← wants j, view]
  refine ⟨rest, ?_⟩
  by_contra busy
  obtain ⟨r, requester⟩ := Option.ne_none_iff_exists'.mp busy
  have waiting := (abs.inv.waiting r).mpr requester
  rw [rest r] at waiting
  cases waiting

/-- Nobody is served and nobody is disturbed. -/
theorem Abs.resting (abs : Abs L (fun _ _ => False) s σ b B)
    (wants : ∀ i, (L.view ((σ.cpus i).agents b)).want = .nothing) (i : NodeId) :
    (B.slot i).phase = .rest ∧ (B.slot i).probe = .idle := by
  obtain ⟨rest, unrequested⟩ := abs.unrequested wants
  exact ⟨rest i, idle_of_stable abs.inv unrequested i⟩

/-- A slot at rest accounts for notices only. -/
theorem up_resting {slot : Slot} (rest : slot.phase = .rest) (idle : slot.probe = .idle)
    {k : MessageKind} (here : 0 < up slot k) : k = .dataWb := by
  rcases source_of_up here with ⟨r, asked, -⟩ | ⟨reply, answered, -⟩ | ⟨-, kind⟩
  · cases rest.symm.trans asked
  · cases idle.symm.trans answered
  · exact kind

variable {lines : BlockId → Block NodeId}

/-- Where no agent waits, only notices are on their way to the directory. -/
theorem Shows.carried_resting (shows : Shows L (fun _ _ => False) s σ lines)
    (wants : ∀ i b, (L.view ((σ.cpus i).agents b)).want = .nothing) {i : NodeId}
    (bound : i < s.numProcs) : ∀ m ∈ σ.carried s i, m.kind = .dataWb := by
  intro m mem
  have abs := shows.abs m.block
  obtain ⟨rest, idle⟩ := abs.resting (fun j => wants j m.block) i
  have here : 0 < about m.block (σ.carried s i) m.kind := about_pos.mpr ⟨m, mem, rfl, rfl⟩
  rw [abs.upward i bound] at here
  exact up_resting rest idle here

/-- Where no agent waits, nothing is on its way to a CPU. -/
theorem Shows.arriving_resting (shows : Shows L (fun _ _ => False) s σ lines)
    (wants : ∀ i b, (L.view ((σ.cpus i).agents b)).want = .nothing) {i : NodeId}
    (bound : i < s.numProcs) : σ.arriving s i = [] := by
  apply List.eq_nil_iff_forall_not_mem.mpr
  intro m mem
  have abs := shows.abs m.block
  obtain ⟨rest, idle⟩ := abs.resting (fun j => wants j m.block) i
  have listed : (m.kind, m.dirty) ∈ orders m.block (σ.arriving s i) :=
    List.mem_map.mpr ⟨m, List.mem_filter.mpr ⟨mem, by simp⟩, rfl⟩
  rw [abs.downward i bound, down, rest, idle] at listed
  cases listed

/-- Where no agent waits, memory prepares no answer. -/
theorem Shows.response_resting (shows : Shows L (fun _ _ => False) s σ lines)
    (wants : ∀ i b, (L.view ((σ.cpus i).agents b)).want = .nothing) :
    σ.dir.requestInProgress = false := by
  apply Bool.eq_false_of_not_eq_true
  intro busy
  have abs := shows.abs σ.dir.tagToSend
  obtain ⟨rest, -⟩ := abs.resting (fun j => wants j _) σ.dir.targetNode
  have owed : ∃ g, σ.dir.owes σ.dir.tagToSend σ.dir.targetNode = some g := by
    simp [DirectoryController.owes, busy]
  obtain ⟨g, owed⟩ := owed
  have fetching := (abs.fetching _ g).mpr owed
  rw [rest] at fetching
  cases fetching

/-- Where no agent waits, no entry does. -/
theorem Shows.stable_resting (shows : Shows L (fun _ _ => False) s σ lines)
    (wants : ∀ i b, (L.view ((σ.cpus i).agents b)).want = .nothing) (b : BlockId) :
    (σ.dir.directory b).state.Stable := by
  have abs := shows.abs b
  by_contra transient
  have requested := (transient_mode abs.entry.stands).mp transient
  exact requested (abs.unrequested fun i => wants i b).2

/-! ## Systems at rest -/

/-- Every core's node is. -/
def System.AtRest (L : AgentLaws F) (s : Settings) (σ : System F adapterPort) : Prop :=
  ∀ i < s.numProcs, (σ.cpus i).AtRest L

theorem System.AtRest.wants {L : AgentLaws F} (rest : σ.AtRest L s) (fenced : Fenced s σ) (i : NodeId)
    (b : BlockId) : (L.view ((σ.cpus i).agents b)).want = .nothing := by
  by_cases bound : i < s.numProcs
  · exact (rest i bound).wants b
  · exact fenced.unasked (Nat.le_of_not_lt bound) b

/-- A quiet action leads to a system at rest from one at rest only. -/
theorem System.AtRest.back {L : AgentLaws F} {a : Action adapterPort} (rest : σ'.AtRest L s)
    (quiet : Quiet s σ a) (step : σ.step s a = .ok σ') : σ.AtRest L s := by
  intro i bound
  have here := rest i bound
  have moved := System.node_step step i
  generalize σ'.cpus i = n at here moved
  cases moved with
  | idle => exact here
  | tick ticked =>
      unfold CpuNode.tick at ticked
      simp only at ticked
      split at ticked
      · cases ticked
      · next proc => exact ((here.of_tickNtwk ticked).of_tickProc proc).of_port quiet
  | tock => exact here.of_tock
  | deliver m => exact ⟨here.cacheInNext, here.outboundProc, here.cpuInNext, here.cpuIn, here.wants⟩
  | external called =>
      cases called
      exact here.of_core

/-- At rest only notices are on their way to the directory. -/
theorem Shows.uplink_resting (shows : Shows L (fun _ _ => False) s σ lines)
    (wants : ∀ i b, (L.view ((σ.cpus i).agents b)).want = .nothing) :
    (∀ i < s.numProcs, ∀ m ∈ ((σ.uplink s).lane i).out ++ ((σ.uplink s).lane i).chan, m.kind = .dataWb) ∧
      ∀ m ∈ (σ.uplink s).next ++ (σ.uplink s).queue, m.kind = .dataWb := by
  refine ⟨fun i bound m mem => ?_, fun m mem => ?_⟩
  · rw [uplink_chan bound] at mem
    exact shows.carried_resting wants bound m (List.mem_append_left _ mem)
  · apply shows.carried_resting wants (shows.net.queued m mem) m
    exact List.mem_append_right _ (List.mem_filter.mpr ⟨mem, by simp⟩)

/-- A system at rest with nothing to go is drained. -/
theorem Shows.drained (shows : Shows L (fun _ _ => False) s σ lines) (fenced : Fenced s σ)
    (rest : σ.AtRest L.toAgentLaws s) (none : (σ.uplink s).toGo s.numProcs = 0) : σ.Drained s := by
  have wants := rest.wants fenced
  obtain ⟨lanes, next, queue⟩ := Uplink.toGo_eq_zero.mp none
  have arriving {i : NodeId} (bound : i < s.numProcs) : σ.arriving s i = [] :=
    shows.arriving_resting wants bound
  have sent : σ.dir.ntwkOutNext = [] := by
    apply List.eq_nil_iff_forall_not_mem.mpr
    intro m mem
    have empty := arriving (fenced.addressed m mem)
    have here : m ∈ σ.arriving s m.dst :=
      List.mem_append_right _ (List.mem_filter.mpr ⟨mem, by simp⟩)
    rw [empty] at here
    cases here
  refine ⟨fun i bound => ?_, ⟨next, queue, shows.response_resting wants, sent⟩, fun i bound => ?_,
    fun i bound => ?_⟩
  · have down := arriving bound
    simp only [System.arriving, CpuNode.inbox, List.append_eq_nil_iff, Option.toList_eq_nil_iff] at down
    have node := rest i bound
    refine ⟨?_, node.cpuInNext, node.cpuIn, down.1.1.2, down.1.1.1, (lanes i bound).1⟩
    simp [CoherenceAdapter.isDone, node.cacheInNext, node.outboundProc]
  · exact (uplink_chan bound).symm.trans (lanes i bound).2
  · have down := arriving bound
    simp only [System.arriving, List.append_eq_nil_iff] at down
    exact down.1.2

/-! ## Completion -/

/-- Once the network is done and its cores are through, every node is at rest. -/
theorem atRest_of_through (L : AgentLaws F) (each : ∀ i, OneEach L s (σ.cpus i))
    (done : σ.networkDone s = true) (through : σ.CoresThrough s) : σ.AtRest L s := by
  intro i bound
  have unused (b : BlockId) : ¬ (b ∈ (σ.cpus i).pending ∨ (L.view ((σ.cpus i).agents b)).want ≠ .nothing) := by
    intro wanted
    obtain ⟨-, e, mem, waits⟩ := (each i).awaited b wanted
    have free := through i bound e mem
    rw [waits.valid] at free
    cases free
  have idle : (σ.cpus i).requests = [] := by
    apply List.eq_nil_iff_forall_not_mem.mpr
    intro m mem
    exact unused m.block (.inl (List.mem_map_of_mem (List.mem_append_right _ mem)))
  simp only [CpuNode.requests, List.append_eq_nil_iff, Option.toList_eq_nil_iff] at idle
  obtain ⟨cacheInNext, outboundProc⟩ := System.portDone done bound
  refine ⟨cacheInNext, outboundProc, idle.2.1, idle.1, fun b => ?_⟩
  by_contra wanted
  exact unused b (.inr wanted)

/-- Every run shows lines and stays within the CPUs. -/
theorem fenced_run {ok : System F adapterPort → Action adapterPort → Prop} {l1 l2 : Config} (L : Laws F)
    (small : s.numProcs ≤ kMaxSharers)
    (run : (System.machine F adapterPort s).Run ok (fullMode F s l1 l2) σ) :
    ∃ lines, Shows L (fun _ _ => False) s σ lines ∧ Fenced s σ := by
  refine Shows.run (I := fun σ _ => Fenced s σ) adapter_laws small (fun _ _ _ => id)
    (fun σ _ a _ _ _ => tidy_of_none σ a) ⟨fun _ _ _ => rfl, nofun⟩ ?_ run
  intro σ lines a σ' lines' shows fenced _ step _ _
  exact fenced.step shows.net small shows.abs step

end

/-! ## Quiet rounds -/

/-- A core uses its L1 as its load-store unit does, and in private mode no cache asks for what no
    request waits for. -/
def Proper (s : Settings) (σ : System F adapterPort) (a : Action adapterPort) : Prop :=
  Driven s σ a ∧ (s.cacheMode = .privateL2 → AsksOwn s σ a)

instance (s : Settings) (σ : System F adapterPort) (a : Action adapterPort) : Decidable (Proper s σ a) :=
  inferInstanceAs (Decidable (_ ∧ _))

theorem proper_oneEach {L : AgentLaws F} {l1 l2 : Config}
    (run : (System.machine F adapterPort s).Run (Proper s) (fullMode F s l1 l2) σ) (i : NodeId) :
    OneEach L s (σ.cpus i) := by
  cases mode : s.cacheMode with
  | privateL2 => exact oneEach_run (fun _ _ proper => proper.1) (fun _ _ proper => proper.2 mode) run i
  | sharedLls =>
      have driven := run.mono fun _ _ proper => proper.1
      exact oneEach_run (fun _ _ own => own.1) (fun _ _ own => own.2) (ownRun_of_shared mode driven) i

/-- Rounds in which no cache is filled and no notice is put out. -/
inductive QuietRounds (s : Settings) (start : System F adapterPort) : Nat → System F adapterPort → Prop where
  | none : QuietRounds s start 0 start
  | more {k : Nat} {σ σ' : System F adapterPort} {actions : List (Action adapterPort)} :
      QuietRounds s start k σ → Round s σ actions →
        (System.machine F adapterPort s).Path (fun σ a => Proper s σ a ∧ Quiet s σ a) σ actions σ' →
        QuietRounds s start (k + 1) σ'

section

variable {l1 l2 : Config} {σ σ' σ₀ : System F adapterPort} {a : Action adapterPort} {k : Nat}

/-- A quiet action at rest moves a message on to the directory, or leaves all where they are. -/
theorem quiet_lowers (L : Laws F) (defers : F.Defers) (small : s.numProcs ≤ kMaxSharers)
    (reached : (System.machine F adapterPort s).Reachable (fullMode F s l1 l2) σ)
    (rest : σ.AtRest L.toAgentLaws s) (quiet : Quiet s σ a) (step : σ.step s a = .ok σ') :
    (σ'.uplink s).toGo s.numProcs < (σ.uplink s).toGo s.numProcs ∨
      σ'.uplink s = σ.uplink s ∧ ¬ (σ.uplink s).Awaits s.numProcs a := by
  obtain ⟨lines, shows, fenced⟩ := fenced_run L small reached
  have wants := rest.wants fenced
  refine (uplink_step defers step).lowers (fun i bound acts => ?_) (shows.response_resting wants)
    (shows.stable_resting wants)
  have moved := System.node_step step i
  generalize σ'.cpus i = n at moved ⊢
  cases moved with
  | idle => exact List.drop_length
  | tick ticked =>
      have arriving := shows.arriving_resting wants bound
      simp only [System.arriving, CpuNode.inbox, List.append_eq_nil_iff, Option.toList_eq_nil_iff] at arriving
      refine (tick_out ticked).2 ?_ (rest i bound).cpuIn arriving.1.1.1
      exact congrArg (·.sends) (CoherenceAdapter.tick_unfilled _ quiet _)
  | external called =>
      cases called
      exact (CpuNode.pushed_of rfl).trans quiet
  | tock | deliver => rcases acts with eq | ⟨event, eq⟩ <;> cases eq

theorem QuietRounds.proper (rounds : QuietRounds s σ₀ k σ)
    (run : (System.machine F adapterPort s).Run (Proper s) (fullMode F s l1 l2) σ₀) :
    (System.machine F adapterPort s).Run (Proper s) (fullMode F s l1 l2) σ := by
  induction rounds with
  | none => exact run
  | more _ _ path ih => exact ih.along (path.mono fun _ _ guarded => guarded.1)

/-- Rounds that lead to a system at rest lead from one, and each takes what is on its way nearer. -/
theorem QuietRounds.toGo_le (L : Laws F) (defers : F.Defers) (small : s.numProcs ≤ kMaxSharers)
    (run : (System.machine F adapterPort s).Run (Proper s) (fullMode F s l1 l2) σ₀)
    (rounds : QuietRounds s σ₀ k σ) (rest : σ.AtRest L.toAgentLaws s) :
    σ₀.AtRest L.toAgentLaws s ∧
      (σ.uplink s).toGo s.numProcs ≤ (σ₀.uplink s).toGo s.numProcs - k := by
  induction rounds with
  | none => exact ⟨rest, le_rfl⟩
  | @more k σ σ' actions rounds round path ih =>
      obtain ⟨before, resting⟩ := path.back rest fun τ a τ' guarded step => (·.back guarded.2 step)
      obtain ⟨rest₀, le⟩ := ih before
      have reached := rounds.proper run
      obtain ⟨-, -, le', lower⟩ := resting.lowers (b := ())
        (I := fun τ _ => (System.machine F adapterPort s).Run (Proper s) (fullMode F s l1 l2) τ)
        (fun τ _ => (τ.uplink s).toGo s.numProcs) (fun τ _ h => (τ.uplink s).Awaits s.numProcs h)
        (fun τ b a τ' run guarded step => by
          refine ⟨b, run.step guarded.1.1 step, ?_⟩
          rcases quiet_lowers L defers small run.reachable guarded.2 guarded.1.2 step with less | ⟨same, idle⟩
          · exact ⟨less.le, fun _ _ => .inl less⟩
          · rw [same]
            exact ⟨le_rfl, fun h awaits => .inr ⟨fun eq => idle (eq ▸ awaits), awaits⟩⟩) reached
      refine ⟨rest₀, ?_⟩
      by_cases none : (σ.uplink s).toGo s.numProcs = 0
      · omega
      · obtain ⟨h, mem, awaits⟩ := round.awaits none
        have less := lower h mem awaits
        omega

/-- No notice is on its way but those put out. -/
theorem notices_run (defers : F.Defers) {ok : System F adapterPort × Nat → Action adapterPort → Prop}
    {x : System F adapterPort × Nat}
    (run : ((System.machine F adapterPort s).recording System.noticesOut).Run ok (fullMode F s l1 l2, 0) x) :
    (x.1.uplink s).notices s.numProcs ≤ x.2 := by
  apply run.invariant (I := fun x => (x.1.uplink s).notices s.numProcs ≤ x.2)
  · simp [Uplink.notices, System.uplink, fullMode, System.initial, DirectoryController.make]
  · intro x a x' before _ step
    obtain ⟨step, noted⟩ := Machine.recording_step step
    rw [noted]
    exact (uplink_step defers step).notices_le before

end

/-- A run whose network is done and whose cores are through has drained, if before its end no cache
    is filled and none evicts for four rounds for each notice put out earlier. -/
theorem completion_drains (s : Settings) (small : s.numProcs ≤ kMaxSharers) (l1 l2 : Config)
    {σ₀ σ : System s.protocol.fsm adapterPort} {evictions k : Nat}
    (run : ((System.machine s.protocol.fsm adapterPort s).recording System.noticesOut).Run
      (fun x a => Proper s x.1 a) (fullMode s.protocol.fsm s l1 l2, 0) (σ₀, evictions))
    (rounds : QuietRounds s σ₀ k σ) (enough : 4 * evictions ≤ k)
    (done : σ.networkDone s = true) (through : σ.CoresThrough s) : σ.Drained s := by
  have proper : (System.machine s.protocol.fsm adapterPort s).Run (Proper s)
      (fullMode s.protocol.fsm s l1 l2) σ₀ := (Machine.recorded_iff System.noticesOut 0).mpr ⟨evictions, run⟩
  have all := rounds.proper proper
  have rest : σ.AtRest s.protocol.laws.toAgentLaws s := atRest_of_through _ (proper_oneEach all) done through
  obtain ⟨rest₀, le⟩ := rounds.toGo_le s.protocol.laws s.protocol.defers small proper rest
  obtain ⟨lines₀, shows₀, fenced₀⟩ := fenced_run s.protocol.laws small proper
  obtain ⟨lanes, queues⟩ := shows₀.uplink_resting (rest₀.wants fenced₀)
  have none : (σ.uplink s).toGo s.numProcs = 0 := by
    have few := Uplink.toGo_le lanes queues
    have put : (σ₀.uplink s).notices s.numProcs ≤ evictions := notices_run s.protocol.defers run
    omega
  obtain ⟨lines, shows, fenced⟩ := fenced_run s.protocol.laws small all
  exact shows.drained fenced rest none

/-! ## A notice that is never taken up -/

def noticeSettings : Settings :=
  { protocol := .MESI, numProcs := 4, memLatency := 1, cacheMode := .sharedLls }

/-- Core 2 loads a block, and another that drives it out of its L1. -/
def lateLoads : List (Action adapterPort) :=
  [load 2 0] ++ cycles 4 8 ++ [done 2 1, load 2 128]

def lastVictim (k : Nat) : System mesi adapterPort :=
  (System.machine mesi adapterPort noticeSettings).attempt (fullMode mesi noticeSettings tinyL1 {})
    (lateLoads ++ cycles 4 k ++ [.tick 2, .tock 2, done 2 2])

/-- When its notice has been put out, with the number of notices so far. -/
def countedVictim : System mesi adapterPort × Nat :=
  ((System.machine mesi adapterPort noticeSettings).recording System.noticesOut).attempt
    (fullMode mesi noticeSettings tinyL1 {}, 0) (lateLoads ++ cycles 4 7 ++ [.tick 2, .tock 2, done 2 2])

/-- A cycle in which the directory is handed messages from the nodes of `up`. -/
def onward (σ : System mesi adapterPort) (up : List NodeId) : System mesi adapterPort :=
  (System.machine mesi adapterPort noticeSettings).attempt σ (paced noticeSettings.numProcs [] up)

theorem onward_rounds {k : Nat} {σ₀ σ : System mesi adapterPort} (up : List NodeId)
    (rounds : QuietRounds noticeSettings σ₀ k σ)
    (nobody : ∀ i < 4, σ.chan 4 i = []) (senders : ∀ i < 4, σ.chan i 4 ≠ [] → i ∈ up)
    (follows : (System.machine mesi adapterPort noticeSettings).follows
      (fun σ a => Proper noticeSettings σ a ∧ Quiet noticeSettings σ a) σ
        (paced noticeSettings.numProcs [] up) = true) :
    QuietRounds noticeSettings σ₀ (k + 1) (onward σ up) :=
  rounds.more (paced_round (fun i bound waits => absurd (nobody i bound) waits) senders)
    (Machine.path_attempt follows)

/-- Four quiet cycles later the notice has been taken up. -/
theorem completion_drains_later :
    System.Drained noticeSettings (onward (onward (onward (onward countedVictim.1 [2]) []) []) []) := by
  have first : QuietRounds noticeSettings countedVictim.1 1 (onward countedVictim.1 [2]) :=
    onward_rounds [2] .none (by decide +kernel) (by decide +kernel) (by decide +kernel)
  have second := onward_rounds [] first (by decide +kernel) (by decide +kernel) (by decide +kernel)
  have third := onward_rounds [] second (by decide +kernel) (by decide +kernel) (by decide +kernel)
  have fourth := onward_rounds [] third (by decide +kernel) (by decide +kernel) (by decide +kernel)
  exact completion_drains noticeSettings (by decide) tinyL1 {} (Machine.recorded_attempt (by decide +kernel))
    fourth (by decide +kernel) (by decide +kernel)
    (show System.CoresThrough noticeSettings (onward (onward (onward (onward countedVictim.1 [2]) []) []) []) by
      decide +kernel)

theorem lastVictim_done :
    System.networkDone noticeSettings (lastVictim 7) = true ∧
      System.CoresThrough noticeSettings (lastVictim 7) ∧
      ((lastVictim 7).chan 2 4).map (·.kind) = [.dataWb] := by
  decide +kernel

/-- The cores are through and the network is done while a notice is on its way. -/
theorem completion_leaves_notice :
    ∃ σ, (System.machine mesi adapterPort noticeSettings).Run (Driven noticeSettings)
        (fullMode mesi noticeSettings tinyL1 {}) σ ∧
      σ.networkDone noticeSettings = true ∧ σ.CoresThrough noticeSettings ∧
      ¬ σ.Drained noticeSettings := by
  obtain ⟨done, through, sent⟩ := lastVictim_done
  refine ⟨lastVictim 7, Machine.run_attempt _ (by decide +kernel), done, through, fun drained => ?_⟩
  have empty := drained.toDir 2 (by decide)
  rw [show noticeSettings.numProcs = 4 from rfl] at empty
  rw [empty] at sent
  cases sent

end Coherence
