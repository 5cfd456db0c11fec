import MulticoreSim.Coherence.PresenceSlots
import MulticoreSim.Coherence.RingNetwork

/-! # What is on its way

The ring's ends and what is between them, as messages: a node is handed the first that
are on their way to it, and what its engine has sent joins them when it tocks. The
messages that engines send are of the sizes that the settings give.
-/

namespace Coherence

namespace Ring

variable {n k i j : Nat} {σ σ' : Ring} {out : List Message} {taken : List MsgId}

/-- What is on its way from `i` to `j`. -/
def transit (n : Nat) (σ : Ring) (i j : NodeId) : List MsgId :=
  (σ.nodes j).inQueue.filter (σ.Between i j) ++ Lane.flow (route n i j) (stretch n σ i j)

theorem Sound.sent_eq (sound : Sound n σ) (from_ : i < n) (to_ : j < n) : σ.sent i j =
    (σ.nodes j).handed.filter (σ.Between i j) ++ (transit n σ i j ++ (σ.nodes i).outNext.filter (σ.Between i j)) := by
  rw [sound.ordered i from_ j to_, arrived, onTheWay, transit, List.filter_append]
  simp only [List.append_assoc]

/-- A message is on its way from `i` to `j` if it was sent and has not been handed over or held back. -/
theorem Sound.of_transit (sound : Sound n σ) (from_ : i < n) (to_ : j < n) {id : MsgId} (mem : id ∈ transit n σ i j) :
    id < σ.fresh ∧ (σ.heap id).src = i ∧ (σ.heap id).dst = j ∧ id ∉ (σ.nodes j).handed := by
  have sent : id ∈ σ.sent i j := by
    rw [sound.sent_eq from_ to_]
    simp [mem]
  obtain ⟨old, between⟩ := List.mem_filter.mp sent
  have between : σ.Between i j id := of_decide_eq_true between
  refine ⟨List.mem_range.mp old, between.1, between.2, fun handed => ?_⟩
  have once : (σ.sent i j).Nodup := List.nodup_range.filter _
  rw [sound.sent_eq from_ to_] at once
  exact (List.nodup_append.mp once).2.2 id (List.mem_filter.mpr ⟨handed, by simpa using between⟩) id
    (List.mem_append_left _ mem) rfl

theorem between_old (heap : ∀ id < σ.fresh, σ'.heap id = σ.heap id) {ids : List MsgId} (old : ∀ id ∈ ids, id < σ.fresh) :
    (ids.filter (σ'.Between i j)).map σ'.heap = (ids.filter (σ.Between i j)).map σ.heap := by
  have same : ids.filter (σ'.Between i j) = ids.filter (σ.Between i j) :=
    List.filter_congr fun id mem => by simp only [Between, heap id (old id mem)]
  rw [same]
  exact List.map_congr_left fun id mem => heap id (old id (List.mem_of_mem_filter mem))

/-- What a node is handed was the first on its way to it. -/
theorem Exchange.transit_eq (exchange : Exchange n k out taken σ σ') (before : Sound n σ) (after : Sound n σ')
    (here : k < n) (mine : ∀ m ∈ out, m.src = k) (from_ : i < n) (to_ : j < n) :
    (transit n σ i j).map σ.heap =
      (if j = k then (taken.map σ'.heap).filter (·.src = i) else []) ++ (transit n σ' i j).map σ'.heap := by
  have old := before.sent_eq from_ to_
  have new := after.sent_eq from_ to_
  have heap := exchange.heap
  have range : List.range σ'.fresh = List.range σ.fresh ++ List.range' σ.fresh out.length := by
    rw [exchange.fresh, List.range_eq_range', List.range_eq_range', ← List.range'_append_1, Nat.zero_add]
  have sent : (σ'.sent i j).map σ'.heap = (σ.sent i j).map σ.heap ++
      ((List.range' σ.fresh out.length).filter (σ'.Between i j)).map σ'.heap := by
    rw [sent, range, List.filter_append, List.map_append, between_old heap fun id mem => List.mem_range.mp mem]
    rfl
  have handed : ((σ'.nodes j).handed.filter (σ'.Between i j)).map σ'.heap =
      ((σ.nodes j).handed.filter (σ.Between i j)).map σ.heap ++
        if j = k then (taken.map σ'.heap).filter (·.src = i) else [] := by
    rw [exchange.handed, List.filter_append, List.map_append,
      between_old heap fun id mem => before.routed.named j to_ id (.inr (.inr (.inr (.inr mem))))]
    congr 1
    split
    · next eq =>
        subst eq
        rw [List.filter_map]
        refine congrArg _ (List.filter_congr fun id mem => ?_)
        have home : (σ'.heap id).dst = j := by
          refine after.routed.inbox j to_ id (.inr ?_)
          rw [exchange.handed, if_pos rfl]
          exact List.mem_append_right _ mem
        simp [Between, home]
    · rfl
  have outNext : ((σ'.nodes i).outNext.filter (σ'.Between i j)).map σ'.heap =
      ((σ.nodes i).outNext.filter (σ.Between i j)).map σ.heap ++
        ((List.range' σ.fresh out.length).filter (σ'.Between i j)).map σ'.heap := by
    rw [exchange.outNext, List.filter_append, List.map_append,
      between_old heap fun id mem => before.routed.named i from_ id (.inl mem)]
    congr 1
    split
    · rfl
    · next other =>
        have none : (List.range' σ.fresh out.length).filter (σ'.Between i j) = [] := by
          refine List.filter_eq_nil_iff.mpr fun id mem between => other ?_
          have src : (σ'.heap id).src = k := by
            refine mine _ ?_
            rw [← exchange.sends]
            exact List.mem_map_of_mem mem
          exact (of_decide_eq_true between).1.symm.trans src
        rw [none]
        rfl
  rw [new, List.map_append, List.map_append, handed, outNext, old, List.map_append, List.map_append] at sent
  simp only [List.append_assoc] at sent
  have rest := List.append_cancel_left sent
  rw [← List.append_assoc] at rest
  exact (List.append_cancel_right rest).symm

/-- What its engine has sent is on its way when a node has tocked. -/
theorem Sound.tock_transit (before : Sound n σ) (two : 2 ≤ n) (here : k < n) (from_ : i < n) (to_ : j < n) :
    (transit n (σ.tockNode k) i j).map (σ.tockNode k).heap =
      (transit n σ i j).map σ.heap ++ if i = k then ((σ.nodes k).outNext.map σ.heap).filter (·.dst = j) else [] := by
  have after := before.tockNode two here
  obtain ⟨heap, fresh, outNext, handed, -⟩ := tockNode_ends before two here
  have old := before.sent_eq from_ to_
  have new := after.sent_eq from_ to_
  have between : (σ.tockNode k).Between i j = σ.Between i j := by
    funext id
    simp only [Between, heap]
  have sent : (σ.tockNode k).sent i j = σ.sent i j := by
    simp only [sent, Between, heap, fresh]
  simp only [between] at new
  rw [sent, old, handed, outNext] at new
  have rest := List.append_cancel_left new
  rw [heap]
  by_cases eq : i = k
  · subst eq
    rw [if_pos rfl, List.filter_nil, List.append_nil] at rest
    rw [← rest, List.map_append, if_pos rfl, List.filter_map]
    congr 2
    refine List.filter_congr fun id mem => ?_
    simp [Between, before.routed.outNext i from_ id mem]
  · rw [if_neg eq] at rest
    rw [if_neg eq, List.append_nil, List.append_cancel_right rest]

end Ring

variable {F : ProtocolFsm} {π : CpuPort} {s : Settings} {σ σ' : System F π} {i : NodeId}

/-! ## Messages are of the sizes the settings give -/

/-- A header, or a header and a payload. -/
def Sized (s : Settings) (m : Message) : Prop :=
  m.flits = s.headerFlits ∨ m.flits = s.headerFlits + s.payloadFlits

theorem Message.make_sized (src dst : NodeId) (block : BlockId) (kind : MessageKind) (s : Settings) :
    Sized s (Message.make src dst block kind s) := by
  unfold Sized Message.make
  split
  · exact .inr rfl
  · exact .inl rfl

/-- What a port sends does. -/
structure PortSizes (π : CpuPort) : Prop where
  tick : ∀ s i st c, ∀ m ∈ (π.tick s i st c).sends, Sized s m
  external : ∀ s i st c e p, π.external s i st c e = some p → ∀ m ∈ p.sends, Sized s m

theorem fici_sizes : PortSizes ficiPort where
  tick s i st c m mem := by
    have none : (ficiPort.tick s i st c).sends = [] := FiciCpu.tick_sends st s i c
    rw [none] at mem
    cases mem
  external _ _ _ _ e := e.elim

namespace CoherenceAdapter

variable {P : Message → Prop} (notices : ∀ blockAddr dirty, P (evictNotice s i blockAddr dirty))
include notices

theorem sink_all (a : CoherenceAdapter) (calls : List Memory.SinkCall) : ∀ m ∈ (a.sink s i calls).2, P m := by
  induction calls generalizing a with
  | nil =>
      intro m mem
      cases mem
  | cons call rest ih =>
      cases call with
      | onMiss blockAddr op => exact ih _
      | onEvict blockAddr dirty =>
          intro m mem
          rcases List.mem_cons.mp mem with rfl | old
          · exact notices blockAddr dirty
          · exact ih a m old

theorem fillL2_all (a : CoherenceAdapter) (cacheBlock : Nat) : ∀ m ∈ (a.fillL2 s i cacheBlock).2, P m := by
  unfold fillL2
  split
  · intro m mem
    cases mem
  · exact sink_all notices _ _

theorem tick_all (a : CoherenceAdapter) (slot : Option Message) : ∀ m ∈ (a.tick s i slot).sends, P m := by
  unfold tick
  simp only
  split
  · intro m mem
    cases mem
  · intro m mem
    rcases List.mem_append.mp mem with lower | upper
    · exact fillL2_all notices _ _ m lower
    · exact sink_all notices _ _ m upper

theorem core_all (a : CoherenceAdapter) (slot : Option Message) (event : CoreEvent) :
    ∀ m ∈ (a.core s i slot event).sends, P m := by
  cases event with
  | issue req => exact sink_all notices _ _
  | complete id =>
      intro m mem
      cases mem
  | tick =>
      intro m mem
      cases mem

end CoherenceAdapter

theorem notice_sized (s : Settings) (i : NodeId) (blockAddr : Nat) (dirty : Bool) :
    Sized s (CoherenceAdapter.evictNotice s i blockAddr dirty) :=
  Message.make_sized i s.numProcs (toByteBlock s blockAddr) .dataWb s

theorem adapter_sizes : PortSizes adapterPort where
  tick s i st c := st.tick_all (notice_sized s i) c
  external := by
    rintro s i st c e p ⟨⟩
    exact st.core_all (notice_sized s i) c e

/-- What the directory sends comes from it, and is of those sizes. -/
def DirectoryController.Shaped (s : Settings) (d : DirectoryController) : Prop :=
  ∀ m ∈ d.ntwkOutNext, m.src = s.numProcs ∧ Sized s m

/-- So is what the other engines send. -/
structure Shaped (s : Settings) (σ : System F π) : Prop where
  cpus : ∀ i, ∀ m ∈ (σ.cpus i).ntwkOutNext, Sized s m
  dir : σ.dir.Shaped s

theorem apply_sized {n : CpuNode F π} {block : BlockId} {a : AgentStep F.AgentState}
    (sized : ∀ m ∈ n.ntwkOutNext, Sized s m) : ∀ m ∈ (n.apply s i block a).ntwkOutNext, Sized s m := by
  intro m mem
  rcases List.mem_append.mp mem with old | new
  · exact sized m old
  · obtain ⟨k, -, rfl⟩ := Option.map_eq_some_iff.mp (Option.mem_toList.mp new)
    exact Message.make_sized ..

theorem tick_sized (ports : PortSizes π) {n n' : CpuNode F π} {st st' : CoherenceStats}
    (sized : ∀ m ∈ n.ntwkOutNext, Sized s m) (step : n.tick s i st = .ok (n', st')) :
    ∀ m ∈ n'.ntwkOutNext, Sized s m := by
  have called : ∀ m ∈ (n.portStep (n.called s i)).ntwkOutNext, Sized s m := by
    intro m mem
    rcases List.mem_append.mp mem with old | new
    · exact sized m old
    · exact ports.tick _ _ _ _ m new
  unfold CpuNode.tick at step
  simp only at step
  split at step
  · cases step
  · next n₁ st₁ proc =>
      have first : ∀ m ∈ n₁.ntwkOutNext, Sized s m := by
        unfold CpuNode.tickProc at proc
        split at proc
        · cases proc
          exact called
        · split at proc
          · cases proc
          · cases proc
            exact apply_sized called
      unfold CpuNode.tickNtwk at step
      split at step
      · cases step
        exact first
      · split at step
        · cases step
        · cases step
          exact apply_sized first

theorem request_shaped (s : Settings) (x : Send) :
    (DirectoryController.request s x).src = s.numProcs ∧ Sized s (DirectoryController.request s x) :=
  ⟨rfl, Message.make_sized s.numProcs x.dest x.tag x.kind s⟩

theorem carryOut_shaped {d : DirectoryController} (shaped : d.Shaped s) (st : CoherenceStats) (r : Message)
    (rest : List Message) (o : Outcome) : (d.carryOut s st r rest o).1.Shaped s := by
  intro m mem
  obtain ⟨-, -, -, out, -⟩ := carryOut_fields d s st r rest o
  rw [out] at mem
  rcases List.mem_append.mp mem with old | new
  · exact shaped m old
  · obtain ⟨x, -, rfl⟩ := List.mem_map.mp new
    exact request_shaped s x

theorem processQueue_shaped {d d' : DirectoryController} {st st' : CoherenceStats} (shaped : d.Shaped s)
    (step : System.processQueue F s d st = .ok (d', st')) : d'.Shaped s := by
  unfold System.processQueue at step
  split at step
  · cases step
    exact shaped
  · split at step
    · cases step
      exact shaped
    · next r rest _ =>
        simp only at step
        split at step
        · next o _ =>
            have eq : (d.carryOut s st r rest o).1 = d' := congrArg Prod.fst (Except.ok.inj step)
            exact eq ▸ carryOut_shaped shaped st r rest o
        · split at step
          · cases step
          · next o _ =>
              have eq : (d.carryOut s st r rest o).1 = d' := congrArg Prod.fst (Except.ok.inj step)
              exact eq ▸ carryOut_shaped shaped st r rest o

theorem respond_shaped {d : DirectoryController} (shaped : d.Shaped s) (usesE : Bool) (st : CoherenceStats) :
    (d.respond s usesE st).1.Shaped s := by
  have one (x : Send) : ∀ m ∈ d.ntwkOutNext ++ [DirectoryController.request s x], m.src = s.numProcs ∧ Sized s m := by
    intro m mem
    rcases List.mem_append.mp mem with old | new
    · exact shaped m old
    · rw [List.mem_singleton.mp new]
      exact request_shaped s x
  unfold DirectoryController.respond
  split
  · simp only
    split
    · exact one _
    · exact one _
  · exact shaped

theorem tickDir_shaped {d d' : DirectoryController} {clock : Timestamp} {st st' : CoherenceStats} (shaped : d.Shaped s)
    (step : System.tickDir F s d clock st = .ok (d', st')) : d'.Shaped s := by
  unfold System.tickDir at step
  split at step
  · cases step
  · next d₁ st₁ taken =>
      have eq : (d₁.respond s F.usesE st₁).1 = d' := congrArg Prod.fst (Except.ok.inj step)
      exact eq ▸ respond_shaped (processQueue_shaped (d := { d with currentClock := clock }) shaped taken) _ _

theorem Shaped.step (ports : PortSizes π) (shaped : Shaped s σ) {a : Action π} (step : σ.step s a = .ok σ') : Shaped s σ' := by
  refine ⟨fun i => ?_, ?_⟩
  · have moved := System.node_step step i
    generalize σ'.cpus i = n at moved ⊢
    cases moved with
    | idle => exact shaped.cpus i
    | tick ticked => exact tick_sized ports (shaped.cpus i) ticked
    | tock =>
        intro m mem
        cases mem
    | deliver m => exact shaped.cpus i
    | external called =>
        intro m mem
        rcases List.mem_append.mp mem with old | new
        · exact shaped.cpus i m old
        · exact ports.external _ _ _ _ _ _ called m new
  · by_cases directory : a = .dirTick
    · subst directory
      simp only [System.step] at step
      split at step
      · split at step
        · cases step
        · next d st ticked =>
            cases step
            exact tickDir_shaped shaped.dir ticked
      · cases step
    · have kept := (step_frame step).2.resolve_left directory
      exact fun m mem => shaped.dir m (kept m mem)

end Coherence
