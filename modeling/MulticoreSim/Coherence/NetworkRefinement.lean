import MulticoreSim.Coherence.Transit

/-! # The network over its ring refines the network of channels

A turn of a node is a few actions of the network in which messages travel freely: its
tick, what it is handed, its tock. What the ring has on its way from one node to another
is what the channel between them holds.
-/

namespace Coherence

open RingNetwork

variable {F : ProtocolFsm} {π : CpuPort} {L : Laws F} {s : Settings} {σ σ' σ'' start : System F π}
  {ν ν' ν'' : RingNetwork F π} {i j k : NodeId} {actions actions' : List (Action π)}

/-! ## What the two networks have in common -/

/-- What holds in every run of the network of channels. -/
structure Good (s : Settings) (σ : System F π) : Prop where
  net : Network s σ
  fenced : Fenced s σ
  shaped : Shaped s σ

theorem good_run (L : Laws F) (laws : PortLaws π fun _ _ => False) (ports : PortSizes π)
    (small : s.numProcs ≤ kMaxSharers) {cpu : NodeId → π.State}
    (reached : (System.machine F π s).Reachable (System.initial F π s cpu) σ) : Good s σ := by
  obtain ⟨lines, shows, fenced, shaped⟩ := Shows.run (L := L) (I := fun σ _ => Fenced s σ ∧ Shaped s σ)
    laws small (fun _ _ _ => id) (fun σ _ a _ _ _ => tidy_of_none σ a)
    ⟨⟨fun _ _ _ => rfl, fun m mem => by cases mem⟩, ⟨fun i m mem => (by cases mem), fun m mem => by cases mem⟩⟩
    (fun σ lines a σ' lines' shows kept _ step _ _ =>
      ⟨kept.1.step shows.net small shows.abs step, kept.2.step ports step⟩)
    reached
  exact ⟨shows.net, fenced, shaped⟩

/-- Whatever a run reaches is good. -/
def GoodThroughout (s : Settings) (start : System F π) : Prop :=
  ∀ σ, (System.machine F π s).Reachable start σ → Good s σ

/-- What the engine of a node has sent in this cycle. -/
def System.outbox (s : Settings) (σ : System F π) (k : NodeId) : List Message :=
  if k < s.numProcs then (σ.cpus k).ntwkOutNext else σ.dir.ntwkOutNext

/-- What an engine sends comes from it, and is for a node of the ring. -/
theorem Good.sends (good : Good s σ) (header : 1 ≤ s.headerFlits) (here : k < size s) {m : Message}
    (mem : m ∈ σ.outbox s k) : m.src = k ∧ m.dst < size s ∧ 1 ≤ m.flits ∧ m.flits ≤ s.headerFlits + s.payloadFlits := by
  have flits (sized : Sized s m) : 1 ≤ m.flits ∧ m.flits ≤ s.headerFlits + s.payloadFlits := by
    unfold Sized at sized
    omega
  unfold System.outbox at mem
  split at mem
  · obtain ⟨src, dst⟩ := good.net.out k m mem
    exact ⟨src, by rw [dst]; exact Nat.lt_succ_self _, flits (good.shaped.cpus k m mem)⟩
  · next other =>
      have last : k = s.numProcs := Nat.le_antisymm (Nat.le_of_lt_succ here) (Nat.le_of_not_lt other)
      obtain ⟨src, sized⟩ := good.shaped.dir m mem
      exact ⟨src.trans last.symm, Nat.lt_succ_of_lt (good.fenced.addressed m mem), flits sized⟩

/-- The nodes are the same, and a channel holds what the ring has on its way. -/
structure Mirrors (s : Settings) (ν : RingNetwork F π) (σ : System F π) : Prop where
  cpus : σ.cpus = ν.cpus
  dir : σ.dir = ν.dir
  clock : σ.clock = ν.clock
  stats : σ.stats = ν.stats
  chan : ∀ i < size s, ∀ j < size s, σ.chan i j = (Ring.transit (size s) ν.ring i j).map ν.ring.heap

/-- As `Mirrors`, between two turns of a cycle. -/
structure Shadows (s : Settings) (start : System F π) (ν : RingNetwork F π) (σ : System F π) : Prop extends
    Mirrors s ν σ where
  reached : (System.machine F π s).Reachable start σ
  sound : Ring.Sound (size s) ν.ring
  outbox : ∀ k < size s, (ν.ring.nodes k).outNext.map ν.ring.heap = if σ.ticked k then σ.outbox s k else []
  latch : ∀ k < s.numProcs, σ.ticked k = false → (ν.ring.nodes k).cacheIn = none
  idle : σ.ticked s.numProcs = false → σ.dir.ntwkOutNext = []
  routes : ∀ i < s.numProcs, ∀ j < s.numProcs, σ.chan i j = []
  selfless : σ.chan s.numProcs s.numProcs = []

/-- The action that hands a message over. -/
def handing (s : Settings) (m : Message) : Action π :=
  if m.dst < s.numProcs then .deliver m.dst else .dirDeliver m.src

/-- A stretch of one network is matched by actions of the other. -/
structure Matches (s : Settings) (start : System F π) (ν ν' : RingNetwork F π) (σ σ' : System F π)
    (actions : List (Action π)) : Prop where
  ran : (System.machine F π s).exec σ actions = .ok σ'
  shadows : Shadows s start ν' σ'
  fresh : ν.ring.fresh ≤ ν'.ring.fresh
  heap : ∀ id < ν.ring.fresh, ν'.ring.heap id = ν.ring.heap id
  hands : ∀ j < size s, ∀ id ∈ (ν'.ring.nodes j).handed, id ∉ (ν.ring.nodes j).handed →
    handing s (ν'.ring.heap id) ∈ actions

theorem Shadows.refl (shadows : Shadows s start ν σ) : Matches s start ν ν σ σ [] :=
  ⟨rfl, shadows, le_rfl, fun _ _ => rfl, fun _ _ _ mem none => absurd mem none⟩

theorem Matches.trans (first : Matches s start ν ν' σ σ' actions) (second : Matches s start ν' ν'' σ' σ'' actions') :
    Matches s start ν ν'' σ σ'' (actions ++ actions') where
  ran := by
    rw [Machine.exec_append, first.ran]
    exact second.ran
  shadows := second.shadows
  fresh := first.fresh.trans second.fresh
  heap id old := (second.heap id (old.trans_le first.fresh)).trans (first.heap id old)
  hands j bound id mem new := by
    by_cases before : id ∈ (ν'.ring.nodes j).handed
    · have old := first.shadows.sound.routed.named j bound id (.inr (.inr (.inr (.inr before))))
      rw [second.heap id old]
      exact List.mem_append_left _ (first.hands j bound id before new)
    · exact List.mem_append_right _ (second.hands j bound id mem before)

/-! ## What the actions of a turn do -/

section

variable {m : Message} {rest : List Message}

theorem steps_tick {n : CpuNode F π} {st : CoherenceStats} (bound : k < s.numProcs) (waits : σ.ticked k = false)
    (ticked : (σ.cpus k).tick s k σ.stats = .ok (n, st)) : (System.machine F π s).step σ (.tick k) =
      .ok { σ with cpus := Function.update σ.cpus k n, ticked := Function.update σ.ticked k true, stats := st } := by
  change σ.step s (.tick k) = _
  rw [System.step, if_pos ⟨bound, waits⟩, ticked]

theorem throws_tick {what : String} (bound : k < s.numProcs) (waits : σ.ticked k = false)
    (ticked : (σ.cpus k).tick s k σ.stats = .error what) : σ.thrown s (.tick k) = some what := by
  rw [System.thrown, System.step, if_pos ⟨bound, waits⟩, ticked]

theorem steps_deliver (bound : k < s.numProcs) (ticked : σ.ticked k = true) (free : (σ.cpus k).ntwkInNext = none)
    (queue : σ.chan s.numProcs k = m :: rest) : (System.machine F π s).step σ (.deliver k) =
      .ok
        { σ with
          cpus := Function.update σ.cpus k { σ.cpus k with ntwkInNext := some m }
          chan := Function.update σ.chan s.numProcs (Function.update (σ.chan s.numProcs) k rest) } := by
  change σ.step s (.deliver k) = _
  rw [System.step, if_pos ⟨bound, ticked, free⟩, queue]

theorem steps_tock (bound : k < s.numProcs) (ticked : σ.ticked k = true) : (System.machine F π s).step σ (.tock k) =
    .ok
      { σ with
        cpus := Function.update σ.cpus k (σ.cpus k).tock
        chan := System.send σ.chan k (σ.cpus k).ntwkOutNext
        ticked := Function.update σ.ticked k false } := by
  change σ.step s (.tock k) = _
  rw [System.step, if_pos ⟨bound, ticked⟩]

theorem steps_external {event : π.Event} {p : PortStep π.State} (bound : k < s.numProcs) (waits : σ.ticked k = false)
    (called : π.external s k (σ.cpus k).cpu (σ.cpus k).cpuInNext event = some p) :
    (System.machine F π s).step σ (.external k event) =
      .ok { σ with cpus := Function.update σ.cpus k ((σ.cpus k).portStep p), stats := p.stats σ.stats } := by
  change σ.step s (.external k event) = _
  rw [System.step, if_pos ⟨bound, waits⟩, called]

theorem steps_dirTick {d : DirectoryController} {st : CoherenceStats} (waits : σ.ticked s.numProcs = false)
    (ticked : System.tickDir F s σ.dir σ.clock σ.stats = .ok (d, st)) : (System.machine F π s).step σ .dirTick =
      .ok { σ with dir := d, ticked := Function.update σ.ticked s.numProcs true, stats := st } := by
  change σ.step s .dirTick = _
  rw [System.step, if_pos waits, ticked]

theorem throws_dirTick {what : String} (waits : σ.ticked s.numProcs = false)
    (ticked : System.tickDir F s σ.dir σ.clock σ.stats = .error what) : σ.thrown s .dirTick = some what := by
  rw [System.thrown, System.step, if_pos waits, ticked]

theorem steps_dirDeliver (bound : i < s.numProcs) (ticked : σ.ticked s.numProcs = true)
    (queue : σ.chan i s.numProcs = m :: rest) : (System.machine F π s).step σ (.dirDeliver i) =
      .ok
        { σ with
          dir := { σ.dir with requestNext := σ.dir.requestNext ++ [m] }
          chan := Function.update σ.chan i (Function.update (σ.chan i) s.numProcs rest) } := by
  change σ.step s (.dirDeliver i) = _
  rw [System.step, if_pos ⟨bound, ticked⟩, queue]

theorem steps_dirTock (ticked : σ.ticked s.numProcs = true) : (System.machine F π s).step σ .dirTock =
    .ok
      { σ with
        dir := { σ.dir.tock with ntwkOutNext := [] }
        chan := System.send σ.chan s.numProcs σ.dir.ntwkOutNext
        ticked := Function.update σ.ticked s.numProcs false
        clock := σ.clock + 1 } := by
  change σ.step s .dirTock = _
  rw [System.step, if_pos ticked]

end

/-! ## Turns -/

/-- The directory is handed messages one after the other. -/
theorem dirDelivers_all {ms : List Message} (rest : NodeId → List Message) (ticked : σ.ticked s.numProcs = true)
    (cpus : ∀ m ∈ ms, m.src < s.numProcs)
    (chan : ∀ i < s.numProcs, σ.chan i s.numProcs = ms.filter (·.src = i) ++ rest i) :
    ∃ chan', (System.machine F π s).exec σ (ms.map fun m => .dirDeliver m.src) =
        .ok { σ with dir := { σ.dir with requestNext := σ.dir.requestNext ++ ms }, chan := chan' } ∧
      (∀ i < s.numProcs, chan' i s.numProcs = rest i) ∧
      ∀ i j, j ≠ s.numProcs ∨ s.numProcs ≤ i → chan' i j = σ.chan i j := by
  induction ms generalizing σ with
  | nil => exact ⟨σ.chan, by simp [Machine.exec], fun i bound => by simpa using chan i bound, fun _ _ _ => rfl⟩
  | cons m ms ih =>
      have bound := cpus m List.mem_cons_self
      have first := chan m.src bound
      rw [List.filter_cons_of_pos (by simp), List.cons_append] at first
      let σ₁ : System F π := { σ with
        dir := { σ.dir with requestNext := σ.dir.requestNext ++ [m] }
        chan := Function.update σ.chan m.src (Function.update (σ.chan m.src) s.numProcs
          (ms.filter (·.src = m.src) ++ rest m.src)) }
      have step : (System.machine F π s).step σ (.dirDeliver m.src) = .ok σ₁ := steps_dirDeliver bound ticked first
      obtain ⟨chan', ran, here, other⟩ := ih (σ := σ₁) ticked (fun m' mem => cpus m' (List.mem_cons_of_mem _ mem))
        fun i below => by
          by_cases eq : i = m.src
          · simp [σ₁, eq]
          · have old := chan i below
            rw [List.filter_cons_of_neg (by simpa using Ne.symm eq)] at old
            simpa [σ₁, eq] using old
      refine ⟨chan', ?_, here, fun i j apart => ?_⟩
      · rw [List.map_cons, Machine.exec, step]
        refine ran.trans (congrArg Except.ok ?_)
        simp only [σ₁, List.append_assoc, List.singleton_append]
      · rw [other i j apart]
        by_cases eq : i = m.src
        · subst eq
          have ne := apart.resolve_right (Nat.not_le.mpr bound)
          simp [σ₁, ne]
        · simp [σ₁, eq]

/-- The ring's part of a tick, where the other network has done its part. -/
theorem Shadows.ticked (shadows : Shadows s start ν σ) {out : List Message} {taken : List MsgId}
    (waits : σ.ticked k = false) (exchange : Ring.Exchange (size s) k out taken ν.ring ν'.ring)
    (sound : Ring.Sound (size s) ν'.ring) (mirrors : Mirrors s ν' σ')
    (reached : (System.machine F π s).Reachable start σ') (now : σ'.ticked = Function.update σ.ticked k true)
    (mine : σ'.outbox s k = out) (others : ∀ j < size s, j ≠ k → σ'.outbox s j = σ.outbox s j)
    (fewer : ∀ i j, σ.chan i j = [] → σ'.chan i j = []) : Shadows s start ν' σ' where
  toMirrors := mirrors
  reached := reached
  sound := sound
  outbox j bound := by
    have old := shadows.outbox j bound
    rw [exchange.outNext, List.map_append, now]
    have kept : (ν.ring.nodes j).outNext.map ν'.ring.heap = (ν.ring.nodes j).outNext.map ν.ring.heap :=
      List.map_congr_left fun id mem => exchange.heap id (shadows.sound.routed.named j bound id (.inl mem))
    by_cases eq : j = k
    · subst eq
      rw [kept, old, waits, if_pos rfl, exchange.sends, Function.update_self, mine]
      rfl
    · rw [kept, old, if_neg eq, Function.update_of_ne eq, others j bound eq, List.map_nil, List.append_nil]
  latch j bound idle := by
    rw [now] at idle
    by_cases eq : j = k
    · rw [eq, Function.update_self] at idle
      cases idle
    · rw [Function.update_of_ne eq] at idle
      rw [exchange.cacheIn j eq]
      exact shadows.latch j bound idle
  idle still := by
    rw [now] at still
    by_cases eq : s.numProcs = k
    · rw [eq, Function.update_self] at still
      cases still
    · rw [Function.update_of_ne eq] at still
      have same := others s.numProcs (Nat.lt_succ_self _) eq
      rw [System.outbox, System.outbox, if_neg (Nat.lt_irrefl _), if_neg (Nat.lt_irrefl _)] at same
      rw [same]
      exact shadows.idle still
  routes i bound j bound' := fewer i j (shadows.routes i bound j bound')
  selfless := fewer _ _ shadows.selfless

theorem two_le_size (some : k < s.numProcs) : 2 ≤ size s :=
  Nat.succ_le_succ (Nat.succ_le_of_lt (Nat.zero_lt_of_lt some))

/-- What a node's end of the ring does in its tick, as the channels see it. -/
structure Hands (s : Settings) (ν : RingNetwork F π) (σ : System F π) (k : NodeId) (out : List Message)
    (taken : List MsgId) (ring : Ring) : Prop extends Ring.Exchange (size s) k out taken ν.ring ring where
  sound : Ring.Sound (size s) ring
  chan : ∀ i < size s, ∀ j < size s, σ.chan i j =
    (if j = k then (taken.map ring.heap).filter (·.src = i) else []) ++ (Ring.transit (size s) ring i j).map ring.heap
  home : ∀ id ∈ taken, (ring.heap id).src < size s ∧ (ring.heap id).dst = k
  /-- CPUs and the directory are handed what the other sent. -/
  across : ∀ id ∈ taken, (ring.heap id).src < s.numProcs ↔ k = s.numProcs
  new : ∀ j id, id ∈ (ring.nodes j).handed → id ∉ (ν.ring.nodes j).handed → j = k ∧ id ∈ taken

theorem Shadows.hands (shadows : Shadows s start ν σ) (two : 2 ≤ size s) (here : k < size s) {out : List Message}
    (valid : ∀ m ∈ out, m.src = k ∧ m.dst < size s ∧ 1 ≤ m.flits) :
    ∃ taken, Hands s ν σ k out taken (ν.ring.tickNode (size s) k out) := by
  have sound := shadows.sound.tickNode two here valid
  obtain ⟨taken, exchange⟩ := Ring.tickNode_exchange ν.ring (size s) k out
  generalize ν.ring.tickNode (size s) k out = ring at sound exchange ⊢
  have chan (i : NodeId) (from_ : i < size s) (j : NodeId) (to_ : j < size s) :=
    (shadows.chan i from_ j to_).trans
      (exchange.transit_eq shadows.sound sound here (fun m mem => (valid m mem).1) from_ to_)
  have home (id : MsgId) (mem : id ∈ taken) : (ring.heap id).src < size s ∧ (ring.heap id).dst = k := by
    have mem' : id ∈ (ring.nodes k).handed := by
      rw [exchange.handed, if_pos rfl]
      exact List.mem_append_right _ mem
    have old := sound.routed.named k here id (.inr (.inr (.inr (.inr mem'))))
    exact ⟨(sound.routed.addressed id old).1, sound.routed.inbox k here id (.inr mem')⟩
  refine ⟨taken, exchange, sound, chan, home, fun id mem => ?_, fun j id mem new => ?_⟩
  · obtain ⟨from_, -⟩ := home id mem
    have waits : σ.chan (ring.heap id).src k ≠ [] := by
      rw [chan _ from_ k here, if_pos rfl]
      exact List.append_ne_nil_of_left_ne_nil
        (List.ne_nil_of_mem (List.mem_filter.mpr ⟨List.mem_map_of_mem mem, by simp⟩)) _
    refine ⟨fun cpu => ?_, fun last => ?_⟩
    · by_contra other
      exact waits (shadows.routes _ cpu k (Nat.lt_of_le_of_ne (Nat.le_of_lt_succ here) other))
    · refine Nat.lt_of_le_of_ne (Nat.le_of_lt_succ from_) fun self => waits ?_
      rw [self, last]
      exact shadows.selfless
  · rw [exchange.handed] at mem
    have late := (List.mem_append.mp mem).resolve_left new
    split at late
    · next eq => exact ⟨eq, late⟩
    · cases late

/-- `Node::tick` of a CPU's node. -/
theorem Shadows.tickCpu (shadows : Shadows s start ν σ) (good : GoodThroughout s start) (header : 1 ≤ s.headerFlits)
    (bound : k < s.numProcs) (waits : σ.ticked k = false) (step : ν.tickCpu s k = .ok ν') :
    ∃ actions σ', Matches s start ν ν' σ σ' actions ∧ .tick k ∈ actions ∧
      σ'.ticked = Function.update σ.ticked k true := by
  unfold RingNetwork.tickCpu at step
  split at step
  · cases step
  · next n st ticked =>
      cases step
      have here : k < size s := Nat.lt_succ_of_lt bound
      have two := two_le_size bound
      have last : k + 1 ≠ size s := Nat.ne_of_lt (Nat.succ_lt_succ bound)
      let σ₁ : System F π := { σ with
        cpus := Function.update σ.cpus k n
        ticked := Function.update σ.ticked k true
        stats := st }
      rw [← shadows.cpus, ← shadows.stats] at ticked
      have first : (System.machine F π s).step σ (.tick k) = .ok σ₁ := steps_tick bound waits ticked
      have reached₁ : (System.machine F π s).Reachable start σ₁ := shadows.reached.step trivial first
      have good₁ := good σ₁ reached₁
      have mine : (σ₁.cpus k) = n := Function.update_self ..
      have free : n.ntwkInNext = none := by
        obtain ⟨frame, -⟩ := tick_ticked ticked
        rw [frame.ntwkInNext]
        exact (good σ shadows.reached).net.tocked k bound waits
      have box : σ₁.outbox s k = n.ntwkOutNext := by rw [System.outbox, if_pos bound, mine]
      have valid : ∀ m ∈ n.ntwkOutNext, m.src = k ∧ m.dst < size s ∧ 1 ≤ m.flits := by
        intro m mem
        rw [← box] at mem
        obtain ⟨src, dst, flits, -⟩ := good₁.sends header here mem
        exact ⟨src, dst, flits⟩
      obtain ⟨taken, hands⟩ := shadows.hands two here valid
      have latch := hands.latch last (shadows.latch k bound waits)
      have others (j : NodeId) (_ : j < size s) (ne : j ≠ k) : σ₁.outbox s j = σ.outbox s j := by
        simp only [System.outbox, σ₁, Function.update_of_ne ne]
      cases handed : ((ν.ring.tickNode (size s) k n.ntwkOutNext).nodes k).cacheIn with
      | none =>
          rw [handed, Option.toList_none] at latch
          subst latch
          have same : { n with ntwkInNext := none } = n := by rw [← free]
          refine ⟨[.tick k], σ₁, ⟨?_, ?_, ?_, hands.heap, ?_⟩, by simp, rfl⟩
          · rw [Machine.exec, first]
            rfl
          · refine shadows.ticked waits hands.toExchange hands.sound
              ⟨?_, shadows.dir, shadows.clock, rfl, fun i from_ j to_ => ?_⟩ reached₁ rfl box others fun _ _ => id
            · change Function.update σ.cpus k n = Function.update ν.cpus k _
              rw [Option.map_none, same, shadows.cpus]
            · have moved := hands.chan i from_ j to_
              simpa using moved
          · rw [hands.fresh]
            exact Nat.le_add_right _ _
          · intro j _ id mem new
            cases (hands.new j id mem new).2
      | some id =>
          rw [handed, Option.toList_some] at latch
          subst latch
          let m := (ν.ring.tickNode (size s) k n.ntwkOutNext).heap id
          obtain ⟨from_, home⟩ := hands.home id List.mem_cons_self
          have source : m.src = s.numProcs := by
            by_contra other
            have cpu : m.src < s.numProcs := Nat.lt_of_le_of_ne (Nat.le_of_lt_succ from_) other
            exact Nat.ne_of_lt bound ((hands.across id List.mem_cons_self).mp cpu)
          let rest := (Ring.transit (size s) (ν.ring.tickNode (size s) k n.ntwkOutNext) s.numProcs k).map
            (ν.ring.tickNode (size s) k n.ntwkOutNext).heap
          have queue : σ.chan s.numProcs k = m :: rest := by
            rw [hands.chan s.numProcs (Nat.lt_succ_self _) k here, if_pos rfl]
            simp only [List.map_cons, List.map_nil, List.filter_cons, List.filter_nil]
            rw [if_pos (by simpa using source)]
            rfl
          let σ₂ : System F π := { σ₁ with
            cpus := Function.update σ₁.cpus k { n with ntwkInNext := some m }
            chan := Function.update σ.chan s.numProcs (Function.update (σ.chan s.numProcs) k rest) }
          have second : (System.machine F π s).step σ₁ (.deliver k) = .ok σ₂ := by
            rw [steps_deliver (σ := σ₁) bound (Function.update_self ..) (by rwa [mine]) queue, mine]
          have reached₂ := reached₁.step trivial second
          have box₂ : σ₂.outbox s k = n.ntwkOutNext := by
            rw [System.outbox, if_pos bound]
            simp [σ₂]
          have others₂ (j : NodeId) (_ : j < size s) (ne : j ≠ k) : σ₂.outbox s j = σ.outbox s j := by
            simp only [System.outbox, σ₂, σ₁, Function.update_of_ne ne]
          have moved (i j : NodeId) : σ₂.chan i j = if i = s.numProcs ∧ j = k then rest else σ.chan i j := by
            by_cases eq : i = s.numProcs
            · simp only [σ₂, eq, Function.update_self, Function.update_apply, true_and]
            · simp only [σ₂, Function.update_of_ne eq, eq, false_and, if_false]
          refine ⟨[.tick k, .deliver k], σ₂, ⟨?_, ?_, ?_, hands.heap, ?_⟩, by simp, rfl⟩
          · rw [Machine.exec, first]
            simp only
            rw [Machine.exec, second]
            rfl
          · refine shadows.ticked waits hands.toExchange hands.sound
              ⟨?_, shadows.dir, shadows.clock, rfl, fun i from_ j to_ => ?_⟩ reached₂ rfl box₂ others₂ fun i j none => ?_
            · change Function.update (Function.update σ.cpus k n) k _ = Function.update ν.cpus k _
              rw [Function.update_idem, shadows.cpus]
              rfl
            · rw [moved]
              split
              · next here =>
                  rw [here.1, here.2]
              · next other =>
                  rw [hands.chan i from_ j to_]
                  split
                  · next eq =>
                      have ne : m.src ≠ i := fun same => other ⟨same.symm.trans source, eq⟩
                      rw [List.filter_eq_nil_iff.mpr (by simpa using ne), List.nil_append]
                  · rfl
            · rw [moved]
              split
              · next here =>
                  rw [here.1, here.2, queue] at none
                  cases none
              · exact none
          · rw [hands.fresh]
            exact Nat.le_add_right _ _
          · intro j _ x mem new
            obtain ⟨-, only⟩ := hands.new j x mem new
            rw [List.mem_singleton.mp only]
            change handing s m ∈ _
            have home : m.dst = k := home
            simp [handing, home, bound]

/-- `Node::tick` of the directory's node. -/
theorem Shadows.tickDir (shadows : Shadows s start ν σ) (good : GoodThroughout s start) (header : 1 ≤ s.headerFlits)
    (some : 0 < s.numProcs) (waits : σ.ticked s.numProcs = false) (step : ν.tickDir s = .ok ν') :
    ∃ actions σ', Matches s start ν ν' σ σ' actions ∧ .dirTick ∈ actions ∧
      σ'.ticked = Function.update σ.ticked s.numProcs true := by
  unfold RingNetwork.tickDir at step
  split at step
  · cases step
  · next d st ticked =>
      cases step
      have here : s.numProcs < size s := Nat.lt_succ_self _
      let ring' := ν.ring.tickNode (size s) s.numProcs d.ntwkOutNext
      let σ₁ : System F π := { σ with
        dir := d
        ticked := Function.update σ.ticked s.numProcs true
        stats := st }
      rw [← shadows.dir, ← shadows.clock, ← shadows.stats] at ticked
      have first : (System.machine F π s).step σ .dirTick = .ok σ₁ := steps_dirTick waits ticked
      have reached₁ : (System.machine F π s).Reachable start σ₁ := shadows.reached.step trivial first
      have good₁ := good σ₁ reached₁
      have box : σ₁.outbox s s.numProcs = d.ntwkOutNext := if_neg (Nat.lt_irrefl _)
      have valid : ∀ m ∈ d.ntwkOutNext, m.src = s.numProcs ∧ m.dst < size s ∧ 1 ≤ m.flits := by
        intro m mem
        rw [← box] at mem
        obtain ⟨src, dst, flits, -⟩ := good₁.sends header here mem
        exact ⟨src, dst, flits⟩
      obtain ⟨taken, hands⟩ : ∃ taken, Hands s ν σ s.numProcs d.ntwkOutNext taken ring' :=
        shadows.hands (two_le_size some) here valid
      have got : handed ν.ring ring' s.numProcs = taken.map ring'.heap := by
        rw [handed, hands.handed, if_pos rfl, List.drop_left]
      have cpus : ∀ m ∈ taken.map ring'.heap, m.src < s.numProcs := by
        intro m mem
        obtain ⟨id, late, rfl⟩ := List.mem_map.mp mem
        exact (hands.across id late).mpr rfl
      have queues : ∀ i < s.numProcs, σ₁.chan i s.numProcs = (taken.map ring'.heap).filter (·.src = i) ++
          (Ring.transit (size s) ring' i s.numProcs).map ring'.heap := by
        intro i bound
        have moved := hands.chan i (Nat.lt_succ_of_lt bound) s.numProcs here
        rwa [if_pos rfl] at moved
      have now : σ₁.ticked s.numProcs = true := Function.update_self ..
      obtain ⟨chan', ran, here', other'⟩ := dirDelivers_all _ now cpus queues
      let σ₂ : System F π := { σ₁ with
        dir := { d with requestNext := d.requestNext ++ taken.map ring'.heap }
        chan := chan' }
      have whole : (System.machine F π s).exec σ (.dirTick :: (taken.map ring'.heap).map fun m => .dirDeliver m.src) =
          .ok σ₂ := by
        rw [Machine.exec, first]
        exact ran
      have apart {i j : NodeId} (other : ¬(i < s.numProcs ∧ j = s.numProcs)) : j ≠ s.numProcs ∨ s.numProcs ≤ i := by
        by_cases last : j = s.numProcs
        · exact .inr (Nat.le_of_not_lt fun cpu => other ⟨cpu, last⟩)
        · exact .inl last
      refine ⟨_, σ₂, ⟨whole, ?_, ?_, hands.heap, ?_⟩, List.mem_cons_self, rfl⟩
      · have reached₂ : (System.machine F π s).Reachable start σ₂ :=
          Machine.Run.exec_from shadows.reached (fun _ _ => trivial) whole
        refine shadows.ticked waits hands.toExchange hands.sound
          ⟨shadows.cpus, ?_, shadows.clock, rfl, fun i from_ j to_ => ?_⟩ reached₂ rfl ?_ (fun j bound ne => ?_)
          fun i j none => ?_
        · change ({ d with requestNext := _ } : DirectoryController) = { d with requestNext := _ }
          rw [got]
        · change chan' i j = _
          by_cases eq : i < s.numProcs ∧ j = s.numProcs
          · rw [eq.2]
            exact here' i eq.1
          · rw [other' i j (apart eq)]
            refine (hands.chan i from_ j to_).trans ?_
            split
            · next last =>
                have beyond : s.numProcs ≤ i := (apart eq).resolve_left (not_not.mpr last)
                rw [List.filter_eq_nil_iff.mpr, List.nil_append]
                intro m mem src
                have src : m.src = i := by simpa using src
                exact Nat.not_lt.mpr beyond (src ▸ cpus m mem)
            · rfl
        · rw [System.outbox, if_neg (Nat.lt_irrefl _)]
        · have cpu : j < s.numProcs := Nat.lt_of_le_of_ne (Nat.le_of_lt_succ bound) ne
          rw [System.outbox, System.outbox, if_pos cpu, if_pos cpu]
        · change chan' i j = []
          by_cases eq : i < s.numProcs ∧ j = s.numProcs
          · rw [eq.2, here' i eq.1]
            have moved := hands.chan i (Nat.lt_succ_of_lt eq.1) s.numProcs here
            rw [← eq.2, none, eq.2] at moved
            exact (List.append_eq_nil_iff.mp moved.symm).2
          · rw [other' i j (apart eq)]
            exact none
      · rw [hands.fresh]
        exact Nat.le_add_right _ _
      · intro j _ id mem new
        obtain ⟨-, late⟩ := hands.new j id mem new
        have here : handing (π := π) s (ring'.heap id) = .dirDeliver (ring'.heap id).src := by
          rw [handing, (hands.home id late).2, if_neg (Nat.lt_irrefl _)]
        change handing s (ring'.heap id) ∈ _
        rw [here]
        exact List.mem_cons_of_mem _ (List.mem_map_of_mem (f := fun m : Message => (.dirDeliver m.src : Action π))
          (List.mem_map_of_mem late))

/-- The ring's part of a tock, where the other network has done its part. -/
theorem Shadows.tocked (shadows : Shadows s start ν σ) (two : 2 ≤ size s) (here : k < size s) (done : σ.ticked k = true)
    (ring : ν'.ring = ν.ring.tockNode k) (cpus : σ'.cpus = ν'.cpus) (dir : σ'.dir = ν'.dir)
    (clock : σ'.clock = ν'.clock) (stats : σ'.stats = ν'.stats)
    (reached : (System.machine F π s).Reachable start σ') (now : σ'.ticked = Function.update σ.ticked k false)
    (chan : σ'.chan = System.send σ.chan k (σ.outbox s k))
    (others : ∀ j < size s, j ≠ k → σ'.outbox s j = σ.outbox s j)
    (sends : ∀ m ∈ σ.outbox s k, m.dst = s.numProcs ↔ k < s.numProcs)
    (idle : σ'.ticked s.numProcs = false → σ'.dir.ntwkOutNext = []) : Shadows s start ν' σ' := by
  obtain ⟨heap, fresh, outNext, handed, cacheIn⟩ := Ring.tockNode_ends shadows.sound two here
  have moved (i j : NodeId) : σ'.chan i j =
      σ.chan i j ++ if i = k then (σ.outbox s k).filter (·.dst = j) else [] := by
    rw [chan]
    by_cases eq : i = k
    · subst eq
      simp [System.send]
    · simp [System.send, eq]
  refine ⟨⟨cpus, dir, clock, stats, fun i from_ j to_ => ?_⟩, reached, ?_, fun j bound => ?_, fun j bound still => ?_,
    idle, fun i bound j bound' => ?_, ?_⟩
  · have sent := shadows.outbox k here
    rw [if_pos done] at sent
    rw [ring, shadows.sound.tock_transit two here from_ to_, moved, shadows.chan i from_ j to_, sent]
  · rw [ring]
    exact shadows.sound.tockNode two here
  · rw [ring, heap, outNext, now]
    by_cases eq : j = k
    · rw [eq, if_pos rfl, Function.update_self]
      rfl
    · rw [if_neg eq, Function.update_of_ne eq, others j bound eq]
      exact shadows.outbox j bound
  · rw [ring, cacheIn]
    split
    · rfl
    · next other =>
        rw [now, Function.update_of_ne other] at still
        exact shadows.latch j bound still
  · rw [moved, shadows.routes i bound j bound', List.nil_append]
    split
    · next eq =>
        refine List.filter_eq_nil_iff.mpr fun m mem dst => ?_
        have last := (sends m mem).mpr (eq ▸ bound)
        have dst : m.dst = j := by simpa using dst
        exact Nat.ne_of_lt bound' (dst.symm.trans last)
    · rfl
  · rw [moved, shadows.selfless, List.nil_append]
    split
    · next eq =>
        refine List.filter_eq_nil_iff.mpr fun m mem dst => ?_
        have cpu := (sends m mem).mp (by simpa using dst)
        exact Nat.lt_irrefl _ (eq ▸ cpu)
    · rfl

/-- As the ring sees it, a tock hands nothing over. -/
theorem Shadows.tockMatches (shadows : Shadows s start ν σ) (two : 2 ≤ size s) (here : k < size s) {a : Action π}
    (ring : ν'.ring = ν.ring.tockNode k) (step : (System.machine F π s).step σ a = .ok σ')
    (after : Shadows s start ν' σ') : Matches s start ν ν' σ σ' [a] := by
  obtain ⟨heap, fresh, -, handed, -⟩ := Ring.tockNode_ends shadows.sound two here
  refine ⟨?_, after, ?_, fun id _ => ?_, fun j _ id mem new => ?_⟩
  · rw [Machine.exec, step]
    rfl
  · rw [ring, fresh]
  · rw [ring, heap]
  · rw [ring, handed] at mem
    exact absurd mem new

/-- `Node::tock` of a CPU's node. -/
theorem Shadows.tockCpu (shadows : Shadows s start ν σ) (good : GoodThroughout s start) (bound : k < s.numProcs) (done : σ.ticked k = true) :
    ∃ σ', Matches s start ν (ν.tockNode s k) σ σ' [.tock k] ∧ σ'.ticked = Function.update σ.ticked k false := by
  let σ₁ : System F π := { σ with
    cpus := Function.update σ.cpus k (σ.cpus k).tock
    chan := System.send σ.chan k (σ.cpus k).ntwkOutNext
    ticked := Function.update σ.ticked k false }
  have step : (System.machine F π s).step σ (.tock k) = .ok σ₁ := steps_tock bound done
  have two := two_le_size bound
  have here : k < size s := Nat.lt_succ_of_lt bound
  have ring : (ν.tockNode s k).ring = ν.ring.tockNode k := by
    rw [RingNetwork.tockNode, if_pos bound]
  have box : σ.outbox s k = (σ.cpus k).ntwkOutNext := if_pos bound
  refine ⟨σ₁, shadows.tockMatches two here ring step ?_, rfl⟩
  refine shadows.tocked two here done ring ?_ ?_ ?_ ?_ (shadows.reached.step trivial step) rfl ?_
    (fun j _ ne => ?_) (fun m mem => ?_) fun still => ?_
  · rw [RingNetwork.tockNode, if_pos bound, ← shadows.cpus]
  · rw [RingNetwork.tockNode, if_pos bound]
    exact shadows.dir
  · rw [RingNetwork.tockNode, if_pos bound]
    exact shadows.clock
  · rw [RingNetwork.tockNode, if_pos bound]
    exact shadows.stats
  · rw [box]
  · simp only [System.outbox, σ₁, Function.update_of_ne ne]
  · rw [box] at mem
    exact ⟨fun _ => bound, fun _ => ((good σ shadows.reached).net.out k m mem).2⟩
  · have ne : s.numProcs ≠ k := (Nat.ne_of_lt bound).symm
    have still : σ.ticked s.numProcs = false := by simpa [σ₁, ne] using still
    exact shadows.idle still

/-- `Node::tock` of the directory's node, which ends the cycle. -/
theorem Shadows.tockDir (shadows : Shadows s start ν σ) (good : GoodThroughout s start) (some : 0 < s.numProcs)
    (done : σ.ticked s.numProcs = true) :
    ∃ σ', Matches s start ν { ν.tockNode s s.numProcs with clock := ν.clock + 1 } σ σ' [.dirTock] ∧
      σ'.ticked = Function.update σ.ticked s.numProcs false := by
  let σ₁ : System F π := { σ with
    dir := { σ.dir.tock with ntwkOutNext := [] }
    chan := System.send σ.chan s.numProcs σ.dir.ntwkOutNext
    ticked := Function.update σ.ticked s.numProcs false
    clock := σ.clock + 1 }
  have step : (System.machine F π s).step σ .dirTock = .ok σ₁ := steps_dirTock done
  have two := two_le_size some
  have here : s.numProcs < size s := Nat.lt_succ_self _
  have last := Nat.lt_irrefl s.numProcs
  have ring : (ν.tockNode s s.numProcs).ring = ν.ring.tockNode s.numProcs := by
    rw [RingNetwork.tockNode, if_neg last]
  have box : σ.outbox s s.numProcs = σ.dir.ntwkOutNext := if_neg last
  refine ⟨σ₁, shadows.tockMatches two here ring step ?_, rfl⟩
  refine shadows.tocked two here done ring ?_ ?_ ?_ ?_ (shadows.reached.step trivial step) rfl ?_
    (fun j bound ne => ?_) (fun m mem => ?_) fun _ => rfl
  · rw [RingNetwork.tockNode, if_neg last]
    exact shadows.cpus
  · rw [RingNetwork.tockNode, if_neg last, ← shadows.dir]
  · exact congrArg (· + 1) shadows.clock
  · rw [RingNetwork.tockNode, if_neg last]
    exact shadows.stats
  · rw [box]
  · have cpu : j < s.numProcs := Nat.lt_of_le_of_ne (Nat.le_of_lt_succ bound) ne
    rw [System.outbox, System.outbox, if_pos cpu, if_pos cpu]
  · rw [box] at mem
    have cpu := (good σ shadows.reached).fenced.addressed m mem
    exact ⟨fun eq => absurd cpu (eq ▸ last), fun self => absurd self last⟩

/-! ## Cycles -/

/-- Nobody is in the middle of a cycle. -/
def System.Level (s : Settings) (σ : System F π) : Prop := ∀ k < size s, σ.ticked k = false

/-- `Node::tick` of any node. -/
theorem Shadows.tickNode (shadows : Shadows s start ν σ) (good : GoodThroughout s start) (header : 1 ≤ s.headerFlits)
    (some : 0 < s.numProcs) (here : k < size s) (waits : σ.ticked k = false) (step : ν.tickNode s k = .ok ν') :
    ∃ actions σ', Matches s start ν ν' σ σ' actions ∧ (if k < s.numProcs then .tick k else .dirTick) ∈ actions ∧
      σ'.ticked = Function.update σ.ticked k true := by
  unfold RingNetwork.tickNode at step
  by_cases cpu : k < s.numProcs
  · rw [if_pos cpu] at step ⊢
    exact shadows.tickCpu good header cpu waits step
  · have last : k = s.numProcs := Nat.le_antisymm (Nat.le_of_lt_succ here) (Nat.le_of_not_lt cpu)
    subst last
    rw [if_neg cpu] at step ⊢
    exact shadows.tickDir good header some waits step

/-- Where a node of one network throws, so does that of the other. -/
theorem Shadows.thrown (shadows : Shadows s start ν σ) (here : k < size s) (waits : σ.ticked k = false) {what : String}
    (fails : ν.tickNode s k = .error what) : ∃ a, σ.thrown s a = some what := by
  unfold RingNetwork.tickNode at fails
  split at fails
  · next cpu =>
      refine ⟨.tick k, ?_⟩
      unfold RingNetwork.tickCpu at fails
      split at fails
      · next ticked =>
          cases fails
          rw [← shadows.cpus, ← shadows.stats] at ticked
          exact throws_tick cpu waits ticked
      · cases fails
  · next cpu =>
      have last : k = s.numProcs := Nat.le_antisymm (Nat.le_of_lt_succ here) (Nat.le_of_not_lt cpu)
      subst last
      refine ⟨.dirTick, ?_⟩
      unfold RingNetwork.tickDir at fails
      split at fails
      · next ticked =>
          cases fails
          rw [← shadows.dir, ← shadows.clock, ← shadows.stats] at ticked
          exact throws_dirTick waits ticked
      · cases fails

/-- `Network::tick`, from one of its nodes on. -/
theorem Shadows.tickAll (shadows : Shadows s start ν σ) (good : GoodThroughout s start) (header : 1 ≤ s.headerFlits)
    (some : 0 < s.numProcs) {ks : List NodeId} (once : ks.Nodup) (here : ∀ k ∈ ks, k < size s)
    (waits : ∀ k ∈ ks, σ.ticked k = false) :
    (∀ ν', ν.tickAll s ks = .ok ν' → ∃ actions σ', Matches s start ν ν' σ σ' actions ∧
        (∀ k ∈ ks, (if k < s.numProcs then .tick k else .dirTick) ∈ actions) ∧
        ∀ j, σ'.ticked j = if j ∈ ks then true else σ.ticked j) ∧
      ∀ what, ν.tickAll s ks = .error what → ∃ τ a, (System.machine F π s).Reachable start τ ∧
        τ.thrown s a = .some what := by
  induction ks generalizing ν σ with
  | nil =>
      refine ⟨fun ν' ran => ?_, fun what no => by cases no⟩
      cases ran
      exact ⟨[], σ, shadows.refl, fun k no => (by cases no), fun j => by simp⟩
  | cons k rest ih =>
      obtain ⟨new, once⟩ := List.nodup_cons.mp once
      have here' := fun j mem => here j (List.mem_cons_of_mem _ mem)
      have first := waits k List.mem_cons_self
      rw [RingNetwork.tickAll]
      cases ticked : ν.tickNode s k with
      | error what =>
          refine ⟨fun ν' no => (by cases no), fun what' same => ?_⟩
          cases same
          obtain ⟨a, thrown⟩ := shadows.thrown (here k List.mem_cons_self) first ticked
          exact ⟨σ, a, shadows.reached, thrown⟩
      | ok ν₁ =>
          obtain ⟨xs, σ₁, turn, tick, now⟩ :=
            shadows.tickNode good header some (here k List.mem_cons_self) first ticked
          have waits' : ∀ j ∈ rest, σ₁.ticked j = false := by
            intro j mem
            have ne : j ≠ k := fun eq => new (eq ▸ mem)
            rw [now, Function.update_of_ne ne]
            exact waits j (List.mem_cons_of_mem _ mem)
          obtain ⟨ran, fails⟩ := ih turn.shadows once here' waits'
          refine ⟨fun ν' ok => ?_, fails⟩
          obtain ⟨ys, σ₂, turns, ticks, now'⟩ := ran ν' ok
          refine ⟨xs ++ ys, σ₂, turn.trans turns, fun j mem => ?_, fun j => ?_⟩
          · rcases List.mem_cons.mp mem with rfl | mem
            · exact List.mem_append_left _ tick
            · exact List.mem_append_right _ (ticks j mem)
          · rw [now', now, Function.update_apply]
            by_cases eq : j = k
            · subst eq
              simp
            · simp [eq]

/-- `Node::tock` of some of the CPUs' nodes. -/
theorem Shadows.tockAll (shadows : Shadows s start ν σ) (good : GoodThroughout s start) {ks : List NodeId} (once : ks.Nodup)
    (cpus : ∀ k ∈ ks, k < s.numProcs) (done : ∀ k ∈ ks, σ.ticked k = true) :
    ∃ σ', Matches s start ν (ks.foldl (fun ν k => ν.tockNode s k) ν) σ σ' (ks.map .tock) ∧
      ∀ j, σ'.ticked j = if j ∈ ks then false else σ.ticked j := by
  induction ks generalizing ν σ with
  | nil => exact ⟨σ, shadows.refl, fun j => by simp⟩
  | cons k rest ih =>
      obtain ⟨new, once⟩ := List.nodup_cons.mp once
      obtain ⟨σ₁, turn, now⟩ := shadows.tockCpu good (cpus k List.mem_cons_self) (done k List.mem_cons_self)
      have done' : ∀ j ∈ rest, σ₁.ticked j = true := by
        intro j mem
        have ne : j ≠ k := fun eq => new (eq ▸ mem)
        rw [now, Function.update_of_ne ne]
        exact done j (List.mem_cons_of_mem _ mem)
      obtain ⟨σ₂, turns, now'⟩ := ih turn.shadows once (fun j mem => cpus j (List.mem_cons_of_mem _ mem)) done'
      refine ⟨σ₂, turn.trans turns, fun j => ?_⟩
      rw [now', now, Function.update_apply]
      by_cases eq : j = k
      · subst eq
        simp
      · simp [eq]

/-- The call of a port. -/
theorem Shadows.call (shadows : Shadows s start ν σ) (level : σ.Level s) (x : NodeId × π.Event) :
    ∃ actions σ', Matches s start ν (ν.call s x) σ σ' actions ∧ σ'.ticked = σ.ticked := by
  unfold RingNetwork.call
  split
  · next bound =>
      cases called : π.external s x.1 (ν.cpus x.1).cpu (ν.cpus x.1).cpuInNext x.2 with
      | none => exact ⟨[], σ, shadows.refl, rfl⟩
      | some p =>
          have waits := level x.1 (Nat.lt_succ_of_lt bound)
          let σ₁ : System F π := { σ with
            cpus := Function.update σ.cpus x.1 ((σ.cpus x.1).portStep p)
            stats := p.stats σ.stats }
          have step : (System.machine F π s).step σ (.external x.1 x.2) = .ok σ₁ :=
            steps_external bound waits (by rwa [shadows.cpus])
          refine ⟨[.external x.1 x.2], σ₁, ⟨?_, ⟨⟨?_, shadows.dir, shadows.clock, ?_, shadows.chan⟩,
            shadows.reached.step trivial step, shadows.sound, fun k below => ?_, shadows.latch, shadows.idle,
            shadows.routes, shadows.selfless⟩, le_rfl, fun _ _ => rfl, fun _ _ _ mem none => absurd mem none⟩, rfl⟩
          · rw [Machine.exec, step]
            rfl
          · simp only [σ₁, shadows.cpus]
          · simp only [σ₁, shadows.stats]
          · have old := shadows.outbox k below
            rw [level k below] at old
            have now : σ₁.ticked k = false := level k below
            rw [now]
            exact old
  · exact ⟨[], σ, shadows.refl, rfl⟩

theorem Shadows.calls (shadows : Shadows s start ν σ) (level : σ.Level s) (xs : List (NodeId × π.Event)) :
    ∃ actions σ', Matches s start ν (xs.foldl (fun ν x => ν.call s x) ν) σ σ' actions ∧ σ'.ticked = σ.ticked := by
  induction xs generalizing ν σ with
  | nil => exact ⟨[], σ, shadows.refl, rfl⟩
  | cons x xs ih =>
      obtain ⟨as, σ₁, first, same⟩ := shadows.call level x
      obtain ⟨bs, σ₂, later, same'⟩ := ih first.shadows fun k bound => by rw [same, level k bound]
      exact ⟨as ++ bs, σ₂, first.trans later, same'.trans same⟩

theorem tockNode_clock (ν : RingNetwork F π) (s : Settings) (k : NodeId) : (ν.tockNode s k).clock = ν.clock := by
  unfold RingNetwork.tockNode
  split <;> rfl

/-- `Network::tock`. -/
theorem Shadows.tock (shadows : Shadows s start ν σ) (good : GoodThroughout s start) (some : 0 < s.numProcs)
    (done : ∀ k < size s, σ.ticked k = true) :
    ∃ σ', Matches s start ν { ν.tock s with clock := (ν.tock s).clock + 1 } σ σ'
        ((List.range s.numProcs).map .tock ++ [.dirTock]) ∧ σ'.Level s := by
  have below : ∀ k ∈ List.range s.numProcs, k < s.numProcs := fun k mem => List.mem_range.mp mem
  obtain ⟨σ₁, cpus, now⟩ := shadows.tockAll good List.nodup_range below fun k mem =>
    done k (Nat.lt_succ_of_lt (below k mem))
  have waits : σ₁.ticked s.numProcs = true := by
    rw [now, if_neg (by simp)]
    exact done _ (Nat.lt_succ_self _)
  obtain ⟨σ₂, dir, now'⟩ := cpus.shadows.tockDir good some waits
  have whole : ν.tock s =
      ((List.range s.numProcs).foldl (fun ν k => ν.tockNode s k) ν).tockNode s s.numProcs := by
    rw [RingNetwork.tock, List.range_succ, List.foldl_append]
    rfl
  rw [whole, tockNode_clock]
  refine ⟨σ₂, cpus.trans dir, fun k bound => ?_⟩
  rw [now', Function.update_apply, now]
  split
  · rfl
  · next ne =>
      have cpu : k < s.numProcs := Nat.lt_of_le_of_ne (Nat.le_of_lt_succ bound) ne
      rw [if_pos (List.mem_range.mpr cpu)]

/-- A cycle of the network over its ring, as actions of the other. -/
structure OneCycle (s : Settings) (start : System F π) (ν ν' : RingNetwork F π) (σ σ' : System F π)
    (actions : List (Action π)) : Prop extends Matches s start ν ν' σ σ' actions where
  level : σ'.Level s
  tick : ∀ i < s.numProcs, .tick i ∈ actions
  tock : ∀ i < s.numProcs, .tock i ∈ actions
  dirTick : .dirTick ∈ actions
  dirTock : .dirTock ∈ actions

theorem Shadows.cycle (shadows : Shadows s start ν σ) (good : GoodThroughout s start) (header : 1 ≤ s.headerFlits)
    (some : 0 < s.numProcs) (level : σ.Level s) (calls : List (NodeId × π.Event)) :
    (∀ ν', ν.cycle s calls = .ok ν' → ∃ actions σ', OneCycle s start ν ν' σ σ' actions) ∧
      ∀ what, ν.cycle s calls = .error what → ∃ τ a, (System.machine F π s).Reachable start τ ∧
        τ.thrown s a = .some what := by
  obtain ⟨xs, σ₁, called, same⟩ := shadows.calls level calls
  have waits : ∀ k ∈ List.range (size s), σ₁.ticked k = false := by
    intro k mem
    rw [same]
    exact level k (List.mem_range.mp mem)
  obtain ⟨ran, fails⟩ := called.shadows.tickAll good header some List.nodup_range
    (fun k mem => List.mem_range.mp mem) waits
  unfold RingNetwork.cycle
  rw [RingNetwork.tick]
  cases ticked : (calls.foldl (fun ν x => ν.call s x) ν).tickAll s (List.range (size s)) with
  | error what => exact ⟨fun ν' no => (by cases no), fun what' eq => fails what' (ticked.trans eq)⟩
  | ok ν₁ =>
      refine ⟨fun ν' ok => ?_, fun what no => (by cases no)⟩
      cases ok
      obtain ⟨ys, σ₂, turns, ticks, now⟩ := ran ν₁ ticked
      have done : ∀ k < size s, σ₂.ticked k = true := fun k bound => by rw [now, if_pos (List.mem_range.mpr bound)]
      obtain ⟨σ₃, tocked, level'⟩ := turns.shadows.tock good some done
      have last := ticks s.numProcs (List.mem_range.mpr (Nat.lt_succ_self _))
      rw [if_neg (Nat.lt_irrefl _)] at last
      refine ⟨xs ++ ys ++ ((List.range s.numProcs).map .tock ++ [.dirTock]), σ₃,
        (called.trans turns).trans tocked, level', fun i bound => ?_, fun i bound => ?_, ?_, ?_⟩
      · have here := ticks i (List.mem_range.mpr (Nat.lt_succ_of_lt bound))
        rw [if_pos bound] at here
        exact List.mem_append_left _ (List.mem_append_right _ here)
      · exact List.mem_append_right _
          (List.mem_append_left _ (List.mem_map.mpr ⟨i, List.mem_range.mpr bound, rfl⟩))
      · exact List.mem_append_left _ (List.mem_append_right _ last)
      · exact List.mem_append_right _ (List.mem_append_right _ List.mem_cons_self)

/-! ## Runs -/

/-- The network over its ring, cycle by cycle, as a machine. -/
def RingNetwork.machine (F : ProtocolFsm) (π : CpuPort) (s : Settings) :
    Machine (RingNetwork F π) (List (NodeId × π.Event)) String :=
  ⟨RingNetwork.cycle s⟩

theorem Shadows.initial (s : Settings) (cpu : NodeId → π.State) :
    Shadows s (System.initial F π s cpu) (RingNetwork.initial F π s cpu) (System.initial F π s cpu) where
  cpus := rfl
  dir := rfl
  clock := rfl
  stats := rfl
  chan i from_ j to_ := by
    have none := (Ring.Sound.empty (size s)).sent_eq from_ to_
    have nobody : (({} : Ring).sent i j) = [] := rfl
    rw [nobody] at none
    have none := (List.append_eq_nil_iff.mp (List.append_eq_nil_iff.mp none.symm).2).1
    change [] = (Ring.transit (size s) {} i j).map _
    rw [none]
    rfl
  reached := .start
  sound := .empty _
  outbox _ _ := rfl
  latch _ _ _ := rfl
  idle _ := rfl
  routes _ _ _ _ := rfl
  selfless := rfl

/-- Every run of the network over its ring, with any number of calls in any cycle, is a run of the
    network of channels: node for node the same, and what the ring has on its way is in the
    channels. It throws only what the other throws. -/
theorem ring_network_refines (L : Laws F) (laws : PortLaws π fun _ _ => False) (ports : PortSizes π)
    (small : s.numProcs ≤ kMaxSharers) (some : 0 < s.numProcs) (header : 1 ≤ s.headerFlits) {cpu : NodeId → π.State}
    (reached : (RingNetwork.machine F π s).Reachable (RingNetwork.initial F π s cpu) ν) :
    (∃ σ, (System.machine F π s).Reachable (System.initial F π s cpu) σ ∧ Mirrors s ν σ) ∧
      ∀ calls what, ν.cycle s calls = .error what →
        ∃ τ a, (System.machine F π s).Reachable (System.initial F π s cpu) τ ∧ τ.thrown s a = .some what := by
  have good : GoodThroughout s (System.initial F π s cpu) := fun τ reached => good_run L laws ports small reached
  obtain ⟨σ, shadows, level⟩ : ∃ σ, Shadows s (System.initial F π s cpu) ν σ ∧ σ.Level s := by
    refine reached.invariant (I := fun ν => ∃ σ, Shadows s (System.initial F π s cpu) ν σ ∧ σ.Level s)
      ⟨_, .initial s cpu, fun _ _ => rfl⟩ ?_
    rintro ν calls ν' ⟨σ, shadows, level⟩ - stepped
    obtain ⟨actions, σ', one⟩ := (shadows.cycle good header some level calls).1 ν' stepped
    exact ⟨σ', one.shadows, one.level⟩
  exact ⟨⟨σ, shadows.reached, shadows.toMirrors⟩, fun calls => (shadows.cycle good header some level calls).2⟩

/-- The rivals over their ring. -/
def ringRivals (F : ProtocolFsm) (cycles : Nat) : RingNetwork F ficiPort :=
  (RingNetwork.machine F ficiPort rivalSettings.finalize).attempt
    (RingNetwork.initial F ficiPort rivalSettings.finalize fun i => FiciCpu.load (rivals i)) (List.replicate cycles [])

/-- When both requests of the rivals are on their way. -/
theorem ring_network_refines_rivals :
    Ring.transit 3 (ringRivals moesif 3).ring 0 2 ≠ [] ∧
      (∃ σ, (System.machine moesif ficiPort rivalSettings.finalize).Reachable
          (System.initial moesif ficiPort rivalSettings.finalize fun i => FiciCpu.load (rivals i)) σ ∧
        Mirrors rivalSettings.finalize (ringRivals moesif 3) σ) ∧
      ∀ calls what, (ringRivals moesif 3).cycle rivalSettings.finalize calls = .error what →
        ∃ τ a, (System.machine moesif ficiPort rivalSettings.finalize).Reachable
            (System.initial moesif ficiPort rivalSettings.finalize fun i => FiciCpu.load (rivals i)) τ ∧
          τ.thrown rivalSettings.finalize a = some what :=
  ⟨by decide, ring_network_refines moesifNetwork fici_laws fici_sizes (by decide) (by decide) (by decide)
    (Machine.reachable_attempt _ _)⟩

end Coherence
