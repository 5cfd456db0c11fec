import MulticoreSim.Coherence.FullMode
import MulticoreSim.Memory.Landing

/-! # A core's stack of caches

What the calls of an adapter make of the caches under it, and what they keep in
every run.
-/

namespace Coherence

open Memory

/-! ## What a port keeps -/

/-- A property of a port's state that no call of the node ends. -/
structure CpuPort.Stays (π : CpuPort) (s : Settings) (I : π.State → Prop) : Prop where
  tick : ∀ i st c, I st → I (π.tick s i st c).state
  tock : ∀ st, I st → I (π.tock st)
  event : ∀ st m, I st → I (π.onNtwkEvent s st m)
  deposit : ∀ st m, I st → I (π.deposit st m)

/-- A property that the port's own side does not end either. -/
structure CpuPort.Keeps (π : CpuPort) (s : Settings) (I : π.State → Prop) : Prop extends π.Stays s I where
  external : ∀ i st c e p, I st → π.external s i st c e = some p → I p.state

section

variable {F : ProtocolFsm} {π : CpuPort} {s : Settings} {I : π.State → Prop}

theorem CpuPort.Stays.apply (stays : π.Stays s I) {n : CpuNode F π} (here : I n.cpu) (i : NodeId)
    (b : BlockId) (a : AgentStep F.AgentState) : I (n.apply s i b a).cpu := by
  simp only [CpuNode.apply]
  split
  · exact stays.deposit _ _ here
  · exact here

theorem CpuPort.Stays.nodeTick (stays : π.Stays s I) {n n' : CpuNode F π} {i : NodeId}
    {st st' : CoherenceStats} (here : I n.cpu) (ticked : n.tick s i st = .ok (n', st')) : I n'.cpu := by
  have called : I (n.portStep (π.tick s i n.cpu n.cpuInNext)).cpu := stays.tick i _ _ here
  unfold CpuNode.tick at ticked
  simp only at ticked
  split at ticked
  · cases ticked
  · next n₁ st₁ answered =>
      have proc : I n₁.cpu := by
        unfold CpuNode.tickProc at answered
        split at answered
        · cases answered
          exact called
        · split at answered
          · cases answered
          · cases answered
            exact stays.apply called i _ _
      unfold CpuNode.tickNtwk at ticked
      split at ticked
      · cases ticked
        exact proc
      · split at ticked
        · cases ticked
        · cases ticked
          exact stays.event _ _ (stays.apply proc i _ _)

/-- A step that is not the node's own external one. -/
theorem CpuPort.Stays.step (stays : π.Stays s I) {σ σ' : System F π} {a : Action π} {i : NodeId}
    (here : I (σ.cpus i).cpu) (inside : ∀ e, a ≠ .external i e) (step : σ.step s a = .ok σ') :
    I (σ'.cpus i).cpu := by
  generalize eq : σ'.cpus i = n
  have moved : System.NodeStep s σ i a n := eq ▸ System.node_step step i
  cases moved with
  | idle => exact here
  | tick ticked => exact stays.nodeTick here ticked
  | tock => exact stays.tock _ here
  | deliver m => exact here
  | external called => exact absurd rfl (inside _)

/-- It holds of every node in every run. -/
theorem CpuPort.Keeps.run (kept : π.Keeps s I) {cpu : NodeId → π.State} (start : ∀ i, I (cpu i))
    {σ : System F π} (reached : (System.machine F π s).Reachable (System.initial F π s cpu) σ)
    (i : NodeId) : I (σ.cpus i).cpu := by
  refine reached.invariant (I := fun σ => I (σ.cpus i).cpu) (start i) ?_
  intro σ a σ' here _ step
  generalize eq : σ'.cpus i = n
  have moved : System.NodeStep s σ i a n := eq ▸ System.node_step step i
  cases moved with
  | idle => exact here
  | tick ticked => exact kept.nodeTick here ticked
  | tock => exact kept.tock _ here
  | deliver m => exact here
  | external called => exact kept.external _ _ _ _ _ here called

end

/-! ## The caches of an adapter -/

/-- No access to the level below changes how it is set up. -/
theorem access_cfg {c : Option Cache} {req : MemReq} {y} (answer : Below.cache.access c req = some y) :
    y.1.map (·.cfg) = c.map (·.cfg) := by
  cases c with
  | none => cases answer
  | some l2 =>
      cases answer
      exact congrArg some (Cache.access_same (β := .nothing) l2 () req).cfg

namespace CoherenceAdapter

variable {a : CoherenceAdapter} {s : Settings} {i : NodeId} {l1 l2 : Config}

/-- The sink leaves the caches alone. -/
theorem sink_caches (calls : List SinkCall) :
    (a.sink s i calls).1.l1d = a.l1d ∧ (a.sink s i calls).1.l2d = a.l2d := by
  induction calls generalizing a with
  | nil => exact ⟨rfl, rfl⟩
  | cons call rest ih =>
      cases call with
      | onMiss blockAddr op => exact ih (a := a.onMiss s i blockAddr op)
      | onEvict blockAddr dirty => exact ih

/-- What the fill of the L2 makes of it. -/
def filledL2 (a : CoherenceAdapter) (cacheBlock : Nat) : Option Cache :=
  a.l2d.map fun l2 => (l2.fill (β := .nothing) () cacheBlock false).cache

theorem fillL2_caches (cacheBlock : Nat) :
    (a.fillL2 s i cacheBlock).1.l1d = a.l1d ∧
      (a.fillL2 s i cacheBlock).1.l2d = a.filledL2 cacheBlock := by
  unfold fillL2 filledL2
  cases lower : a.l2d with
  | none => exact ⟨rfl, lower⟩
  | some l2 => exact sink_caches _

/-- What a fill makes of the caches. -/
theorem fill_caches (m : Message) :
    let B := toCacheBlock s m.block
    let r := a.l1d.fill (β := .cache) (a.filledL2 B) B (a.pendingStores m.block)
    (a.fill s i m).1.l1d = r.cache.markBlockReady B ∧
      (a.fill s i m).1.l2d = r.below.map (·.markBlockReady B) := by
  unfold fill settle
  simp only
  generalize clear : ({ a with pendingStores := _, cacheInNext := none } : CoherenceAdapter) = a'
  have same : a'.l1d = a.l1d ∧ ∀ B, a'.filledL2 B = a.filledL2 B := by
    subst clear
    exact ⟨rfl, fun _ => rfl⟩
  obtain ⟨upper, lower⟩ := fillL2_caches (a := a') (s := s) (i := i) (toCacheBlock s m.block)
  rw [upper, lower, same.1, same.2]
  obtain ⟨upper', lower'⟩ := sink_caches (s := s) (i := i)
    (a := { (a'.fillL2 s i (toCacheBlock s m.block)).1 with
      l1d := (a.l1d.fill (β := .cache) (a.filledL2 (toCacheBlock s m.block)) (toCacheBlock s m.block)
        (a.pendingStores m.block)).cache
      l2d := (a.l1d.fill (β := .cache) (a.filledL2 (toCacheBlock s m.block)) (toCacheBlock s m.block)
        (a.pendingStores m.block)).below })
    (a.l1d.fill (β := .cache) (a.filledL2 (toCacheBlock s m.block)) (toCacheBlock s m.block)
      (a.pendingStores m.block)).calls
  rw [upper', lower']
  exact ⟨rfl, rfl⟩

theorem drain_fields (slot : Option Message) :
    (a.drain slot).1.l1d = a.l1d ∧ (a.drain slot).1.l2d = a.l2d ∧
      (a.drain slot).1.cacheInNext = a.cacheInNext := by
  unfold drain
  split <;> exact ⟨rfl, rfl, rfl⟩

theorem tick_fills {slot : Option Message} {m : Message} (arrived : a.cacheInNext = some m) :
    (a.tick s i slot).state = ((a.drain slot).1.fill s i m).1 := by
  obtain ⟨-, -, kept⟩ := drain_fields (a := a) slot
  simp only [CoherenceAdapter.tick, kept, arrived]

theorem tick_filled (empty : a.outboundProc = []) (m : Message) :
    (CoherenceAdapter.tick s i { a with cacheInNext := some m } none).state = (a.fill s i m).1 := by
  rw [tick_fills (m := m) rfl]
  simp only [drain, empty, fill]

/-- The caches are set up as wired. -/
structure Wired (s : Settings) (l1 l2 : Config) (a : CoherenceAdapter) : Prop where
  upper : a.l1d.cfg = (wire s l1 l2).l1d.cfg
  lower : a.l2d.map (·.cfg) = (wire s l1 l2).l2d.map (·.cfg)

theorem Wired.upper_shift (wired : a.Wired s l1 l2) : a.l1d.cfg.b = l1.b := by
  rw [wired.upper, wire]
  split <;> rfl

theorem Wired.settle (wired : a.Wired s l1 l2) {r : Cache.Result .cache} (upper : r.cache.cfg = a.l1d.cfg)
    (lower : r.below.map (·.cfg) = a.l2d.map (·.cfg)) : (a.settle s i r).1.Wired s l1 l2 := by
  obtain ⟨l1d, l2d⟩ := sink_caches (s := s) (i := i) (a := { a with l1d := r.cache, l2d := r.below }) r.calls
  refine ⟨?_, ?_⟩
  · rw [CoherenceAdapter.settle, l1d]
    exact upper.trans wired.upper
  · rw [CoherenceAdapter.settle, l2d]
    exact lower.trans wired.lower

theorem same_cfg {c : Option Cache} {f : Cache → Cache} (same : ∀ c, (f c).cfg = c.cfg) :
    (c.map f).map (·.cfg) = c.map (·.cfg) := by
  rw [Option.map_map]
  exact Option.map_congr fun c _ => same c

theorem filledL2_cfg (cacheBlock : Nat) : (a.filledL2 cacheBlock).map (·.cfg) = a.l2d.map (·.cfg) := by
  unfold filledL2
  exact same_cfg fun c => (Cache.fill_same (β := .nothing) false).cfg

theorem Wired.fill (wired : a.Wired s l1 l2) (m : Message) : (a.fill s i m).1.Wired s l1 l2 := by
  obtain ⟨upper, lower⟩ := fill_caches (a := a) (s := s) (i := i) m
  refine ⟨?_, ?_⟩
  · rw [upper]
    exact (Cache.fill_same (β := .cache) _).cfg.trans wired.upper
  · rw [lower]
    apply (same_cfg (f := (·.markBlockReady (toCacheBlock s m.block))) fun _ => rfl).trans
    refine Eq.trans ?_ wired.lower
    exact Cache.fill_below (P := fun c : Option Cache => c.map (·.cfg) = a.l2d.map (·.cfg))
      (fun c req y here answer => (access_cfg answer).trans here) (filledL2_cfg _) _ _

theorem issue_cfg (c : Cache) (below : Option Cache) (req : MemReq) :
    (c.issue (β := .cache) below req).1.cache.cfg = c.cfg := by
  unfold Cache.issue
  simp only
  split
  · rfl
  · split
    · rfl
    · exact (Cache.access_same (β := .cache) c below req).cfg

theorem Wired.tick (wired : a.Wired s l1 l2) (slot : Option Message) :
    (a.tick s i slot).state.Wired s l1 l2 := by
  have drained : (a.drain slot).1.Wired s l1 l2 := by
    unfold drain
    split <;> exact ⟨wired.upper, wired.lower⟩
  unfold CoherenceAdapter.tick
  simp only
  split
  · exact drained
  · exact drained.fill _

theorem Wired.event (wired : a.Wired s l1 l2) (m : Message) : (a.onNtwkEvent s m).Wired s l1 l2 := by
  unfold onNtwkEvent
  simp only
  split
  case h_1 | h_2 =>
    refine ⟨Cache.coherenceInvalidate_same.cfg.trans wired.upper, ?_⟩
    exact (same_cfg fun _ => Cache.coherenceInvalidate_same.cfg).trans wired.lower
  case h_3 =>
    split
    · exact wired
    · refine ⟨(Cache.coherenceMark_same false).cfg.trans wired.upper, ?_⟩
      exact (same_cfg fun _ => (Cache.coherenceMark_same false).cfg).trans wired.lower
  case h_4 => exact wired

theorem Wired.core (wired : a.Wired s l1 l2) (slot : Option Message) (event : CoreEvent) :
    (a.core s i slot event).state.Wired s l1 l2 := by
  cases event with
  | issue req =>
      apply wired.settle (issue_cfg _ _ _)
      exact Cache.issue_below (P := fun c : Option Cache => c.map (·.cfg) = a.l2d.map (·.cfg))
        (fun c req y here answer => (access_cfg answer).trans here) rfl req
  | complete id => exact ⟨wired.upper, wired.lower⟩
  | tick => exact ⟨wired.upper, wired.lower⟩

/-- No call changes how the caches are set up. -/
theorem wired_kept (s : Settings) (l1 l2 : Config) : adapterPort.Keeps s (Wired s l1 l2) where
  tick _ _ slot wired := wired.tick slot
  tock _ wired := wired
  event _ m wired := wired.event m
  deposit _ _ wired := ⟨wired.upper, wired.lower⟩
  external _ _ slot event _ wired called := by
    cases called
    exact wired.core slot event

end CoherenceAdapter

end Coherence
