import MulticoreSim.Coherence.Licences
import MulticoreSim.Coherence.Victims

/-! # Stores over a private L2

A store of a core commits at once where its L1, or a WBWA L1's L2, has the block: the L1
has no sink to ask, and the L2 is asked for a read. Whether the core's agent may write
the block does not come into it: stores are authorized in those runs in which each meets
a core whose request to write the block stands granted.
-/

namespace Memory.Cache

variable {β : Below} {c : Cache} {below : β.State} {B : Nat}

/-! ## Lines that are dirty afterwards -/

theorem holdsDirty_iff (c : Cache) (B : Nat) :
    c.holdsDirty B = true ↔ ∃ line ∈ c.set B, c.isLine B line = true ∧ line.dirty = true := by
  simp [holdsDirty, List.any_eq_true]

theorem holdsDirty_of_row {c' : Cache} (cfg : c'.cfg = c.cfg)
    (row : ∃ line ∈ c'.rows (c.getIndex B), c.isLine B line = true ∧ line.dirty = true) :
    c'.holdsDirty B = true := by
  rw [holdsDirty_iff, set, getIndex_of_cfg cfg, isLine_of_cfg cfg]
  exact row

theorem holdsDirty_place {line : TagMeta} (tag : line.tag = c.getTag B) (valid : line.valid = true)
    (dirty : line.dirty = true) : (c.place B line).holdsDirty B = true := by
  apply holdsDirty_of_row (c := c) (show (c.place B line).cfg = c.cfg from rfl)
  refine ⟨line, ?_, by simp [isLine, tag, valid], dirty⟩
  simp only [place, setRow, Function.update_self]
  split <;> simp

/-- A written line of a WBWA cache lands dirty. -/
theorem holdsDirty_insert (wbwa : c.cfg.writePolicy = .wbwa) :
    (c.insertNewBlock below true B false).cache.holdsDirty B = true := by
  unfold insertNewBlock
  simp only [wbwa]
  have cfg : (if (c.set B).length = c.assoc then c.evictLru below B
      else { cache := c, below }).cache.cfg = c.cfg := by
    split
    · exact evictLru_same.cfg
    · rfl
  exact holdsDirty_place (by simp only [getTag, indexBit, cfg]) rfl rfl

/-- A line that is found and rewritten is in its set, in front. -/
theorem holdsDirty_promote {f : TagMeta → TagMeta} (resident : c.isInCache B = true)
    (tag : ∀ line, c.isLine B (f line) = c.isLine B line) (dirty : ∀ line, (f line).dirty = true) :
    (c.promote B f).holdsDirty B = true := by
  rw [isInCache_eq] at resident
  obtain ⟨line, found⟩ := Option.isSome_iff_exists.mp resident
  apply holdsDirty_of_row (c := c) (promote_cfg c B f)
  refine ⟨f line, ?_, ?_, dirty line⟩
  · simp only [promote, found, setRow, Function.update_self]
    exact List.mem_cons_self
  · rw [tag]
    exact List.find?_some found

theorem holdsDirty_touch (c : Cache) (B : Nat) : (c.promote B id).holdsDirty B = c.holdsDirty B := by
  unfold promote
  split
  · rfl
  · next line found =>
      have row : (c.setRow B (id line :: (c.set B).eraseP (c.isLine B))).set B =
          line :: (c.set B).eraseP (c.isLine B) := Function.update_self ..
      unfold holdsDirty
      rw [row]
      exact ((perm_eraseP found).any_eq).symm

/-! ## Stores -/

/-- A store to block `B` of a cache without a sink, over the lowest level, is through at once and
    leaves a dirty line: a WBWA cache has the block or fetches it, a WTWNA cache has it dirty. No
    latency on the way is the sentinel of a suspended access. -/
def Commits (c lower : Cache) (B : Nat) : Prop :=
  match c.cfg.writePolicy with
  | .wtwna => c.holdsDirty B = true ∧ c.cfg.hitLatency ≠ coherenceSuspendedLatency
  | .wbwa =>
      if c.isInCache B then c.cfg.hitLatency % 2 ^ 32 ≠ coherenceSuspendedLatency
      else
        lower.blockIn (shiftLeft64 B c.cfg.b) = true ∧
          lower.cfg.hitLatency % 2 ^ 32 ≠ coherenceSuspendedLatency ∧
          (c.cfg.hitLatency + lower.cfg.hitLatency % 2 ^ 32) % 2 ^ 32 ≠ coherenceSuspendedLatency

instance (c lower : Cache) (B : Nat) : Decidable (c.Commits lower B) := by
  unfold Commits
  split <;> infer_instance

theorem found_of_blockIn {addr : Nat} (resident : c.blockIn addr = true) :
    (c.set (c.getBlockAddr addr)).find? (c.isLine (c.getBlockAddr addr)) ≠ none := by
  rw [blockIn, isInCache_eq] at resident
  exact Option.isSome_iff_ne_none.mp resident

theorem accessWbwa_read_latency {req : MemReq} (read : req.op.isWrite = false)
    (resident : c.blockIn req.addr = true) :
    (c.accessWbwa below req).2.latency = c.cfg.hitLatency % 2 ^ 32 := by
  unfold accessWbwa
  simp only
  split
  · rw [if_neg (by simp [read])]
    rfl
  · next missing => exact absurd missing (found_of_blockIn resident)

theorem accessWtwna_read_latency {req : MemReq} (read : req.op.isWrite = false)
    (resident : c.blockIn req.addr = true) :
    (c.accessWtwna below req).2.latency = c.cfg.hitLatency % 2 ^ 32 := by
  unfold accessWtwna
  simp only
  rw [if_neg (by simp [read])]
  split
  · rfl
  · next missing => exact absurd missing (found_of_blockIn resident)

/-- A read is answered at once where the lowest level has the block, and else by the sink. -/
theorem access_read_latency (sink : c.cfg.coherenceSink = true) {r : MemReq}
    (read : r.op.isWrite = false) :
    (c.access (β := .nothing) () r).2.latency =
      if c.blockIn r.addr then c.cfg.hitLatency % 2 ^ 32 else coherenceSuspendedLatency := by
  split
  · next resident =>
      unfold access
      simp only
      split
      · exact accessWbwa_read_latency (c := c.bump _) read resident
      · exact accessWtwna_read_latency (c := c.bump _) read resident
  · next missing => exact (missing_asks sink read (by simpa using missing)).2

variable {lower : Cache} {req : MemReq}

/-- A write that misses a WBWA cache and is answered from below at once lands dirty. -/
theorem fetch_answered (wbwa : c.cfg.writePolicy = .wbwa) {op : Op} {below' : β.State}
    {sub : AccessResult} {suspended : Bool} {calls : List SinkCall}
    (answer : β.access below { addr := shiftLeft64 (c.getBlockAddr req.addr) c.cfg.b, pc := req.pc,
                               originatingOp := op, tid := req.tid } =
      some (below', sub, suspended, calls)) :
    ((c.fetch below req true op).2.latency ≠ coherenceSuspendedLatency ∧
        (c.fetch below req true op).1.cache.holdsDirty (c.getBlockAddr req.addr) = true) ↔
      suspended = false ∧ (c.cfg.hitLatency + sub.latency) % 2 ^ 32 ≠ coherenceSuspendedLatency := by
  unfold fetch
  simp only
  rw [answer]
  cases suspended with
  | true => simp
  | false => simp [holdsDirty_insert wbwa]

theorem below_access (lower : Cache) (r : MemReq) : Below.cache.access (some lower) r =
    some (some (lower.access (β := .nothing) () r).1.cache, (lower.access (β := .nothing) () r).2,
      decide ((lower.access (β := .nothing) () r).2.latency = coherenceSuspendedLatency),
      (lower.access (β := .nothing) () r).1.calls) := rfl

/-- A store that misses a WBWA cache fetches the block, and the line lands dirty. -/
theorem fetch_commits (wbwa : c.cfg.writePolicy = .wbwa) (sink : lower.cfg.coherenceSink = true)
    (op : Op) :
    ((c.fetch (β := .cache) (some lower) req true op).2.latency ≠ coherenceSuspendedLatency ∧
        (c.fetch (β := .cache) (some lower) req true op).1.cache.holdsDirty
          (c.getBlockAddr req.addr) = true) ↔
      lower.blockIn (shiftLeft64 (c.getBlockAddr req.addr) c.cfg.b) = true ∧
        lower.cfg.hitLatency % 2 ^ 32 ≠ coherenceSuspendedLatency ∧
        (c.cfg.hitLatency + lower.cfg.hitLatency % 2 ^ 32) % 2 ^ 32 ≠ coherenceSuspendedLatency := by
  have latency := access_read_latency sink (r := { addr := shiftLeft64 (c.getBlockAddr req.addr) c.cfg.b
                                                   pc := req.pc, originatingOp := op, tid := req.tid }) rfl
  refine (fetch_answered (β := .cache) wbwa (below_access _ _)).trans ?_
  rw [latency]
  split
  · next resident => simp [resident]
  · next missing => simp [missing]

theorem accessWbwa_commits (wbwa : c.cfg.writePolicy = .wbwa) (sinkless : c.cfg.coherenceSink = false)
    (sink : lower.cfg.coherenceSink = true) (write : req.op = .write) :
    ((c.accessWbwa (β := .cache) (some lower) req).2.latency ≠ coherenceSuspendedLatency ∧
      (c.accessWbwa (β := .cache) (some lower) req).1.cache.holdsDirty
        (c.getBlockAddr req.addr) = true) ↔
    c.Commits lower (c.getBlockAddr req.addr) := by
  have writes : req.op.isWrite = true := by rw [write]; rfl
  unfold accessWbwa Commits
  simp only [wbwa, isInCache_eq]
  split
  · next line found =>
      rw [if_neg (by simp [sinkless]), found]
      have resident : c.isInCache (c.getBlockAddr req.addr) = true := by
        rw [isInCache_eq, found]
        rfl
      have dirty := holdsDirty_promote (c := c.bump fun st => { st with
          hits := st.hits + 1
          prefetchHits := if line.prefetched then st.prefetchHits + 1 else st.prefetchHits })
        (f := fun l => { l with prefetched := false, dirty := l.dirty || req.op.isWrite }) resident
        (fun _ => rfl) (by simp [writes])
      exact and_iff_left dirty
  · next missing =>
      rw [missing, writes]
      exact fetch_commits (c := c.bump _) wbwa sink _

theorem accessWtwna_commits (wtwna : c.cfg.writePolicy = .wtwna) (write : req.op = .write) :
    ((c.accessWtwna below req).2.latency ≠ coherenceSuspendedLatency ∧
      (c.accessWtwna below req).1.cache.holdsDirty (c.getBlockAddr req.addr) = true) ↔
    c.Commits lower (c.getBlockAddr req.addr) := by
  have writes : req.op.isWrite = true := by rw [write]; rfl
  unfold accessWtwna Commits
  simp only [wtwna, writes, if_true, holdsDirty_touch]
  exact and_comm

theorem store_commits (sinkless : c.cfg.coherenceSink = false)
    (sink : lower.cfg.coherenceSink = true) (write : req.op = .write) :
    ((c.access (β := .cache) (some lower) req).2.latency ≠ coherenceSuspendedLatency ∧
      (c.access (β := .cache) (some lower) req).1.cache.holdsDirty (c.getBlockAddr req.addr) = true) ↔
    c.Commits lower (c.getBlockAddr req.addr) := by
  unfold access
  simp only
  split
  · next wbwa => exact accessWbwa_commits (c := c.bump _) wbwa sinkless sink write
  · next wtwna => exact accessWtwna_commits (c := c.bump _) wtwna write

/-- A store that finds the table full is turned away; another is accessed at once. -/
theorem issue_store (c : Cache) (below : β.State) (write : req.op = .write) :
    ((c.issue below req).2.isSome = true ↔ c.mshr.full = false) ∧
      (c.mshr.full = false → ∀ B,
        (c.issue below req).1.cache.holdsDirty B = (c.access below req).1.cache.holdsDirty B) := by
  have alone : c.mshr.table.find? (fun e => req.op ≠ .write && e.targets (c.getBlockAddr req.addr)) =
      none := List.find?_eq_none.mpr fun e _ => by simp [write]
  unfold issue
  simp only [alone]
  split
  · next full => simp [full]
  · next room => simp [room, holdsDirty, set, isLine, getIndex, getTag, indexBit]

end Memory.Cache

namespace Coherence

open Memory

section

variable {p : Protocol} {s : Settings}

/-- The block that a store of core `i` is for, as its agent has it. -/
def storedBlock (s : Settings) (σ : System p.fsm adapterPort) (i : NodeId) (req : MemReq) : BlockId :=
  toByteBlock s ((CoherenceAdapter.l1d (σ.cpus i).cpu).getBlockAddr req.addr)

/-- The agent of core `i` may write the block that a store of the core is for. -/
def Writable (s : Settings) (σ : System p.fsm adapterPort) (i : NodeId) (req : MemReq) : Prop :=
  (σ.cpus i).agents (storedBlock s σ i req) = p.modified

/-- If the store is taken and does not wait, and its L1 line is then dirty, the agent is in `M`. -/
def Authorized (s : Settings) (σ : System p.fsm adapterPort) (i : NodeId) (req : MemReq) : Prop :=
  let a : CoherenceAdapter := (σ.cpus i).cpu
  (a.l1d.issue (β := .cache) a.l2d req).2.isSome = true →
    (a.l1d.access (β := .cache) a.l2d req).2.latency ≠ coherenceSuspendedLatency →
    (a.core s i (σ.cpus i).cpuInNext (.issue req)).state.l1d.holdsDirty
      (a.l1d.getBlockAddr req.addr) = true →
    Writable s σ i req

/-- A store finds room in the table and its block in one of the caches. -/
def CoherenceAdapter.Finds (a : CoherenceAdapter) (req : MemReq) : Prop :=
  a.l1d.mshr.full = false ∧ ∃ l2 ∈ a.l2d, a.l1d.Commits l2 (a.l1d.getBlockAddr req.addr)

instance CoherenceAdapter.decidableFinds (a : CoherenceAdapter) (req : MemReq) : Decidable (a.Finds req) :=
  decidable_of_iff (a.l1d.mshr.full = false ∧
      (a.l2d.any fun l2 => decide (a.l1d.Commits l2 (a.l1d.getBlockAddr req.addr))) = true)
    (and_congr_right fun _ => by simp [Option.any_eq_true])

theorem CoherenceAdapter.issue_dirty (a : CoherenceAdapter) (i : NodeId) (slot : Option Message)
    {req : MemReq} (write : req.op = .write) (room : a.l1d.mshr.full = false) (B : Nat) :
    (a.core s i slot (.issue req)).state.l1d.holdsDirty B =
      (a.l1d.access (β := .cache) a.l2d req).1.cache.holdsDirty B := by
  obtain ⟨upper, -⟩ := sink_caches (s := s) (i := i)
    (a := { a with
      l1d := (a.l1d.issue (β := .cache) a.l2d req).1.cache
      l2d := (a.l1d.issue (β := .cache) a.l2d req).1.below })
    (a.l1d.issue (β := .cache) a.l2d req).1.calls
  simp only [core, settle]
  rw [upper]
  exact (Cache.issue_store (β := .cache) a.l1d a.l2d write).2 room B

instance (σ : System p.fsm adapterPort) (i : NodeId) (req : MemReq) : Decidable (Writable s σ i req) :=
  inferInstanceAs (Decidable (_ = _))

/-- A store is authorized where it finds no line to write, or its agent is in `M` before. -/
theorem authorized_iff (privateL2 : s.cacheMode = .privateL2) (l1 l2 : Config)
    {σ : System p.fsm adapterPort}
    (reached : (System.machine p.fsm adapterPort s).Reachable (fullMode p.fsm s l1 l2) σ) (i : NodeId)
    {req : MemReq} (write : req.op = .write) :
    Authorized s σ i req ↔ (CoherenceAdapter.Finds (σ.cpus i).cpu req → Writable s σ i req) := by
  obtain ⟨sinkless, bottom⟩ := (discreet_run privateL2 reached i).port
  have wired : CoherenceAdapter.Wired s l1 l2 (σ.cpus i).cpu :=
    (CoherenceAdapter.wired_kept s l1 l2).run (fun _ => ⟨rfl, rfl⟩) reached i
  have lower := wired.lower
  simp only [CoherenceAdapter.wire, privateL2, Option.map_some] at lower
  obtain ⟨c, there, -⟩ := Option.map_eq_some_iff.mp lower
  have commits := Cache.store_commits sinkless (bottom c there).1 write
  have taken := (Cache.issue_store (β := .cache) (CoherenceAdapter.l1d (σ.cpus i).cpu)
    (CoherenceAdapter.l2d (σ.cpus i).cpu) write).1
  unfold Authorized CoherenceAdapter.Finds
  simp only [there] at taken ⊢
  constructor
  · intro authorized finds
    obtain ⟨room, l2, mem, here⟩ := finds
    cases mem
    obtain ⟨quick, dirty⟩ := commits.mpr here
    apply authorized (taken.mpr room) quick
    rw [CoherenceAdapter.issue_dirty _ _ _ write room, there]
    exact dirty
  · intro writable accepted quick dirty
    have room := taken.mp accepted
    rw [CoherenceAdapter.issue_dirty _ _ _ write room, there] at dirty
    exact writable ⟨room, c, rfl, commits.mp ⟨quick, dirty⟩⟩

/-- An action that, if it is a store of a core, meets `ok`. -/
def AtStores (ok : NodeId → MemReq → Prop) : Action adapterPort → Prop
  | .external i (.issue req) => req.op = .write → ok i req
  | _ => True

theorem AtStores.mono {ok ok' : NodeId → MemReq → Prop}
    (weaker : ∀ i req, req.op = .write → ok i req → ok' i req) {a : Action adapterPort}
    (stores : AtStores ok a) : AtStores ok' a := by
  cases a with
  | external i event =>
      cases event with
      | issue req => exact fun write => weaker i req write (stores write)
      | complete | tick => trivial
  | tick | tock | deliver | dirTick | dirTock | dirDeliver => trivial

instance (ok : NodeId → MemReq → Prop) [∀ i req, Decidable (ok i req)] (a : Action adapterPort) :
    Decidable (AtStores ok a) :=
  match a with
  | .external i (.issue req) => inferInstanceAs (Decidable (req.op = .write → ok i req))
  | .external _ (.complete _) | .external _ .tick | .tick _ | .tock _ | .deliver _ | .dirTick | .dirTock
  | .dirDeliver _ => isTrue trivial

/-- The store finds no line to write, or the core's latest request to write the block has been
    granted and no order has taken the block back since. -/
def Licensed (s : Settings) (x : System p.fsm adapterPort × Licences) (i : NodeId) (req : MemReq) :
    Prop :=
  CoherenceAdapter.Finds (x.1.cpus i).cpu req → x.2 i (storedBlock s x.1 i req) = .granted

instance (x : System p.fsm adapterPort × Licences) (i : NodeId) (req : MemReq) :
    Decidable (Licensed s x i req) :=
  inferInstanceAs (Decidable (CoherenceAdapter.Finds (show CoherenceAdapter from (x.1.cpus i).cpu) req →
    x.2 i (storedBlock s x.1 i req) = .granted))

/-- Along a run with its notes, a store is authorized where it is licensed. -/
theorem authorized_licensed (privateL2 : s.cacheMode = .privateL2) (l1 l2 : Config)
    {ok : System p.fsm adapterPort × Licences → Action adapterPort → Prop}
    {x : System p.fsm adapterPort × Licences}
    (run : ((System.machine p.fsm adapterPort s).recording System.licences).Run ok
      (fullMode p.fsm s l1 l2, fun _ _ => .none) x) (i : NodeId) {req : MemReq}
    (write : req.op = .write) : Authorized s x.1 i req ↔ Licensed s x i req := by
  have reached : (System.machine p.fsm adapterPort s).Reachable (fullMode p.fsm s l1 l2) x.1 :=
    (Machine.recorded_iff System.licences _).mpr ⟨x.2, run.reachable⟩
  have told := licences_run adapter_laws run i (storedBlock s x.1 i req)
  rw [authorized_iff privateL2 l1 l2 reached i write, Licensed, told, licence_granted]
  rfl

/-- Over a private L2 the runs in which every store is authorized are those whose messages license
    every store that finds a line to write. -/
theorem stores_authorized_iff (p : Protocol) {s : Settings} (privateL2 : s.cacheMode = .privateL2)
    (l1 l2 : Config) (σ : System p.fsm adapterPort) :
    (System.machine p.fsm adapterPort s).Run (fun σ => AtStores (Authorized s σ))
        (fullMode p.fsm s l1 l2) σ ↔
      ∃ told, ((System.machine p.fsm adapterPort s).recording System.licences).Run
        (fun x => AtStores (Licensed s x)) (fullMode p.fsm s l1 l2, fun _ _ => .none) (σ, told) := by
  rw [Machine.recorded_iff System.licences fun _ _ => .none]
  apply exists_congr
  intro told
  constructor
  · intro run
    exact run.mono_under (fun _ before => before) fun _ _ before =>
      AtStores.mono fun i _ write => (authorized_licensed privateL2 l1 l2 before i write).mp
  · intro run
    exact run.mono_under (fun _ before => before) fun _ _ before =>
      AtStores.mono fun i _ write => (authorized_licensed privateL2 l1 l2 before i write).mpr

end

/-! ### A store to a line that is only shared -/

def sharedSettings : Settings := { protocol := .MSI, numProcs := 1, memLatency := 1 }

/-- A core that has loaded a block. -/
def loaded : System (Protocol.fsm .MSI) adapterPort :=
  (System.machine _ adapterPort sharedSettings).attempt (fullMode _ sharedSettings {} {})
    ([load 0 0] ++ cycles 1 8 ++ [done 0 1])

def storeToLoaded : MemReq := { addr := 0, op := .write, originatingOp := .write }

/-- The agent is in `S` and not asked: the store is through at once. -/
theorem store_to_shared :
    (System.machine _ adapterPort sharedSettings).Run (Driven sharedSettings)
        (fullMode _ sharedSettings {} {}) loaded ∧
      Driven sharedSettings loaded (.external 0 (.issue storeToLoaded)) ∧
      ¬ Authorized sharedSettings loaded 0 storeToLoaded := by
  refine ⟨Machine.run_attempt _ (by decide +kernel), by decide +kernel, fun authorized => ?_⟩
  have writable := authorized (by decide +kernel) (by decide +kernel) (by decide +kernel)
  have shared : ¬ Writable sharedSettings loaded 0 storeToLoaded := by decide +kernel
  exact shared writable

/-- A core that stores, and once its store is through stores again. -/
def storing : List (Action adapterPort) := [store 0 0] ++ cycles 1 8 ++ [done 0 1, store 0 0]

theorem stores_authorized_here :
    (System.machine (Protocol.fsm .MSI) adapterPort sharedSettings).Run
      (fun σ => AtStores (Authorized sharedSettings σ)) (fullMode _ sharedSettings {} {})
      (((System.machine _ adapterPort sharedSettings).recording System.licences).attempt
        (fullMode _ sharedSettings {} {}, fun _ _ => .none) storing).1 :=
  (stores_authorized_iff .MSI rfl {} {} _).mpr ⟨_, Machine.recorded_attempt (by decide +kernel)⟩

end Coherence
