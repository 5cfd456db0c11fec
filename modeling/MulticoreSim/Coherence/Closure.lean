import MulticoreSim.Coherence.Answers
import MulticoreSim.Coherence.ExclusiveGrants
import MulticoreSim.Coherence.Requests

/-! # Closure of the protocols in full mode

Which messages of the directory's queue lead to an agent that throws: in every
run in which none of them is taken up, no message from the network finds an
agent without an answer, and neither does the directory.
-/

namespace Coherence

open DirectoryProtocol

variable {F : ProtocolFsm} {π : CpuPort} {s : Settings} {σ : System F π}

/-! ## Throws -/

namespace System

/-- What the step throws. -/
def thrown (s : Settings) (σ : System F π) (a : Action π) : Option String :=
  match σ.step s a with
  | .error (.throws what) => some what
  | _ => none

/-- No agent throws on what its node's port hands it next. -/
def ProcAnswered (s : Settings) (σ : System F π) : Prop :=
  ∀ i < s.numProcs, ∀ st,
    ∃ x, ((σ.cpus i).portStep ((σ.cpus i).called s i)).tickProc s i st = .ok x

theorem thrown_step {a : Action π} {what : String} (thrown : σ.thrown s a = some what) :
    σ.step s a = .error (.throws what) := by
  unfold System.thrown at thrown
  split at thrown
  · next stepped => rw [stepped, Option.some.inj thrown]
  · cases thrown

theorem tick_threw {i : NodeId} {what : String} (thrown : σ.thrown s (.tick i) = some what) :
    i < s.numProcs ∧ (σ.cpus i).tick s i σ.stats = .error what := by
  have threw := thrown_step thrown
  simp only [step] at threw
  split at threw
  · next here =>
      split at threw
      · next result =>
          cases threw
          exact ⟨here.1, result⟩
      · cases threw
  · cases threw

theorem dirTick_threw {what : String} (thrown : σ.thrown s .dirTick = some what) :
    tickDir F s σ.dir σ.clock σ.stats = .error what := by
  have threw := thrown_step thrown
  simp only [step] at threw
  split at threw
  · split at threw
    · next result =>
        cases threw
        exact result
    · cases threw
  · cases threw

/-- A tick does not throw where both its halves find their answers. -/
theorem not_threw {i : NodeId} (bound : i < s.numProcs) {n : CpuNode F π} {st st' : CoherenceStats}
    (proc : ((σ.cpus i).portStep ((σ.cpus i).called s i)).tickProc s i
      (((σ.cpus i).called s i).stats st) = .ok (n, st'))
    (ntwk : σ.NtwkAnswered s) (what : String) : (σ.cpus i).tick s i st ≠ .error what := by
  obtain ⟨x, second⟩ := ntwk i bound n _ _ proc
  intro threw
  unfold CpuNode.tick at threw
  simp only [CpuNode.called] at proc
  simp only [proc, second] at threw
  cases threw

/-- A throw that neither the network nor the directory accounts for comes from a node's
    own port. -/
theorem thrown_proc {a : Action π} {what : String} (thrown : σ.thrown s a = some what)
    (ntwk : σ.NtwkAnswered s) (dir : σ.DirAnswered s) : ¬ σ.ProcAnswered s := by
  intro proc
  cases a with
  | tick i =>
      obtain ⟨bound, threw⟩ := tick_threw thrown
      obtain ⟨⟨n, st⟩, first⟩ := proc i bound (((σ.cpus i).called s i).stats σ.stats)
      exact not_threw bound first ntwk what threw
  | dirTick =>
      obtain ⟨x, answered⟩ := dir σ.clock σ.stats
      cases (dirTick_threw thrown).symm.trans answered
  | tock i | deliver i | external i event | dirTock | dirDeliver src =>
      have threw := thrown_step thrown
      simp only [step] at threw
      split at threw <;> first | cases threw | (split at threw <;> cases threw)

/-- A throw of a node whose agents have no request to look at is one on a message from
    the network. -/
theorem thrown_ntwk {i : NodeId} {what : String} (thrown : σ.thrown s (.tick i) = some what)
    (quiet : (σ.cpus i).cpuIn = none) : ¬ σ.NtwkAnswered s := by
  obtain ⟨bound, threw⟩ := tick_threw thrown
  have idle (n : CpuNode F π) (st : CoherenceStats) (quiet : n.cpuIn = none) :
      n.tickProc s i st = .ok (n, st) := by
    simp only [CpuNode.tickProc, quiet]
  exact fun ntwk => not_threw bound (idle _ _ quiet) ntwk what threw

end System

/-! ## Guarded runs -/

/-- What the directory takes up meets `P`. -/
def Heedful (P : System F π → Message → Prop) (σ : System F π) : Action π → Prop
  | .dirTick => ∀ r, σ.TakesUp r → P σ r
  | _ => True

instance (P : System F π → Message → Prop) [∀ σ r, Decidable (P σ r)] (σ : System F π)
    (a : Action π) : Decidable (Heedful P σ a) := by
  cases a with
  | dirTick =>
      refine decidable_of_iff
        (σ.dir.requestInProgress = false → ∀ r ∈ σ.dir.requestQueue.head?, P σ r) ?_
      exact ⟨fun meets r taken => meets taken.1 r taken.2, fun meets free r head => meets r ⟨free, head⟩⟩
  | tick i | tock i | deliver i | external i event | dirTock | dirDeliver src => exact isTrue trivial

/-- Where everything taken up leaves the directory careful, every message finds an answer. -/
theorem heedful_run {P : System F π → Message → Prop} {L : Laws F} {strict : Prop}
    (laws : PortLaws π fun _ _ => False) (small : s.numProcs ≤ kMaxSharers) (data : TakesData L strict)
    (upgrades : strict → L.profile.clean = false)
    (careful : ∀ σ lines r, Shows L (fun _ _ => False) s σ lines → σ.TakesUp r → P σ r →
      Careful L strict σ r) {cpu : NodeId → π.State}
    (run : (System.machine F π s).Run (Heedful P) (System.initial F π s cpu) σ) :
    σ.NtwkAnswered s ∧ σ.DirAnswered s := by
  refine answered_run laws small data upgrades ?_ run
  rintro σ lines a shows heedful rfl r taken
  exact careful σ lines r shows taken (heedful r taken)

section

variable {R : π.State → BlockId → Prop} {L : Laws F} {lines : BlockId → Block NodeId} {r : Message}

theorem Shows.asked (shows : Shows L R s σ lines) (small : s.numProcs ≤ kMaxSharers)
    (taken : σ.TakesUp r) {q : Request} (kind : r.kind = requestKind q) :
    (lines r.block).Asks r.src q := by
  obtain ⟨rest, free, queue⟩ := taken.queue
  exact ((shows.abs r.block).meets shows.net small free queue).asked kind

/-- The sender of a GETX that is taken up waits to write. -/
theorem Shows.upgrader (shows : Shows L R s σ lines) (small : s.numProcs ≤ kMaxSharers)
    (taken : σ.TakesUp r) (getx : r.kind = .getx) :
    (L.view ((σ.cpus r.src).agents r.block)).want = .write := by
  have asked := shows.asked small taken (q := .upgrade) getx
  rw [(shows.abs r.block).view]
  exact ((shows.abs r.block).inv.slots _).asked .upgrade asked

/-- Only a protocol with clean exclusive copies sees a GETX. -/
theorem Shows.no_upgrade (shows : Shows L R s σ lines) (small : s.numProcs ≤ kMaxSharers)
    (taken : σ.TakesUp r) (dirty : L.profile.clean = false) : r.kind ≠ .getx := by
  intro getx
  have asked := shows.asked small taken (q := .upgrade) getx
  have clean := ((shows.abs r.block).within.slot r.src).asked .upgrade asked
  cases dirty.symm.trans clean

end

/-! ## MOESIF -/

/-- A GETX meets an entry in F that names another node: the F node is sent an
    invalidation. -/
def MeetsForwarder (e : DirEntry) (r : Message) : Prop :=
  e.state = .F ∧ r.kind = .getx ∧ r.src ≠ e.oFId

instance (e : DirEntry) (r : Message) : Decidable (MeetsForwarder e r) := by
  unfold MeetsForwarder
  infer_instance

/-- What MOESIF must not take up: a GETX that meets a foreign forwarder, or one that
    meets E for another node when its sender has lost its copy. -/
def MoesifStray (σ : System moesif π) (r : Message) : Prop :=
  MeetsForwarder (σ.dir.directory r.block) r ∨
    Wild (σ.dir.directory r.block) r ∧ @Eq MoesifState ((σ.cpus r.src).agents r.block) .IM

instance (σ : System moesif π) (r : Message) : Decidable (MoesifStray σ r) := by
  have : Decidable (@Eq MoesifState ((σ.cpus r.src).agents r.block) .IM) :=
    instDecidableEqMoesifState _ _
  unfold MoesifStray
  infer_instance

theorem MoesifState.eq_IM {a : MoesifState} (write : a.view.want = .write)
    (empty : a.view.right = .none) : a = .IM := by
  cases a <;> simp_all [MoesifState.view]

/-- In every full-mode run of MOESIF that takes up no stray GETX, no message finds an
    agent, or the directory, without an answer. -/
theorem moesif_closure (s : Settings) (small : s.numProcs ≤ kMaxSharers) (l1 l2 : Memory.Config) :
    ∀ σ, (System.machine moesif adapterPort s).Run (Heedful fun σ r => ¬ MoesifStray σ r)
        (fullMode moesif s l1 l2) σ →
      σ.NtwkAnswered s ∧ σ.DirAnswered s := by
  intro σ run
  refine heedful_run (L := moesifNetwork) adapter_laws small moesif_takesData
    False.elim ?_ run
  intro σ lines r shows taken known
  refine ⟨fun state getx => ?_, fun wild none => ?_, False.elim⟩
  · by_contra foreign
    exact known (.inl ⟨state, getx, foreign⟩)
  · have write := shows.upgrader small taken wild.2.1
    exact known (.inr ⟨wild, MoesifState.eq_IM write none⟩)

def forwarderSettings : Settings :=
  { protocol := .MOESIF, numProcs := 3, memLatency := 1, cacheMode := .sharedLls }

/-- Core 0 loads a block, loses it to another, core 1 and core 2 load it. -/
def forwarderRun : List (Action adapterPort) :=
  [load 0 0] ++ cycles 3 6 ++ [load 0 128] ++ cycles 3 6 ++ [load 1 0] ++ cycles 3 6 ++
    [load 2 0] ++ cycles 3 10

def forwarder : System moesif adapterPort :=
  (System.machine moesif adapterPort forwarderSettings).attempt
    (fullMode moesif forwarderSettings tinyL1 {}) forwarderRun

theorem moesif_closure_forwarder :
    forwarder.NtwkAnswered forwarderSettings ∧ forwarder.DirAnswered forwarderSettings :=
  moesif_closure forwarderSettings (by decide) tinyL1 {} forwarder
    (Machine.run_attempt _ (by decide +kernel))

/-- As `forwarder`, and core 0 stores to the block; core 1 holds it in F when the
    invalidation comes. -/
def invalidatedForwarder : System moesif adapterPort :=
  (System.machine moesif adapterPort forwarderSettings).attempt
    (fullMode moesif forwarderSettings tinyL1 {})
    (forwarderRun ++ [store 0 0] ++ cycles 3 5 ++ [.tick 0, .deliver 0])

/-- An F agent throws on the invalidation that a stale E agent's GETX brings on. -/
theorem moesif_not_closed :
    ∃ σ, (System.machine moesif adapterPort forwarderSettings).Reachable
        (fullMode moesif forwarderSettings tinyL1 {}) σ ∧
      σ.thrown forwarderSettings (.tick 1) =
        some "MOESIF: F state shouldn't see ntwk message: REQ_INVALID" ∧
      ¬ (σ.NtwkAnswered forwarderSettings ∧ σ.DirAnswered forwarderSettings) := by
  obtain ⟨threw, quiet⟩ : invalidatedForwarder.thrown forwarderSettings (.tick 1) =
      some "MOESIF: F state shouldn't see ntwk message: REQ_INVALID" ∧
        (invalidatedForwarder.cpus 1).cpuIn = none := by decide +kernel
  exact ⟨invalidatedForwarder, Machine.reachable_attempt _ _, threw,
    fun answered => System.thrown_ntwk threw quiet answered.1⟩

/-! ## MOSI -/

/-- What MOSI must not take up: a GETM of an owner that the entry has forgotten. -/
def MosiStray (σ : System mosi π) (r : Message) : Prop :=
  r.kind = .getm ∧ @Eq MosiState ((σ.cpus r.src).agents r.block) .OM ∧
    (σ.dir.directory r.block).presence r.src = false

instance (σ : System mosi π) (r : Message) : Decidable (MosiStray σ r) := by
  have : Decidable (@Eq MosiState ((σ.cpus r.src).agents r.block) .OM) :=
    instDecidableEqMosiState _ _
  unfold MosiStray
  infer_instance

theorem MosiState.eq_OM {a : MosiState} (write : a.view.want = .write)
    (owned : a.view.right = .owned) : a = .OM := by
  cases a <;> simp_all [MosiState.view]

/-- In every full-mode run of MOSI that takes up no GETM of a forgotten owner, no message
    finds an agent, or the directory, without an answer. -/
theorem mosi_closure (s : Settings) (small : s.numProcs ≤ kMaxSharers) (l1 l2 : Memory.Config) :
    ∀ σ, (System.machine mosi adapterPort s).Run (Heedful fun σ r => ¬ MosiStray σ r)
        (fullMode mosi s l1 l2) σ →
      σ.NtwkAnswered s ∧ σ.DirAnswered s := by
  intro σ run
  refine heedful_run (L := mosiNetwork) adapter_laws small mosi_takesData
    (fun _ => rfl) ?_ run
  intro σ lines r shows taken known
  have plain := shows.no_upgrade small taken rfl
  refine ⟨fun _ getx => absurd getx plain, fun wild => absurd wild.2.1 plain, ?_⟩
  intro _ getm write owned
  by_contra absent
  exact known ⟨getm, MosiState.eq_OM write owned, by simpa using absent⟩

def forgetfulSettings : Settings :=
  { protocol := .MOSI, numProcs := 2, memLatency := 1, cacheMode := .sharedLls }

/-- Core 0 stores to a block, core 1 loads it, core 0 loses it to another. -/
def forgottenOwnerRun : List (Action adapterPort) :=
  [store 0 0] ++ cycles 2 8 ++ [load 1 0] ++ cycles 2 12 ++ [load 0 128] ++ cycles 2 8

def forgottenOwner : System mosi adapterPort :=
  (System.machine mosi adapterPort forgetfulSettings).attempt
    (fullMode mosi forgetfulSettings tinyL1 {}) forgottenOwnerRun

theorem mosi_closure_forgotten_owner :
    forgottenOwner.NtwkAnswered forgetfulSettings ∧ forgottenOwner.DirAnswered forgetfulSettings :=
  mosi_closure forgetfulSettings (by decide) tinyL1 {} forgottenOwner
    (Machine.run_attempt _ (by decide +kernel))

/-- As `forgottenOwner`, and core 0 stores to the block again: its agent waits in OM when
    data comes from memory. -/
def answeredOwner : System mosi adapterPort :=
  (System.machine mosi adapterPort forgetfulSettings).attempt
    (fullMode mosi forgetfulSettings tinyL1 {})
    (forgottenOwnerRun ++ [store 0 0] ++ cycles 2 10)

/-- An OM agent throws on the data that memory sends a forgotten owner. -/
theorem mosi_not_closed :
    ∃ σ, (System.machine mosi adapterPort forgetfulSettings).Reachable
        (fullMode mosi forgetfulSettings tinyL1 {}) σ ∧
      σ.thrown forgetfulSettings (.tick 0) =
        some "MOSI: OM state shouldn't see ntwk message: DATA" ∧
      ¬ (σ.NtwkAnswered forgetfulSettings ∧ σ.DirAnswered forgetfulSettings) := by
  obtain ⟨threw, quiet⟩ : answeredOwner.thrown forgetfulSettings (.tick 0) =
      some "MOSI: OM state shouldn't see ntwk message: DATA" ∧
        (answeredOwner.cpus 0).cpuIn = none := by decide +kernel
  exact ⟨answeredOwner, Machine.reachable_attempt _ _, threw,
    fun answered => System.thrown_ntwk threw quiet answered.1⟩

/-! ## MI, MSI and MESI -/

/-- What MESI must not take up: a GETX that meets E for another node when its sender has
    lost its copy. -/
def MesiStray (σ : System mesi π) (r : Message) : Prop :=
  Wild (σ.dir.directory r.block) r ∧ @Eq MesiState ((σ.cpus r.src).agents r.block) .IM

instance (σ : System mesi π) (r : Message) : Decidable (MesiStray σ r) := by
  have : Decidable (@Eq MesiState ((σ.cpus r.src).agents r.block) .IM) :=
    instDecidableEqMesiState _ _
  unfold MesiStray
  infer_instance

theorem MesiState.eq_IM {a : MesiState} (write : a.view.want = .write)
    (empty : a.view.right = .none) : a = .IM := by
  cases a <;> simp_all [MesiState.view]

/-- A protocol without owners has no entry in F. -/
theorem Shows.not_forwarded {R : π.State → BlockId → Prop} {L : Laws F}
    {lines : BlockId → Block NodeId} (shows : Shows L R s σ lines)
    (lone : L.profile.owners = false) (b : BlockId) : (σ.dir.directory b).state ≠ .F := by
  intro state
  have stands := (shows.abs b).entry.stands
  have within := (shows.abs b).within.mode
  rw [state] at stands
  cases mode : (lines b).mode with
  | owned owner c =>
      simp only [mode, Profile.Mode] at within
      cases lone.symm.trans within.1
  | exclusive holder c | reclaim owner requester c recalled | forward owner requester c =>
      cases c <;> simp [mode, Stands] at stands
  | idle | shared | takeover holder requester | downgrade holder requester | invalidate requester =>
      simp [mode, Stands] at stands

/-- Where everything taken up leaves the directory careful and every core is driven,
    nothing throws. -/
theorem closed_run {P : System F adapterPort → Message → Prop} {L : Laws F} (small : s.numProcs ≤ kMaxSharers)
    (shared : s.cacheMode = .sharedLls) (data : TakesData L False)
    (careful : ∀ σ lines r, Shows L (fun _ _ => False) s σ lines → σ.TakesUp r → P σ r →
      Careful L False σ r) {l1 l2 : Memory.Config} {σ : System F adapterPort}
    (run : (System.machine F adapterPort s).Run (fun σ a => Driven s σ a ∧ Heedful P σ a)
      (fullMode F s l1 l2) σ) (a : Action adapterPort) : σ.thrown s a = none := by
  obtain ⟨ntwk, dir⟩ := heedful_run adapter_laws small data False.elim careful
    (run.mono fun _ _ meets => meets.2)
  have proc := procAnswered_run L.toAgentLaws shared (fun _ _ meets => meets.1) run
  cases thrown : σ.thrown s a with
  | none => rfl
  | some what => exact absurd (fun i _ st => proc i st) (System.thrown_proc thrown ntwk dir)

/-- As `closed_run`, for a protocol that sees no GETX: its directory need not be careful. -/
theorem closed_run_of_dirty {L : Laws F} (small : s.numProcs ≤ kMaxSharers)
    (shared : s.cacheMode = .sharedLls) (data : TakesData L False) (dirty : L.profile.clean = false)
    {l1 l2 : Memory.Config} {σ : System F adapterPort}
    (run : (System.machine F adapterPort s).Run (Driven s) (fullMode F s l1 l2) σ)
    (a : Action adapterPort) : σ.thrown s a = none := by
  refine closed_run (P := fun _ _ => True) small shared data ?_ (run.mono fun σ a driven => ⟨driven, ?_⟩) a
  · intro σ lines r shows taken _
    have plain := shows.no_upgrade small taken dirty
    exact ⟨fun _ getx => absurd getx plain, fun wild => absurd wild.2.1 plain, False.elim⟩
  · cases a with
    | dirTick => exact fun _ _ => trivial
    | tick i | tock i | deliver i | external i event | dirTock | dirDeliver src => trivial

/-- In every shared_lls run of MI and of MSI whose cores use their L1 as their load-store
    units do, nothing throws; nor in one of MESI that takes up no stray GETX. -/
theorem mi_msi_mesi_closure (s : Settings) (small : s.numProcs ≤ kMaxSharers)
    (shared : s.cacheMode = .sharedLls) (l1 l2 : Memory.Config) :
    (∀ σ, (System.machine mi adapterPort s).Run (Driven s) (fullMode mi s l1 l2) σ →
        ∀ a, σ.thrown s a = none) ∧
      (∀ σ, (System.machine msi adapterPort s).Run (Driven s) (fullMode msi s l1 l2) σ →
        ∀ a, σ.thrown s a = none) ∧
      ∀ σ, (System.machine mesi adapterPort s).Run
          (fun σ a => Driven s σ a ∧ Heedful (fun σ r => ¬ MesiStray σ r) σ a)
          (fullMode mesi s l1 l2) σ →
        ∀ a, σ.thrown s a = none := by
  refine ⟨fun σ => closed_run_of_dirty (L := miNetwork) small shared mi_takesData rfl,
    fun σ => closed_run_of_dirty (L := msiNetwork) small shared msi_takesData rfl, fun σ run => ?_⟩
  refine closed_run (L := mesiNetwork) small shared mesi_takesData ?_ run
  intro σ lines r shows taken known
  refine ⟨fun state => absurd state (shows.not_forwarded rfl _), fun wild empty => ?_, False.elim⟩
  exact known ⟨wild, MesiState.eq_IM (shows.upgrader small taken wild.2.1) empty⟩

def recalledSettings : Settings :=
  { protocol := .MESI, numProcs := 4, memLatency := 1, cacheMode := .sharedLls }

/-- `k` cycles of four cores in which messages reach only these nodes, and come in only
    from those. -/
def recalledCycles (k : Nat) (down up : List NodeId) : List (Action adapterPort) :=
  (List.replicate k (paced 4 down up)).flatten

/-- Core 1 loads a block, core 2 loads it, both lose it to another; core 1 loads it again,
    which its agent answers, and core 0 loads it: the entry is in E for core 0. -/
def staleSharer : List (Action adapterPort) :=
  [load 1 0] ++ recalledCycles 8 [1] [1] ++ [done 1 1, load 2 0] ++ recalledCycles 12 [1, 2] [1, 2] ++
    [done 2 1, load 1 128] ++ recalledCycles 10 [1] [1] ++ [done 1 2, load 2 128] ++
    recalledCycles 14 [1, 2] [1, 2] ++ [done 2 2, load 1 0] ++ recalledCycles 4 [1] [1] ++
    [done 1 3, load 0 0] ++ recalledCycles 8 [0] [0] ++ [done 0 1]

theorem mi_msi_mesi_closure_stale_sharer :
    ((System.machine mesi adapterPort recalledSettings).attempt
      (fullMode mesi recalledSettings tinyL1 {}) staleSharer).thrown recalledSettings .dirTick = none :=
  (mi_msi_mesi_closure recalledSettings (by decide) rfl tinyL1 {}).2.2 _
    (Machine.run_attempt _ (by decide +kernel)) .dirTick

/-- Core 3's load is taken up before core 0's GETX and core 1's eviction notice, which are
    put back until core 1 has sent a GETM. -/
def overtakenUpgrade : List (Action adapterPort) :=
  [load 3 0] ++ recalledCycles 4 [] [3] ++ [store 0 0, load 1 128] ++ recalledCycles 4 [] [0, 1] ++
    [done 1 4, store 1 0] ++ recalledCycles 3 [0] [] ++ recalledCycles 1 [] [0, 1] ++
    recalledCycles 8 [0, 3] [3] ++ [done 3 1, load 3 0] ++ recalledCycles 4 [] []

/-- The invalidation that ends the round of the GETM finds the eviction notice, core 3's
    next load and the GETX behind it, in this order. -/
def recalledUpgrade : System mesi adapterPort :=
  (System.machine mesi adapterPort recalledSettings).attempt
    (fullMode mesi recalledSettings tinyL1 {})
    (staleSharer ++ overtakenUpgrade ++ recalledCycles 1 [] [3] ++ recalledCycles 1 [] [0] ++
      recalledCycles 9 [] [] ++ recalledCycles 1 [0] [])

/-- An IM agent throws on the acknowledgement that its GETX gets as an E agent's. -/
theorem mesi_not_closed :
    ∃ σ, (System.machine mesi adapterPort recalledSettings).Run (Driven recalledSettings)
        (fullMode mesi recalledSettings tinyL1 {}) σ ∧
      σ.thrown recalledSettings (.tick 0) =
        some "MESI: IM state shouldn't see ntwk message: ACK" :=
  ⟨recalledUpgrade, Machine.run_attempt _ (by decide +kernel), by decide +kernel⟩

end Coherence
