import MulticoreSim.Coherence.Inclusion
import MulticoreSim.Coherence.StoreRights

/-! # One writer

An agent lets go of the state in which its line may be dirty only by an order that
cleans the line or takes it away. So where lines get dirty only under such a state, a
dirty line is the only copy of its block, or that of an owner which others may read
along with.
-/

namespace Coherence

open DirectoryProtocol Memory

/-! ## States of a dirty line -/

def MosiState.owner : MosiState → Bool
  | .O | .OM => true
  | _ => false

def MoesifState.owner : MoesifState → Bool
  | .O | .OM => true
  | _ => false

/-- The states of an agent whose line others may read while it is dirty. -/
def Protocol.owner : (p : Protocol) → p.fsm.AgentState → Bool
  | .MI | .MSI | .MESI => fun _ => false
  | .MOSI => MosiState.owner
  | .MOESIF => MoesifState.owner

section

variable {p : Protocol}

/-- The line of an agent in this state may be dirty. -/
def Soils (a : p.fsm.AgentState) : Prop := a = p.modified ∨ p.owner a = true

theorem Soils.proc {a : p.fsm.AgentState} {k : MessageKind} {t : AgentStep p.fsm.AgentState}
    (soils : Soils a) (answer : p.fsm.processProcRequest a k = .ok t) : Soils t.state := by
  rcases soils with rfl | owner
  · cases p <;> cases k <;> cases answer <;> exact .inl rfl
  · cases p with
    | MI | MSI | MESI => cases owner
    | MOSI | MOESIF => cases a <;> cases owner <;> cases k <;> cases answer <;> exact .inr rfl

/-- Only a recall ends it. -/
theorem Soils.ntwk {a : p.fsm.AgentState} {k : MessageKind} {t : AgentStep p.fsm.AgentState}
    (soils : Soils a) (answer : p.fsm.processNtwkRequest a k = .ok t) :
    Soils t.state ∨ k = .recallGotoI ∨ k = .recallGotoS ∧ p.laws.profile.owners = false := by
  rcases soils with rfl | owner
  · cases p <;> cases k <;> cases answer <;>
      first
      | exact .inr (.inl rfl)
      | exact .inr (.inr ⟨rfl, rfl⟩)
      | exact .inl (.inr rfl)
  · cases p with
    | MI | MSI | MESI => cases owner
    | MOSI | MOESIF =>
        cases a <;> cases owner <;> cases k <;> cases answer <;>
          first
          | exact .inr (.inl rfl)
          | exact .inl (.inr rfl)
          | exact .inl (.inl rfl)

theorem exclusive_of_modified : (p.laws.view p.modified).right = .exclusive := by
  cases p <;> rfl

end

/-! ## What the calls leave dirty -/

namespace CoherenceAdapter

variable {a : CoherenceAdapter} {s : Settings} {i : NodeId} {B : Nat}

theorem isDirty_of_tick {slot : Option Message} (dirty : (a.tick s i slot).state.l1d.isDirty B = true) :
    a.l1d.isDirty B = true ∨
      ∃ m ∈ a.cacheInNext, B = toCacheBlock s m.block ∧ a.pendingStores m.block = true := by
  obtain ⟨upper, lower, waits⟩ := drain_fields (a := a) slot
  cases arrived : a.cacheInNext with
  | none =>
      have idle : (a.tick s i slot).state = (a.drain slot).1 := by
        simp only [tick, waits, arrived]
      rw [idle, upper] at dirty
      exact .inl dirty
  | some m =>
      have pending : (a.drain slot).1.pendingStores = a.pendingStores := by
        unfold drain
        split <;> rfl
      obtain ⟨filled, -⟩ := fill_caches (a := (a.drain slot).1) (s := s) (i := i) m
      rw [tick_fills arrived, filled, upper, pending] at dirty
      have dirty : (a.l1d.fill (β := .cache) ((a.drain slot).1.filledL2 (toCacheBlock s m.block))
          (toCacheBlock s m.block) (a.pendingStores m.block)).cache.isDirty B = true := dirty
      by_cases eq : B = toCacheBlock s m.block
      · cases written : a.pendingStores m.block with
        | true => exact .inr ⟨m, rfl, eq, written⟩
        | false =>
            rw [written] at dirty
            exact .inl (Cache.isDirty_fill dirty)
      · exact .inl ((Cache.fades_fill _ _ _ eq).dirty dirty)

/-- What an order leaves dirty: not the line it is about, if it takes the block away or is not
    told to keep the line dirty. -/
theorem isDirty_of_event {m : Message} (dirty : (a.onNtwkEvent s m).l1d.isDirty B = true) :
    a.l1d.isDirty B = true ∧
      (B = toCacheBlock s m.block → ¬ Revokes m ∧ (m.kind = .recallGotoS → m.dirty = true)) ∨
      Revokes m ∧ B = toCacheBlock s m.block := by
  by_cases eq : B = toCacheBlock s m.block
  · by_cases revokes : Revokes m
    · exact .inr ⟨revokes, eq⟩
    · left
      subst eq
      unfold onNtwkEvent at dirty
      simp only at dirty
      split at dirty
      case h_1 kind => exact absurd (.inl kind) revokes
      case h_2 kind => exact absurd (.inr kind) revokes
      case h_3 kind =>
        split at dirty
        · next keeps => exact ⟨dirty, fun _ => ⟨revokes, fun _ => keeps⟩⟩
        · have clean := a.l1d.isDirty_clean (toCacheBlock s m.block)
          cases clean.symm.trans dirty
      case h_4 other => exact ⟨dirty, fun _ => ⟨revokes, fun kind => absurd kind other⟩⟩
  · refine .inl ⟨?_, fun same => absurd same eq⟩
    unfold onNtwkEvent at dirty
    simp only at dirty
    split at dirty
    case h_1 | h_2 => exact (Cache.fades_invalidate eq).dirty dirty
    case h_3 =>
      split at dirty
      · exact dirty
      · exact (Cache.fades_mark eq false).dirty dirty
    case h_4 => exact dirty

theorem isDirty_of_core {slot : Option Message} {event : CoreEvent}
    (dirty : (a.core s i slot event).state.l1d.isDirty B = true) :
    a.l1d.isDirty B = true ∨
      ∃ req, event = .issue req ∧ req.op.isWrite = true ∧ B = a.l1d.getBlockAddr req.addr := by
  cases event with
  | complete id | tick => exact .inl dirty
  | issue req =>
      obtain ⟨upper, -⟩ := sink_caches (s := s) (i := i)
        (a := { a with
          l1d := (a.l1d.issue (β := .cache) a.l2d req).1.cache
          l2d := (a.l1d.issue (β := .cache) a.l2d req).1.below })
        (a.l1d.issue (β := .cache) a.l2d req).1.calls
      simp only [core, settle] at dirty
      rw [upper] at dirty
      by_cases written : req.op.isWrite = true ∧ B = a.l1d.getBlockAddr req.addr
      · exact .inr ⟨req, rfl, written⟩
      · exact .inl (Cache.issue_dirty (fun write same => written ⟨write, same⟩) dirty)

end CoherenceAdapter

/-! ## Lines vouched for -/

variable {p : Protocol} {s : Settings} {l1 l2 : Config} {i : NodeId} {σ σ' : System p.fsm adapterPort}

/-- The L1 has the block, and the line that a lookup for it finds is dirty. -/
def HoldsDirty (n : CpuNode p.fsm adapterPort) (B : Nat) : Prop :=
  (CoherenceAdapter.l1d n.cpu).isDirty B = true

instance (n : CpuNode p.fsm adapterPort) (B : Nat) : Decidable (HoldsDirty n B) :=
  inferInstanceAs (Decidable (_ = true))

theorem HoldsDirty.lodges {n : CpuNode p.fsm adapterPort} {B : Nat} (dirty : HoldsDirty n B) :
    CoherenceAdapter.Lodges n.cpu B := by
  obtain ⟨line, found, -⟩ := Cache.isDirty_iff_found.mp dirty
  exact .inl (Cache.isInCache_iff_found.mpr ⟨line, found⟩)

/-- A line gets dirty only while its agent is in `M`: by a fill for a store, or by a store that
    finds its block. -/
def Entitled (s : Settings) (σ : System p.fsm adapterPort) : Action adapterPort → Prop
  | .tick i =>
      ∀ m ∈ CoherenceAdapter.cacheInNext (σ.cpus i).cpu,
        CoherenceAdapter.pendingStores (σ.cpus i).cpu m.block = true →
          (σ.cpus i).agents m.block = p.modified
  | .external i (.issue req) =>
      req.op.isWrite = true →
        let B := (CoherenceAdapter.l1d (σ.cpus i).cpu).getBlockAddr req.addr
        HoldsDirty ((σ.cpus i).portStep (CoherenceAdapter.core (σ.cpus i).cpu s i (σ.cpus i).cpuInNext
          (.issue req))) B → HoldsDirty (σ.cpus i) B ∨ Writable s σ i req
  | _ => True

instance (s : Settings) (σ : System p.fsm adapterPort) (a : Action adapterPort) :
    Decidable (Entitled s σ a) :=
  match a with
  | .tick i =>
      inferInstanceAs (Decidable (∀ m ∈ CoherenceAdapter.cacheInNext (σ.cpus i).cpu,
        CoherenceAdapter.pendingStores (σ.cpus i).cpu m.block = true →
          (σ.cpus i).agents m.block = p.modified))
  | .external i (.issue req) =>
      inferInstanceAs (Decidable (req.op.isWrite = true →
        let B := (CoherenceAdapter.l1d (σ.cpus i).cpu).getBlockAddr req.addr
        HoldsDirty ((σ.cpus i).portStep (CoherenceAdapter.core (σ.cpus i).cpu s i (σ.cpus i).cpuInNext
          (.issue req))) B → HoldsDirty (σ.cpus i) B ∨ Writable s σ i req))
  | .external _ (.complete _) | .external _ .tick | .tock _ | .deliver _ | .dirTick | .dirTock
  | .dirDeliver _ => isTrue trivial

/-- The agent of a dirty line is in a state in which its line may be dirty. -/
def CpuNode.Vouched (s : Settings) (n : CpuNode p.fsm adapterPort) : Prop :=
  ∀ B, HoldsDirty n B → Soils (n.agents (toByteBlock s B))

namespace CpuNode

open CoherenceAdapter

variable {n n' : CpuNode p.fsm adapterPort} {st st' : CoherenceStats}

theorem Vouched.called (vouched : n.Vouched s) (whole : n.Wholesome p.laws.toAgentLaws s)
    (entitled : ∀ m ∈ cacheInNext n.cpu, pendingStores n.cpu m.block = true →
      n.agents m.block = p.modified) : (n.portStep (n.called s i)).Vouched s := by
  intro B dirty
  rcases isDirty_of_tick dirty with old | ⟨m, mem, rfl, written⟩
  · exact vouched B old
  · rw [whole.filling m mem]
    exact .inl (entitled m mem written)

theorem Vouched.tickProc (vouched : n.Vouched s) (step : n.tickProc s i st = .ok (n', st')) :
    n'.Vouched s := by
  unfold CpuNode.tickProc at step
  split at step
  · cases step
    exact vouched
  · next m arrived =>
      split at step
      · cases step
      · next t answer =>
          cases step
          intro B dirty
          have old : HoldsDirty n B := by
            unfold HoldsDirty at dirty ⊢
            rwa [CpuNode.apply_fields] at dirty
          have soils := vouched B old
          simp only [CpuNode.apply]
          by_cases eq : toByteBlock s B = m.block
          · rw [eq, Function.update_self]
            exact Soils.proc (eq ▸ soils) answer
          · rwa [Function.update_of_ne eq]

/-- No order leaves a line dirty whose agent it moves out of such a state. -/
theorem Vouched.tickNtwk (vouched : n.Vouched s) (whole : n.Wholesome p.laws.toAgentLaws s)
    (gone : ∀ m, n.ntwkIn = some m → Revokes m → ¬ Has s (onNtwkEvent s n.cpu m) m.block)
    (keeps : ∀ m, n.ntwkIn = some m → m.kind = .recallGotoS → m.dirty = true →
      p.laws.profile.owners = true)
    (step : n.tickNtwk s i st = .ok (n', st')) : n'.Vouched s := by
  unfold CpuNode.tickNtwk at step
  split at step
  · cases step
    exact vouched
  · next m arrived =>
      split at step
      · cases step
      · next t answer =>
          cases step
          intro B dirty
          have dirty : (onNtwkEvent s (n.apply s i m.block t).cpu m).l1d.isDirty B = true := dirty
          rw [CpuNode.apply_fields] at dirty
          rcases isDirty_of_event dirty with ⟨old, kept⟩ | ⟨revokes, rfl⟩
          · have old : HoldsDirty n B := old
            have soils := vouched B old
            by_cases eq : toByteBlock s B = m.block
            · have own : B = toCacheBlock s m.block := by
                rw [← eq, number_back (whole.fits B old.lodges)]
              obtain ⟨stays, marked⟩ := kept own
              simp only [CpuNode.apply]
              rw [eq, Function.update_self]
              rcases (eq ▸ soils).ntwk answer with still | recalled | ⟨shared, none⟩
              · exact still
              · exact absurd (.inr recalled) stays
              · cases none.symm.trans (keeps m arrived shared (marked shared))
            · simp only [CpuNode.apply]
              rwa [Function.update_of_ne eq]
          · -- The order has taken the block away.
            obtain ⟨line, found, -⟩ := Cache.isDirty_iff_found.mp dirty
            have left := Cache.isInCache_iff_found.mpr ⟨line, found⟩
            have holds : (onNtwkEvent s n.cpu m).Holds s m.block := holds_slot n.cpu m _ (.inl left)
            exact absurd ⟨whole.known _ (heard answer), .inl holds⟩ (gone m arrived revokes)

theorem Vouched.core (vouched : n.Vouched s) {event : CoreEvent}
    (entitled : ∀ req, event = .issue req → req.op.isWrite = true →
      HoldsDirty (n.portStep (CoherenceAdapter.core n.cpu s i n.cpuInNext event))
          (n.cpu.l1d.getBlockAddr req.addr) →
        HoldsDirty n (n.cpu.l1d.getBlockAddr req.addr) ∨
          n.agents (toByteBlock s (n.cpu.l1d.getBlockAddr req.addr)) = p.modified) :
    (n.portStep (CoherenceAdapter.core n.cpu s i n.cpuInNext event)).Vouched s := by
  intro B dirty
  rcases isDirty_of_core dirty with old | ⟨req, issued, write, rfl⟩
  · exact vouched B old
  · rcases entitled req issued write dirty with old | modified
    · exact vouched _ old
    · exact .inl modified

end CpuNode

/-! ## Runs of rightful writers -/

/-- The directory tells only owners to keep a line dirty. -/
theorem keeps_of_shows {R : CoherenceAdapter → BlockId → Prop} {lines : BlockId → Block NodeId}
    (shows : Shows p.laws R s σ lines) (bound : i < s.numProcs) {m : Message}
    (arrived : (σ.cpus i).ntwkIn = some m) (shared : m.kind = .recallGotoS) (marked : m.dirty = true) :
    p.laws.profile.owners = true := by
  have abs := shows.abs m.block
  obtain ⟨l, head⟩ := abs.head bound arrived
  rcases down_cons head with ⟨g, -, kind, -⟩ | ⟨-, o, sent, same, -⟩
  · have kind : m.kind = grantKind g := kind
    rw [shared] at kind
    cases g <;> cases kind
  · rw [shared, marked] at same
    have order := (abs.within.slot i).sent o sent
    cases o with
    | own keep => exact order
    | invalidate | giveBack | share => cases same

theorem System.tick_bound (step : σ.step s (.tick i) = .ok σ') : i < s.numProcs := by
  simp only [System.step] at step
  split at step
  · next here => exact here.1
  · cases step

/-- An orderly step that dirties only what its core may write. -/
def Rightful (s : Settings) (σ : System p.fsm adapterPort) (a : Action adapterPort) : Prop :=
  Orderly s σ a ∧ Entitled s σ a

instance (s : Settings) (σ : System p.fsm adapterPort) (a : Action adapterPort) :
    Decidable (Rightful s σ a) := inferInstanceAs (Decidable (_ ∧ _))

theorem vouched_run (small : s.numProcs ≤ kMaxSharers) (same : s.cacheMode = .privateL2 → l1.b = l2.b)
    (run : (System.machine p.fsm adapterPort s).Run (Rightful s) (fullMode p.fsm s l1 l2) σ) (i : NodeId) :
    (σ.cpus i).Vouched s := by
  apply run.invariant_under (J := fun σ =>
      (∀ i, CoherenceAdapter.Stacked (σ.cpus i).cpu ∧ (σ.cpus i).Wholesome p.laws.toAgentLaws s) ∧
        ∃ lines, Shows p.laws (CoherenceAdapter.Has s) s σ lines)
    (I := fun σ => (σ.cpus i).Vouched s)
  · intro σ there
    have orderly := there.mono fun _ _ => And.left
    obtain ⟨lines, shows, -⟩ := covers_run p.laws small same orderly
    exact ⟨fun i => ⟨stacked_run same there.reachable i,
      wholesome_run p.laws.toAgentLaws same (fun _ _ => Orderly.sized) orderly i⟩, lines, shows⟩
  · intro B dirty
    exact absurd dirty.lodges (CoherenceAdapter.wire_empty s l1 l2 B)
  · rintro σ a σ' ⟨nodes, lines, shows⟩ vouched ⟨orderly, entitled⟩ step
    have tidy : Tidy (CoherenceAdapter.Has s) s σ a :=
      orderly.tidy (fun i => (nodes i).1) fun i => (nodes i).2
    generalize eq : σ'.cpus i = n
    have moved : System.NodeStep s σ i a n := eq ▸ System.node_step step i
    cases moved with
    | idle => exact vouched
    | tick ticked =>
        have bound := System.tick_bound step
        obtain ⟨stacked, whole⟩ := nodes i
        unfold CpuNode.tick at ticked
        simp only at ticked
        split at ticked
        · cases ticked
        · next n₁ st₁ proc =>
            have called := vouched.called (i := i) whole entitled
            have whole₁ := (whole.called (i := i) stacked).tickProc proc
            have arrived := CpuNode.tickProc_ntwkIn proc
            apply (called.tickProc proc).tickNtwk whole₁ _ _ ticked
            · exact tidy.2 _ _ _ proc
            · intro m here shared marked
              exact keeps_of_shows shows bound (arrived.symm.trans here) shared marked
    | tock => exact vouched
    | deliver m => exact vouched
    | @external event p called =>
        cases called
        apply vouched.core
        rintro req rfl
        exact entitled

/-- In every run of full mode whose steps are rightful a dirty line is the only copy of its block, or
    that of an owner. -/
theorem single_writer (p : Protocol) (s : Settings) (small : s.numProcs ≤ kMaxSharers) (l1 l2 : Config)
    (same : s.cacheMode = .privateL2 → l1.b = l2.b) :
    ∀ σ, (System.machine p.fsm adapterPort s).Run (Rightful s) (fullMode p.fsm s l1 l2) σ →
      ∀ i < s.numProcs, ∀ j < s.numProcs, i ≠ j → ∀ B, HoldsDirty (σ.cpus i) B →
        (CoherenceAdapter.l1d (σ.cpus j).cpu).isInCache B = true →
          p.owner ((σ.cpus i).agents (toByteBlock s B)) = true := by
  intro σ run i here j there apart B dirty resident
  have orderly := run.mono fun _ _ => And.left
  obtain ⟨lines, shows, covers⟩ := covers_run p.laws small same orderly
  have has (k : NodeId) (lodges : CoherenceAdapter.Lodges (σ.cpus k).cpu B) :
      CoherenceAdapter.Has s (σ.cpus k).cpu (toByteBlock s B) :=
    (wholesome_run p.laws.toAgentLaws same (fun _ _ => Orderly.sized) orderly k).fits.has lodges
  have abs := shows.abs (toByteBlock s B)
  rcases vouched_run small same run i B dirty with modified | owner
  · exfalso
    have view := abs.view i
    have exclusive : ((lines (toByteBlock s B)).slot i).right = .exclusive := by
      rw [modified] at view
      exact (congrArg View.right view).symm.trans exclusive_of_modified
    have alone := (covers (toByteBlock s B)).alone abs.inv (abs.resident i here (has i dirty.lodges))
      exclusive (abs.resident j there (has j (.inl resident)))
    exact apart alone.symm
  · exact owner

/-! ### An owner and a reader -/

def ownerSettings : Settings := { protocol := .MOSI, numProcs := 2, memLatency := 1, cacheMode := .sharedLls }

/-- Core 0 stores to a block that core 1 then loads. -/
def sharedOwner : System (Protocol.fsm .MOSI) adapterPort :=
  (System.machine _ adapterPort ownerSettings).attempt (fullMode _ ownerSettings tinyL1 {})
    ([store 0 0] ++ cycles 2 8 ++ [done 0 1, load 1 0] ++ cycles 2 14)

theorem sharedOwner_run : (System.machine _ adapterPort ownerSettings).Run (Rightful ownerSettings)
    (fullMode _ ownerSettings tinyL1 {}) sharedOwner :=
  Machine.run_attempt _ (by decide +kernel)

/-- The owner keeps its line dirty, and no order is on its way to the reader. -/
theorem dirty_beside_reader :
    (System.machine _ adapterPort ownerSettings).Run (Rightful ownerSettings)
        (fullMode _ ownerSettings tinyL1 {}) sharedOwner ∧
      HoldsDirty (sharedOwner.cpus 0) 0 ∧
      (CoherenceAdapter.l1d (sharedOwner.cpus 1).cpu).isInCache 0 = true ∧
      sharedOwner.arriving ownerSettings 1 = [] := by
  refine ⟨sharedOwner_run, ?_⟩
  decide +kernel

def forwardSettings : Settings := { protocol := .MOESIF, numProcs := 2, memLatency := 1 }

/-- The same under MOESIF, over private L2s. -/
def sharedForward : System (Protocol.fsm .MOESIF) adapterPort :=
  (System.machine _ adapterPort forwardSettings).attempt (fullMode _ forwardSettings tinyL1 tinyL1)
    ([store 0 0] ++ cycles 2 8 ++ [done 0 1, load 1 0] ++ cycles 2 14)

theorem single_writer_owner : Protocol.owner .MOESIF ((sharedForward.cpus 0).agents 0) = true :=
  single_writer .MOESIF forwardSettings (by decide) tinyL1 tinyL1 (fun _ => rfl) sharedForward
    (Machine.run_attempt _ (by decide +kernel)) 0 (by decide) 1 (by decide) (by decide) 0
    (by decide +kernel) (by decide +kernel)

end Coherence
