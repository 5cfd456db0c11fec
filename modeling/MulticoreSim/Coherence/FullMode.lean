import MulticoreSim.Coherence.Adapter
import MulticoreSim.Coherence.Runs

/-! # Runs of full mode

The adapter is a port that sends eviction notices only, so every full-mode run
shows an abstract line for every block, whatever the cores issue and whatever
their caches evict.
-/

namespace Coherence

open DirectoryProtocol Memory

variable {s : Settings} {i : NodeId}

/-- An eviction notice of node `i`. -/
def IsNotice (s : Settings) (i : NodeId) (m : Message) : Prop :=
  m.src = i ∧ m.dst = s.numProcs ∧ m.kind = .dataWb

namespace CoherenceAdapter

theorem sink_notices (a : CoherenceAdapter) (calls : List SinkCall) :
    ∀ m ∈ (a.sink s i calls).2, IsNotice s i m := by
  induction calls generalizing a with
  | nil =>
      intro m mem
      cases mem
  | cons call rest ih =>
      cases call with
      | onMiss blockAddr op => exact ih _
      | onEvict blockAddr dirty =>
          intro m mem
          rcases List.mem_cons.mp mem with rfl | old
          · exact ⟨rfl, rfl, rfl⟩
          · exact ih a m old

theorem fillL2_notices (a : CoherenceAdapter) (cacheBlock : Nat) :
    ∀ m ∈ (a.fillL2 s i cacheBlock).2, IsNotice s i m := by
  unfold fillL2
  split
  · intro m mem
    cases mem
  · exact sink_notices _ _

theorem fill_notices (a : CoherenceAdapter) (data : Message) :
    ∀ m ∈ (a.fill s i data).2, IsNotice s i m := by
  intro m mem
  rcases List.mem_append.mp mem with lower | upper
  · exact fillL2_notices _ _ m lower
  · exact sink_notices _ _ m upper

theorem tick_notices (a : CoherenceAdapter) (slot : Option Message) :
    ∀ m ∈ (a.tick s i slot).sends, IsNotice s i m := by
  unfold tick
  simp only
  split
  · intro m mem
    cases mem
  · exact fill_notices _ _

theorem core_notices (a : CoherenceAdapter) (slot : Option Message) (event : CoreEvent) :
    ∀ m ∈ (a.core s i slot event).sends, IsNotice s i m := by
  cases event with
  | issue req => exact sink_notices _ _
  | complete id =>
      intro m mem
      cases mem
  | tick =>
      intro m mem
      cases mem

end CoherenceAdapter

/-- The adapter's laws, with nothing said about which copies its caches hold. -/
theorem adapter_laws : PortLaws adapterPort fun _ _ => False where
  tick_sends _ _ st c := st.tick_notices c
  external_sends := by
    rintro s i st c e p ⟨⟩
    exact st.core_notices c e
  tock _ _ := id
  deposit _ _ _ := .inl
  event _ _ _ _ := id

/-- Where nothing is said about copies, none outlives anything. -/
theorem tidy_of_none {F : ProtocolFsm} {π : CpuPort} (σ : System F π) (a : Action π) :
    Tidy (fun _ _ => False) s σ a := by
  cases a with
  | tick i => exact ⟨⟨fun _ => id, fun _ _ => id⟩, fun _ _ _ _ _ _ _ => id⟩
  | external i e => exact fun _ _ => ⟨fun _ => id, fun _ _ => id⟩
  | tock i | deliver i | dirTick | dirTock | dirDeliver src => trivial

/-- Every run over a port that sends eviction notices only shows lines. -/
theorem Shows.reached {F : ProtocolFsm} {π : CpuPort} (L : Laws F)
    (laws : PortLaws π fun _ _ => False) (small : s.numProcs ≤ kMaxSharers)
    {cpu : NodeId → π.State} {σ : System F π}
    (reached : (System.machine F π s).Reachable (System.initial F π s cpu) σ) :
    ∃ lines, Shows L (fun _ _ => False) s σ lines := by
  obtain ⟨lines, shows, -⟩ := Shows.run (L := L) (I := fun _ _ => True) laws small
    (fun _ _ _ => id) (fun σ _ a _ _ _ => tidy_of_none σ a) trivial
    (fun _ _ _ _ _ _ _ _ _ _ _ => trivial) reached
  exact ⟨lines, shows⟩

/-! ## Runs in lockstep -/

/-- One cycle of `n` cores and the directory, each handed at most one message. -/
def lockstep (n : Nat) : List (Action adapterPort) :=
  ((List.range n).flatMap fun i => [.tick i, .deliver i]) ++ [.dirTick] ++
    (List.range n).map .dirDeliver ++ (List.range n).map .tock ++ [.dirTock]

/-- One cycle of `n` cores and the directory in which messages reach the nodes of `down`
    only, and the directory from those of `up`. -/
def paced (n : Nat) (down up : List NodeId) : List (Action adapterPort) :=
  ((List.range n).flatMap fun i => if i ∈ down then [.tick i, .deliver i] else [.tick i]) ++
    [.dirTick] ++ up.map .dirDeliver ++ (List.range n).map .tock ++ [.dirTock]

/-- It is a round if what waits when it begins is handed over. -/
theorem paced_round {F : ProtocolFsm} {σ : System F adapterPort} {down up : List NodeId}
    (deliver : ∀ i < s.numProcs, σ.chan s.numProcs i ≠ [] → i ∈ down)
    (dirDeliver : ∀ i < s.numProcs, σ.chan i s.numProcs ≠ [] → i ∈ up) :
    Round s σ (paced s.numProcs down up) := by
  refine ⟨fun i bound => ?_, fun i bound => ?_, fun i bound waits => ?_, ?_, ?_, fun i bound waits => ?_⟩
  all_goals simp only [paced, List.mem_append, List.mem_flatMap, List.mem_map, List.mem_range, List.mem_singleton]
  · refine .inl (.inl (.inl (.inl ⟨i, bound, ?_⟩)))
    split <;> exact List.mem_cons_self
  · exact .inl (.inr ⟨i, bound, rfl⟩)
  · refine .inl (.inl (.inl (.inl ⟨i, bound, ?_⟩)))
    rw [if_pos (deliver i bound waits)]
    exact List.mem_cons_of_mem _ List.mem_cons_self
  · exact .inl (.inl (.inl (.inr trivial)))
  · exact .inr trivial
  · exact .inl (.inl (.inr ⟨i, dirDeliver i bound waits, rfl⟩))

def cycles (n k : Nat) : List (Action adapterPort) := (List.replicate k (lockstep n)).flatten

def load (i : NodeId) (addr : Nat) : Action adapterPort := .external i (.issue { addr })

def store (i : NodeId) (addr : Nat) : Action adapterPort :=
  .external i (.issue { addr, op := .write, originatingOp := .write })

/-- The core is through with a request. -/
def done (i : NodeId) (id : Nat) : Action adapterPort := .external i (.complete id)

end Coherence
