import MulticoreSim.Coherence.NetworkRefinement

/-! # How much the ring carries

No more than the channels hold and the engines have sent, and of that no more than two
messages each way for every CPU and every block that somebody asks for.
-/

namespace Coherence

open DirectoryProtocol RingNetwork

/-- Tests that tell elements apart cannot count more than there are. -/
theorem sum_countP_le {α β : Type} [DecidableEq β] (f : α → β) (q : β → α → Bool)
    (tells : ∀ b x, q b x = true → f x = b) (S : Finset β) (l : List α) : ∑ b ∈ S, l.countP (q b) ≤ l.length := by
  have le (b : β) : l.countP (q b) ≤ l.countP (f · = b) :=
    List.countP_mono_left fun x _ here => by simpa using tells b x here
  have all := length_eq_sum_countP (f := f) (S := S ∪ (l.map f).toFinset) (l := l)
    fun x mem => Finset.mem_union_right _ (List.mem_toFinset.mpr (List.mem_map_of_mem mem))
  calc ∑ b ∈ S, l.countP (q b) ≤ ∑ b ∈ S, l.countP (f · = b) := Finset.sum_le_sum fun b _ => le b
    _ ≤ ∑ b ∈ S ∪ (l.map f).toFinset, l.countP (f · = b) :=
        Finset.sum_le_sum_of_subset Finset.subset_union_left
    _ = l.length := all.symm

namespace Ring

variable {n : Nat} {σ : Ring}

/-- Every message was sent from one node to another. -/
theorem Sound.named_eq (sound : Sound n σ) :
    σ.named = ∑ i ∈ Finset.range n, ∑ j ∈ Finset.range n, (σ.sent i j).length := by
  have pairs := length_eq_sum_countP (f := fun id => ((σ.heap id).src, (σ.heap id).dst))
    (S := Finset.range n ×ˢ Finset.range n) (l := List.range σ.fresh) fun id mem => by
      obtain ⟨src, dst⟩ := sound.routed.addressed id (List.mem_range.mp mem)
      exact Finset.mem_product.mpr ⟨Finset.mem_range.mpr src, Finset.mem_range.mpr dst⟩
  rw [List.length_range, Finset.sum_product] at pairs
  refine pairs.trans (Finset.sum_congr rfl fun i _ => Finset.sum_congr rfl fun j _ => ?_)
  rw [sent, ← List.countP_eq_length_filter]
  exact List.countP_congr fun id _ => by rw [decide_eq_true_iff, decide_eq_true_iff, Prod.mk.injEq, Between]

theorem Sound.underway_le (sound : Sound n σ) : underway n σ ≤
    ∑ i ∈ Finset.range n, ∑ j ∈ Finset.range n, (transit n σ i j).length +
      ∑ i ∈ Finset.range n, (σ.nodes i).outNext.length := by
  have each (i : Nat) (hi : i ∈ Finset.range n) (j : Nat) (hj : j ∈ Finset.range n) : (σ.sent i j).length =
      (σ.nodes j).handed.countP (σ.Between i j) +
        ((transit n σ i j).length + (σ.nodes i).outNext.countP (σ.Between i j)) := by
    rw [sound.sent_eq (Finset.mem_range.mp hi) (Finset.mem_range.mp hj), List.length_append, List.length_append,
      List.countP_eq_length_filter, List.countP_eq_length_filter]
  have named := sound.named_eq
  rw [Finset.sum_congr rfl fun i hi => Finset.sum_congr rfl fun j hj => each i hi j hj] at named
  simp only [Finset.sum_add_distrib] at named
  have handed : ∑ i ∈ Finset.range n, ∑ j ∈ Finset.range n, (σ.nodes j).handed.countP (σ.Between i j) ≤
      ∑ j ∈ Finset.range n, (σ.nodes j).handed.length := by
    rw [Finset.sum_comm]
    exact Finset.sum_le_sum fun j _ => sum_countP_le (fun id => (σ.heap id).src) (fun i id => σ.Between i j id)
      (fun i id between => (of_decide_eq_true between).1) _ _
  have waiting : ∑ i ∈ Finset.range n, ∑ j ∈ Finset.range n, (σ.nodes i).outNext.countP (σ.Between i j) ≤
      ∑ i ∈ Finset.range n, (σ.nodes i).outNext.length :=
    Finset.sum_le_sum fun i _ => sum_countP_le (fun id => (σ.heap id).dst) (fun j id => σ.Between i j id)
      (fun j id between => (of_decide_eq_true between).2) _ _
  unfold underway
  omega

end Ring

variable {F : ProtocolFsm} {π : CpuPort} {L : Laws F} {s : Settings} {σ σ' start : System F π} {ν ν' : RingNetwork F π}
  {i k : NodeId}

/-! ## Over the channels -/

/-- The messages in the channels and those the engines have sent. -/
def System.inFlight (s : Settings) (σ : System F π) : Nat :=
  ∑ i ∈ Finset.range (size s), ∑ j ∈ Finset.range (size s), (σ.chan i j).length +
    ∑ k ∈ Finset.range (size s), (σ.outbox s k).length

/-- The ring has room for what is sent if there is room for what is in flight. -/
theorem Shadows.room (shadows : Shadows s start ν σ) (here : k < size s) (waits : σ.ticked k = false)
    (chan : σ'.chan = σ.chan) (others : ∀ j < size s, j ≠ k → σ'.outbox s j = σ.outbox s j) :
    Ring.underway (size s) ν.ring + (σ'.outbox s k).length ≤ σ'.inFlight s := by
  have transit : ∑ i ∈ Finset.range (size s), ∑ j ∈ Finset.range (size s), (Ring.transit (size s) ν.ring i j).length =
      ∑ i ∈ Finset.range (size s), ∑ j ∈ Finset.range (size s), (σ'.chan i j).length := by
    refine Finset.sum_congr rfl fun i hi => Finset.sum_congr rfl fun j hj => ?_
    rw [chan, shadows.chan i (Finset.mem_range.mp hi) j (Finset.mem_range.mp hj), List.length_map]
  have sent (j : NodeId) (bound : j < size s) (ne : j ≠ k) :
      (ν.ring.nodes j).outNext.length ≤ (σ'.outbox s j).length := by
    have out := congrArg List.length (shadows.outbox j bound)
    rw [List.length_map] at out
    rw [others j bound ne, out]
    split
    · exact le_rfl
    · exact Nat.zero_le _
  have mine : (ν.ring.nodes k).outNext.length = 0 := by
    have out := congrArg List.length (shadows.outbox k here)
    rw [List.length_map, waits] at out
    exact out
  have mem := Finset.mem_range.mpr here
  have all : ∑ j ∈ Finset.range (size s), (ν.ring.nodes j).outNext.length + (σ'.outbox s k).length ≤
      ∑ j ∈ Finset.range (size s), (σ'.outbox s j).length := by
    rw [← Finset.add_sum_erase _ _ mem, ← Finset.add_sum_erase _ _ mem, mine, Nat.zero_add, Nat.add_comm]
    refine Nat.add_le_add_left (Finset.sum_le_sum fun j inside => ?_) _
    obtain ⟨ne, bound⟩ := Finset.mem_erase.mp inside
    exact sent j (Finset.mem_range.mp bound) ne
  have le := shadows.sound.underway_le
  unfold System.inFlight
  omega

/-- CPUs and the directory only send to one another. -/
theorem inFlight_le (fenced : Fenced s σ) (routes : ∀ i < s.numProcs, ∀ j < s.numProcs, σ.chan i j = [])
    (selfless : σ.chan s.numProcs s.numProcs = []) :
    σ.inFlight s ≤ ∑ i ∈ s.nodes, ((σ.carried s i).length + (σ.arriving s i).length) := by
  have up (i : NodeId) : (σ.cpus i).ntwkOutNext.length + (σ.chan i s.numProcs).length ≤ (σ.carried s i).length := by
    simp only [System.carried, List.length_append]
    omega
  have down (i : NodeId) : (σ.chan s.numProcs i).length + σ.dir.ntwkOutNext.countP (fun m => m.dst = i) ≤
      (σ.arriving s i).length := by
    simp only [System.arriving, List.length_append, List.countP_eq_length_filter]
    omega
  have out : σ.dir.ntwkOutNext.length = ∑ i ∈ s.nodes, σ.dir.ntwkOutNext.countP (fun m => m.dst = i) :=
    length_eq_sum_countP fun m mem => mem_nodes.mpr (fenced.addressed m mem)
  have from_ (i : NodeId) (mem : i ∈ Finset.range s.numProcs) :
      ∑ j ∈ Finset.range (size s), (σ.chan i j).length = (σ.chan i s.numProcs).length := by
    rw [Finset.sum_range_succ, Finset.sum_eq_zero, Nat.zero_add]
    exact fun j mem' => by rw [routes i (Finset.mem_range.mp mem) j (Finset.mem_range.mp mem'), List.length_nil]
  have chans : ∑ i ∈ Finset.range (size s), ∑ j ∈ Finset.range (size s), (σ.chan i j).length =
      ∑ i ∈ s.nodes, (σ.chan i s.numProcs).length + ∑ i ∈ s.nodes, (σ.chan s.numProcs i).length := by
    rw [Finset.sum_range_succ, Finset.sum_congr rfl from_, Finset.sum_range_succ, selfless, List.length_nil,
      Nat.add_zero]
    rfl
  have outs : ∑ k ∈ Finset.range (size s), (σ.outbox s k).length =
      ∑ i ∈ s.nodes, (σ.cpus i).ntwkOutNext.length + σ.dir.ntwkOutNext.length := by
    rw [Finset.sum_range_succ, System.outbox, if_neg (Nat.lt_irrefl _)]
    refine congrArg (· + _) (Finset.sum_congr rfl fun k mem => ?_)
    rw [System.outbox, if_pos (Finset.mem_range.mp mem)]
  have all := Finset.sum_le_sum (s := s.nodes) fun i _ => Nat.add_le_add (up i) (down i)
  simp only [Finset.sum_add_distrib] at all ⊢
  rw [System.inFlight, chans, outs]
  omega

/-! ## Over traces -/

section

variable {traces : NodeId → List Instruction} {σ : System F ficiPort} {lines : BlockId → Block NodeId} {m : Message}

theorem underway_run (L : Laws F) (small : s.numProcs ≤ kMaxSharers)
    (reached : (System.machine F ficiPort s).Reachable (coherenceMode F s traces) σ) :
    ∃ lines, Underway L s traces σ lines := by
  refine reached.invariant (I := fun σ => ∃ lines, Underway L s traces σ lines) ⟨_, .initial L s traces⟩ ?_
  rintro σ a σ' ⟨lines, under⟩ - step
  obtain ⟨lines', under', -⟩ := under.step small step
  exact ⟨lines', under'⟩

theorem down_length (x : DirectoryProtocol.Slot) : (Coherence.down x).length ≤ 2 := by
  unfold down downGrant downOrder
  split <;> split <;> simp

/-- A grant and an order about a block at most are on their way to a node. -/
theorem Underway.orders_le (under : Underway L s traces σ lines) (bound : i < s.numProcs) (b : BlockId) :
    (σ.arriving s i).countP (fun m => m.block = b) ≤ 2 := by
  have here := congrArg List.length ((under.shows.abs b).downward i bound)
  rw [orders, List.length_map] at here
  rw [List.countP_eq_length_filter, here]
  exact down_length _

/-- Nor are they about a block that nobody asks for. -/
theorem Underway.arriving_block (under : Underway L s traces σ lines) (bound : i < s.numProcs)
    (mem : m ∈ σ.arriving s i) : m.block ∈ sharedBlocks s traces := by
  by_contra out
  have rest := under.rest out
  have idle := Block.idle_of_rest (under.shows.abs m.block).inv rest
  have here : (m.kind, m.dirty) ∈ orders m.block (σ.arriving s i) :=
    List.mem_map.mpr ⟨m, List.mem_filter.mpr ⟨mem, by simp⟩, rfl⟩
  rw [(under.shows.abs m.block).downward i bound, down, rest, idle] at here
  cases here

theorem Underway.arriving_le (under : Underway L s traces σ lines) (bound : i < s.numProcs) :
    (σ.arriving s i).length ≤ 2 * (sharedBlocks s traces).card := by
  rw [length_eq_sum_countP (f := Message.block) fun m mem => under.arriving_block bound mem]
  refine (Finset.sum_le_sum fun b _ => under.orders_le bound b).trans ?_
  rw [Finset.sum_const_nat fun _ _ => rfl, Nat.mul_comm]

/-- The most messages that are in flight. -/
def mostCarried (s : Settings) (traces : NodeId → List Instruction) : Nat := 2 * mostSent s traces

theorem Underway.inFlight_le (under : Underway L s traces σ lines) (fenced : Fenced s σ)
    (routes : ∀ i < s.numProcs, ∀ j < s.numProcs, σ.chan i j = []) (selfless : σ.chan s.numProcs s.numProcs = []) :
    σ.inFlight s ≤ mostCarried s traces := by
  have each : ∀ i ∈ s.nodes, (σ.carried s i).length + (σ.arriving s i).length ≤ 4 * (sharedBlocks s traces).card := by
    intro i mem
    have up := under.carried_le (mem_nodes.mp mem)
    have down := under.arriving_le (mem_nodes.mp mem)
    omega
  refine (Coherence.inFlight_le fenced routes selfless).trans ((Finset.sum_le_sum each).trans ?_)
  rw [Finset.sum_const_nat fun _ _ => rfl, Settings.nodes, Finset.card_range, mostCarried, mostSent]
  have four : 4 * (sharedBlocks s traces).card = 2 * (2 * (sharedBlocks s traces).card) := by omega
  rw [four, Nat.mul_left_comm]

end

end Coherence
