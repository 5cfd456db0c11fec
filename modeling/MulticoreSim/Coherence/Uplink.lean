import MulticoreSim.Coherence.DirectoryOrder
import Mathlib.Algebra.Order.BigOperators.Group.Finset
import Mathlib.Algebra.BigOperators.Ring.Finset

/-! # The way to the directory

A message to the directory waits at its node, in the channel, and in the directory's two
queues. Whatever the system does, it moves one message or one queue on, pushes more, or
puts the head of the queue back.
-/

namespace Coherence

/-- One element changes: its share changes, the others' stay. -/
theorem sum_update {α : Type} {n i : Nat} (bound : i < n) (w : Nat → α) (x : α) (f : α → Nat) :
    ∑ j ∈ Finset.range n, f (Function.update w i x j) + f (w i) = ∑ j ∈ Finset.range n, f (w j) + f x := by
  have mem := Finset.mem_range.mpr bound
  rw [← Finset.add_sum_erase _ _ mem, ← Finset.add_sum_erase (Finset.range n) (fun j => f (w j)) mem,
    Function.update_self]
  have others : ∑ j ∈ (Finset.range n).erase i, f (Function.update w i x j) =
      ∑ j ∈ (Finset.range n).erase i, f (w j) :=
    Finset.sum_congr rfl fun j other => by rw [Function.update_of_ne (Finset.ne_of_mem_erase other)]
  rw [others]
  omega

/-- What waits at one node, and in its channel to the directory. -/
@[ext]
structure Lane where
  out : List Message
  chan : List Message

/-- What is on its way to the directory. -/
@[ext]
structure Uplink where
  lane : NodeId → Lane
  next : List Message
  queue : List Message

variable {F : ProtocolFsm} {π : CpuPort} {s : Settings} {σ σ' : System F π}

/-- The directory sends itself nothing. -/
def System.uplink (s : Settings) (σ : System F π) : Uplink where
  lane i :=
    { out := (σ.cpus i).ntwkOutNext
      chan := if i = s.numProcs then [] else σ.chan i s.numProcs }
  next := σ.dir.requestNext
  queue := σ.dir.requestQueue

theorem uplink_chan {i : NodeId} (bound : i < s.numProcs) :
    ((σ.uplink s).lane i).chan = σ.chan i s.numProcs := if_neg (Nat.ne_of_lt bound)

/-! ## What a node pushes -/

/-- What a node has pushed on its queue between two of its states. -/
def CpuNode.pushed (n n' : CpuNode F π) : List Message := n'.ntwkOutNext.drop n.ntwkOutNext.length

theorem CpuNode.pushed_of {n n' : CpuNode F π} {messages : List Message}
    (out : n'.ntwkOutNext = n.ntwkOutNext ++ messages) : n.pushed n' = messages := by
  rw [pushed, out, List.drop_left]

theorem tickProc_out {n n' : CpuNode F π} {i : NodeId} {st st' : CoherenceStats}
    (step : n.tickProc s i st = .ok (n', st')) :
    ∃ messages, n'.ntwkOutNext = n.ntwkOutNext ++ messages ∧ (n.cpuIn = none → messages = []) := by
  unfold CpuNode.tickProc at step
  split at step
  · cases step
    exact ⟨[], (List.append_nil _).symm, fun _ => rfl⟩
  · next m asked =>
      split at step
      · cases step
      · cases step
        exact ⟨_, rfl, fun free => by cases free.symm.trans asked⟩

theorem tickNtwk_out {n n' : CpuNode F π} {i : NodeId} {st st' : CoherenceStats}
    (step : n.tickNtwk s i st = .ok (n', st')) :
    ∃ messages, n'.ntwkOutNext = n.ntwkOutNext ++ messages ∧ (n.ntwkIn = none → messages = []) := by
  unfold CpuNode.tickNtwk at step
  split at step
  · cases step
    exact ⟨[], (List.append_nil _).symm, fun _ => rfl⟩
  · next m taken =>
      split at step
      · cases step
      · cases step
        exact ⟨_, rfl, fun free => by cases free.symm.trans taken⟩

/-- A tick pushes what its port sends, and what the agents say to the messages it takes in. -/
theorem tick_out {n n' : CpuNode F π} {i : NodeId} {st st' : CoherenceStats}
    (step : n.tick s i st = .ok (n', st')) :
    n'.ntwkOutNext = n.ntwkOutNext ++ n.pushed n' ∧
      ((π.tick s i n.cpu n.cpuInNext).sends = [] → n.cpuIn = none → n.ntwkIn = none → n.pushed n' = []) := by
  unfold CpuNode.tick at step
  simp only at step
  split at step
  · cases step
  · next mid st₁ proc =>
      obtain ⟨asked, out, unasked⟩ := tickProc_out proc
      obtain ⟨answered, out', unanswered⟩ := tickNtwk_out step
      have taken := (tickProc_ticked proc).2.2
      have all : n'.ntwkOutNext =
          n.ntwkOutNext ++ ((π.tick s i n.cpu n.cpuInNext).sends ++ (asked ++ answered)) := by
        rw [out', out]
        simp only [CpuNode.portStep, List.append_assoc]
      have pushed := CpuNode.pushed_of all
      rw [pushed]
      refine ⟨all, fun silent free idle => ?_⟩
      rw [silent, unasked free, unanswered (taken.trans idle)]
      rfl

/-! ## What a step does to what is on its way -/

/-- What an action does to what is on its way. -/
inductive UplinkStep (s : Settings) (σ σ' : System F π) : Action π → Uplink → Prop where
  | push {a : Action π} (i : NodeId) : i < s.numProcs → (a = .tick i ∨ ∃ event, a = .external i event) →
      UplinkStep s σ σ' a
        { σ.uplink s with
          lane := Function.update (σ.uplink s).lane i
            { (σ.uplink s).lane i with
              out := ((σ.uplink s).lane i).out ++ (σ.cpus i).pushed (σ'.cpus i) } }
  | tock (i : NodeId) : i < s.numProcs → UplinkStep s σ σ' (.tock i)
      { σ.uplink s with
        lane := Function.update (σ.uplink s).lane i
          { out := []
            chan := ((σ.uplink s).lane i).chan ++
              ((σ.uplink s).lane i).out.filter (·.dst = s.numProcs) } }
  | deliver (i : NodeId) : UplinkStep s σ σ' (.deliver i) (σ.uplink s)
  | dirDeliver (i : NodeId) {m : Message} {rest : List Message} : i < s.numProcs →
      ((σ.uplink s).lane i).chan = m :: rest → UplinkStep s σ σ' (.dirDeliver i)
        { σ.uplink s with
          lane := Function.update (σ.uplink s).lane i { (σ.uplink s).lane i with chan := rest }
          next := (σ.uplink s).next ++ [m] }
  | dirTock : UplinkStep s σ σ' .dirTock
      { σ.uplink s with next := [], queue := (σ.uplink s).queue ++ (σ.uplink s).next }
  /-- The directory is busy, or there is nothing to take up. -/
  | idle : σ.dir.requestInProgress = true ∨ (σ.uplink s).queue = [] →
      UplinkStep s σ σ' .dirTick (σ.uplink s)
  | takes {m : Message} {rest : List Message} : (σ.uplink s).queue = m :: rest →
      UplinkStep s σ σ' .dirTick { σ.uplink s with queue := rest }
  /-- The head is put back. -/
  | cycles {m : Message} {rest : List Message} : (σ.uplink s).queue = m :: rest →
      ¬ (σ.dir.directory m.block).state.Stable →
        UplinkStep s σ σ' .dirTick
          { σ.uplink s with next := (σ.uplink s).next ++ [m], queue := rest }

/-- A node has pushed messages. -/
theorem uplink_push {a : Action π} {i : NodeId} {n : CpuNode F π} (bound : i < s.numProcs)
    (acts : a = .tick i ∨ ∃ event, a = .external i event)
    (out : n.ntwkOutNext = (σ.cpus i).ntwkOutNext ++ (σ.cpus i).pushed n)
    (cpus : σ'.cpus = Function.update σ.cpus i n) (chan : σ'.chan = σ.chan) (dir : σ'.dir = σ.dir) :
    UplinkStep s σ σ' a (σ'.uplink s) := by
  have link : σ'.uplink s =
      { σ.uplink s with
        lane := Function.update (σ.uplink s).lane i
          { (σ.uplink s).lane i with
            out := ((σ.uplink s).lane i).out ++ (σ.cpus i).pushed (σ'.cpus i) } } := by
    simp only [System.uplink, cpus, chan, dir, Uplink.mk.injEq, and_true]
    funext j
    by_cases eq : j = i
    · subst eq
      simp only [Function.update_self]
      rw [← out]
    · simp only [Function.update_of_ne eq]
  rw [link]
  exact .push i bound acts

/-- One lane has changed, and the directory's queues. -/
theorem uplink_moved {i : NodeId} {x : Lane} {next queue : List Message} (mine : (σ'.uplink s).lane i = x)
    (others : ∀ j ≠ i, (σ'.uplink s).lane j = (σ.uplink s).lane j)
    (next_eq : σ'.dir.requestNext = next) (queue_eq : σ'.dir.requestQueue = queue) :
    σ'.uplink s = { lane := Function.update (σ.uplink s).lane i x, next, queue } := by
  refine Uplink.ext (funext fun j => ?_) next_eq queue_eq
  by_cases eq : j = i
  · subst eq
    exact mine.trans (Function.update_self j x (σ.uplink s).lane).symm
  · exact (others j eq).trans (Function.update_of_ne eq x (σ.uplink s).lane).symm

theorem UplinkStep.to {a : Action π} {u u' : Uplink} (step : UplinkStep s σ σ' a u) (same : u' = u) :
    UplinkStep s σ σ' a u' := same ▸ step

theorem uplink_step (defers : F.Defers) {a : Action π} (step : σ.step s a = .ok σ') :
    UplinkStep s σ σ' a (σ'.uplink s) := by
  cases a with
  | tick i =>
      simp only [System.step] at step
      split at step
      · next here =>
          split at step
          · cases step
          · next n st ticked =>
              cases step
              exact uplink_push here.1 (.inl rfl) (tick_out ticked).1 rfl rfl rfl
      · cases step
  | external i event =>
      simp only [System.step] at step
      split at step
      · next here =>
          split at step
          · cases step
          · next p _ =>
              cases step
              have out : ((σ.cpus i).portStep p).ntwkOutNext =
                  (σ.cpus i).ntwkOutNext ++ (σ.cpus i).pushed ((σ.cpus i).portStep p) := by
                rw [CpuNode.pushed_of rfl]
                rfl
              exact uplink_push here.1 (.inr ⟨event, rfl⟩) out rfl rfl rfl
      · cases step
  | tock i =>
      simp only [System.step] at step
      split at step
      · next here =>
          cases step
          refine (UplinkStep.tock i here.1).to
            (uplink_moved (i := i) (Lane.ext ?_ ?_) (fun j ne => Lane.ext ?_ ?_) rfl rfl)
          · simp only [System.uplink, Function.update_self, CpuNode.tock]
          · simp only [System.uplink, System.send, Function.update_self, if_neg (Nat.ne_of_lt here.1)]
          · simp only [System.uplink, Function.update_of_ne ne]
          · simp only [System.uplink, System.send, Function.update_of_ne ne]
      · cases step
  | deliver i =>
      simp only [System.step] at step
      split at step
      · next here =>
          split at step
          · cases step
          · next m rest _ =>
              cases step
              refine (UplinkStep.deliver i).to (Uplink.ext (funext fun j => Lane.ext ?_ ?_) rfl rfl)
              · simp only [System.uplink]
                by_cases eq : j = i
                · subst eq
                  rw [Function.update_self]
                · rw [Function.update_of_ne eq]
              · simp only [System.uplink]
                split
                · rfl
                · next ne => rw [Function.update_of_ne ne]
      · cases step
  | dirTick =>
      simp only [System.step] at step
      split at step
      · split at step
        · cases step
        · next d st ticked =>
            cases step
            rcases tickDir_queues defers ticked with ⟨quiet, queue, next⟩ | ⟨m, rest, -, head, queue, moved⟩
            · exact (UplinkStep.idle quiet).to (Uplink.ext rfl next queue)
            · rcases moved with ⟨next, deferred⟩ | next
              · exact (UplinkStep.cycles head deferred.1).to (Uplink.ext rfl next queue)
              · exact (UplinkStep.takes head).to (Uplink.ext rfl next queue)
      · cases step
  | dirTock =>
      simp only [System.step] at step
      split at step
      · cases step
        refine UplinkStep.dirTock.to (Uplink.ext (funext fun j => Lane.ext rfl ?_) rfl rfl)
        simp only [System.uplink, System.send]
        split
        · rfl
        · next ne => rw [Function.update_of_ne ne]
      · cases step
  | dirDeliver i =>
      simp only [System.step] at step
      split at step
      · next here =>
          split at step
          · cases step
          · next m rest waiting =>
              cases step
              have mine : ((σ.uplink s).lane i).chan = m :: rest := (uplink_chan here.1).trans waiting
              refine (UplinkStep.dirDeliver i here.1 mine).to
                (uplink_moved (i := i) (Lane.ext ?_ ?_) (fun j ne => Lane.ext ?_ ?_) rfl rfl)
              · rfl
              · simp only [System.uplink, Function.update_self, if_neg (Nat.ne_of_lt here.1)]
              · rfl
              · simp only [System.uplink, Function.update_of_ne ne]
      · cases step

/-! ## How far it is to go -/

namespace Uplink

/-- The eviction notices among the messages. -/
def notices (n : Nat) (u : Uplink) : Nat :=
  ∑ i ∈ Finset.range n, ((u.lane i).out.countP (·.kind = .dataWb) + (u.lane i).chan.countP (·.kind = .dataWb)) +
    (u.next.countP (·.kind = .dataWb) + u.queue.countP (·.kind = .dataWb))

/-- The moves that are left until all messages are taken up. -/
def toGo (n : Nat) (u : Uplink) : Nat :=
  ∑ i ∈ Finset.range n, (4 * (u.lane i).out.length + 3 * (u.lane i).chan.length) +
    (2 * u.next.length + u.queue.length)

/-- An action that moves some of them on. -/
def Awaits (n : Nat) (u : Uplink) : Action π → Prop
  | .tock i => i < n ∧ (u.lane i).out ≠ []
  | .dirDeliver i => i < n ∧ (u.lane i).chan ≠ []
  | .dirTock => u.next ≠ []
  | .dirTick => u.queue ≠ []
  | .tick _ | .deliver _ | .external _ _ => False

end Uplink

/-- The eviction notices that were put out so far, `k` of them before this step. -/
def System.noticesOut (σ : System F π) (a : Action π) (σ' : System F π) (k : Nat) : Nat :=
  match a with
  | .tick i | .external i _ => k + ((σ.cpus i).pushed (σ'.cpus i)).countP (·.kind = .dataWb)
  | .tock _ | .deliver _ | .dirTick | .dirTock | .dirDeliver _ => k

/-- No notice is on its way but those put out. -/
theorem UplinkStep.notices_le {a : Action π} {u : Uplink} (step : UplinkStep s σ σ' a u) {k : Nat}
    (before : (σ.uplink s).notices s.numProcs ≤ k) : u.notices s.numProcs ≤ σ.noticesOut a σ' k := by
  have share (i : NodeId) (bound : i < s.numProcs) (x : Lane) := sum_update bound (σ.uplink s).lane x
    (fun l => l.out.countP (·.kind = .dataWb) + l.chan.countP (·.kind = .dataWb))
  unfold Uplink.notices at before ⊢
  cases step with
  | push i bound acts =>
      have share := share i bound
        { (σ.uplink s).lane i with out := ((σ.uplink s).lane i).out ++ (σ.cpus i).pushed (σ'.cpus i) }
      simp only [List.countP_append] at share
      rcases acts with rfl | ⟨event, rfl⟩
      · simp only [System.noticesOut]
        omega
      · simp only [System.noticesOut]
        omega
  | tock i bound =>
      have share := share i bound
        { out := [], chan := ((σ.uplink s).lane i).chan ++ ((σ.uplink s).lane i).out.filter (·.dst = s.numProcs) }
      rw [List.countP_append] at share
      have fewer : (((σ.uplink s).lane i).out.filter (·.dst = s.numProcs)).countP (·.kind = .dataWb) ≤
          ((σ.uplink s).lane i).out.countP (·.kind = .dataWb) := List.filter_sublist.countP_le
      simp only [System.noticesOut, List.countP_nil] at share ⊢
      omega
  | deliver i => exact before
  | @dirDeliver i m rest bound waiting =>
      have share := share i bound { (σ.uplink s).lane i with chan := rest }
      rw [waiting] at share
      simp only [System.noticesOut, List.countP_append, List.countP_cons, List.countP_nil] at share ⊢
      omega
  | dirTock =>
      simp only [System.noticesOut, List.countP_append, List.countP_nil]
      omega
  | idle quiet => exact before
  | takes head =>
      rw [head, List.countP_cons] at before
      simp only [System.noticesOut]
      omega
  | cycles head _ =>
      rw [head, List.countP_cons] at before
      simp only [System.noticesOut, List.countP_append, List.countP_cons, List.countP_nil]
      omega

/-- Where nothing is pushed or put back, a step moves a message on or leaves all where they are;
    an action that is awaited moves one. -/
theorem UplinkStep.lowers {a : Action π} {u : Uplink} (step : UplinkStep s σ σ' a u)
    (silent : ∀ i < s.numProcs, a = .tick i ∨ (∃ event, a = .external i event) →
      (σ.cpus i).pushed (σ'.cpus i) = [])
    (free : σ.dir.requestInProgress = false) (stable : ∀ b, (σ.dir.directory b).state.Stable) :
    u.toGo s.numProcs < (σ.uplink s).toGo s.numProcs ∨
      u = σ.uplink s ∧ ¬ (σ.uplink s).Awaits s.numProcs a := by
  have share (i : NodeId) (bound : i < s.numProcs) (x : Lane) := sum_update bound (σ.uplink s).lane x
    (fun l => 4 * l.out.length + 3 * l.chan.length)
  unfold Uplink.toGo
  cases step with
  | push i bound acts =>
      right
      rw [silent i bound acts, List.append_nil, Function.update_eq_self]
      refine ⟨rfl, ?_⟩
      rcases acts with rfl | ⟨event, rfl⟩ <;> exact id
  | tock i bound =>
      by_cases none : ((σ.uplink s).lane i).out = []
      · right
        have same : (⟨[], ((σ.uplink s).lane i).chan ++
            ((σ.uplink s).lane i).out.filter (·.dst = s.numProcs)⟩ : Lane) = (σ.uplink s).lane i :=
          Lane.ext none.symm (by simp [none])
        rw [same, Function.update_eq_self]
        exact ⟨rfl, fun awaits => awaits.2 none⟩
      · left
        have share := share i bound
          ⟨[], ((σ.uplink s).lane i).chan ++ ((σ.uplink s).lane i).out.filter (·.dst = s.numProcs)⟩
        have fewer := ((σ.uplink s).lane i).out.length_filter_le (·.dst = s.numProcs)
        have some := List.length_pos_iff.mpr none
        simp only [List.length_append, List.length_nil] at share ⊢
        omega
  | deliver i => exact .inr ⟨rfl, id⟩
  | @dirDeliver i m rest bound waiting =>
      left
      have share := share i bound { (σ.uplink s).lane i with chan := rest }
      rw [waiting] at share
      simp only [List.length_append, List.length_cons, List.length_nil] at share ⊢
      omega
  | dirTock =>
      by_cases none : (σ.uplink s).next = []
      · right
        exact ⟨Uplink.ext rfl none.symm (by simp [none]), fun awaits => awaits none⟩
      · left
        have some := List.length_pos_iff.mpr none
        simp only [List.length_append, List.length_nil]
        omega
  | idle quiet =>
      right
      have empty := quiet.resolve_left (by simp [free])
      exact ⟨rfl, fun awaits => awaits empty⟩
  | takes head =>
      left
      simp only [head, List.length_cons]
      omega
  | cycles _ transient => exact absurd (stable _) transient

/-- Notices have four moves to go at most. -/
theorem Uplink.toGo_le {n : Nat} {u : Uplink}
    (lanes : ∀ i < n, ∀ m ∈ (u.lane i).out ++ (u.lane i).chan, m.kind = .dataWb)
    (queues : ∀ m ∈ u.next ++ u.queue, m.kind = .dataWb) : u.toGo n ≤ 4 * u.notices n := by
  have all {l : List Message} (each : ∀ m ∈ l, m.kind = .dataWb) :
      l.length = l.countP (·.kind = .dataWb) :=
    (List.countP_eq_length.mpr fun m mem => by simp [each m mem]).symm
  have lane : ∑ i ∈ Finset.range n, (4 * (u.lane i).out.length + 3 * (u.lane i).chan.length) ≤
      4 * ∑ i ∈ Finset.range n,
        ((u.lane i).out.countP (·.kind = .dataWb) + (u.lane i).chan.countP (·.kind = .dataWb)) := by
    rw [Finset.mul_sum]
    refine Finset.sum_le_sum fun i mem => ?_
    have here := lanes i (Finset.mem_range.mp mem)
    rw [all fun m out => here m (List.mem_append_left _ out), all fun m chan => here m (List.mem_append_right _ chan)]
    omega
  have next := all fun m mem => queues m (List.mem_append_left _ mem)
  have queue := all fun m mem => queues m (List.mem_append_right _ mem)
  unfold toGo notices
  omega

/-- There is nothing to go where nothing is on its way. -/
theorem Uplink.toGo_eq_zero {n : Nat} {u : Uplink} : u.toGo n = 0 ↔
    (∀ i < n, (u.lane i).out = [] ∧ (u.lane i).chan = []) ∧ u.next = [] ∧ u.queue = [] := by
  unfold toGo
  simp only [Nat.add_eq_zero_iff, Finset.sum_eq_zero_iff, Finset.mem_range, Nat.mul_eq_zero,
    List.length_eq_zero_iff]
  simp

/-- A round moves something on where there is something to move. -/
theorem Round.awaits {actions : List (Action π)} (round : Round s σ actions)
    (some : (σ.uplink s).toGo s.numProcs ≠ 0) :
    ∃ h ∈ actions, (σ.uplink s).Awaits s.numProcs h := by
  by_contra none
  have idle (h : Action π) (mem : h ∈ actions) : ¬ (σ.uplink s).Awaits s.numProcs h :=
    fun awaits => none ⟨h, mem, awaits⟩
  refine some (Uplink.toGo_eq_zero.mpr ⟨fun i bound => ⟨?_, ?_⟩, ?_, ?_⟩)
  · by_contra out
    exact idle _ (round.tock i bound) ⟨bound, out⟩
  · by_contra chan
    have sent : σ.chan i s.numProcs ≠ [] := by
      rwa [uplink_chan bound] at chan
    exact idle _ (round.dirDeliver i bound sent) ⟨bound, chan⟩
  · by_contra next
    exact idle _ round.dirTock next
  · by_contra queue
    exact idle _ round.dirTick queue

end Coherence
