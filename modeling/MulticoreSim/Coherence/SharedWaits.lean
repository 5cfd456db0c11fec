import Mathlib.Algebra.BigOperators.Group.Finset.Piecewise
import Mathlib.Algebra.Order.BigOperators.Group.Finset
import MulticoreSim.Coherence.DirectoryOrder
import MulticoreSim.Coherence.SharedWork

/-! # Somebody's message is next

While nobody gets anywhere, a message that would take somebody on comes closer to
where it is read, or memory's answer comes closer.
-/

namespace Coherence

open DirectoryProtocol Station

/-- While memory is at work the directory reads nothing. -/
theorem tickDir_busy {F : ProtocolFsm} {s : Settings} {d d' : DirectoryController} {clock : Timestamp}
    {st st' : CoherenceStats} (busy : d.requestInProgress = true) (step : System.tickDir F s d clock st = .ok (d', st')) :
    d'.requestInProgress = false ∧ d.responseTime ≤ clock ∨
      clock < d.responseTime ∧ d'.requestInProgress = true ∧ d'.responseTime = d.responseTime := by
  have kept : System.processQueue F s { d with currentClock := clock } st =
      .ok ({ d with currentClock := clock }, st) := by
    rw [System.processQueue, if_pos busy]
  unfold System.tickDir at step
  rw [kept] at step
  obtain rfl := congrArg Prod.fst (Except.ok.inj step)
  simp only [DirectoryController.respond]
  by_cases due : d.responseTime ≤ clock
  · rw [if_pos ⟨busy, due⟩]
    left
    split <;> exact ⟨rfl, due⟩
  · rw [if_neg fun both => due both.2]
    exact .inr ⟨Nat.lt_of_not_le due, busy, rfl⟩

/-! ## How many messages there may be -/

/-- A list's length, counted by what its members are mapped to. -/
theorem length_eq_sum_countP {α β : Type} [DecidableEq β] {f : α → β} {S : Finset β} {l : List α}
    (mapped : ∀ x ∈ l, f x ∈ S) : l.length = ∑ b ∈ S, l.countP (f · = b) := by
  have all : ∑ b ∈ S, (l.map f : Multiset β).count b = (l.map f : Multiset β).card := by
    refine Multiset.sum_count_eq_card fun b mem => ?_
    obtain ⟨x, inside, rfl⟩ := List.mem_map.mp (Multiset.mem_coe.mp mem)
    exact mapped x inside
  rw [Multiset.coe_card, List.length_map] at all
  rw [← all]
  refine Finset.sum_congr rfl fun b _ => ?_
  rw [Multiset.coe_count, List.count, List.countP_map]
  exact List.countP_congr fun x _ => by simp

theorem sum_one_le (S : Finset MessageKind) (k : MessageKind) : ∑ k' ∈ S, one k k' ≤ 1 := by
  simp only [one]
  rw [Finset.sum_ite_eq' S k fun _ => 1]
  split <;> omega

/-- A slot without notices accounts for a request and an answer at most. -/
theorem sum_up_le (S : Finset MessageKind) {x : Slot} (unwritten : x.writebacks = 0) : ∑ k ∈ S, up x k ≤ 2 := by
  have request : ∑ k ∈ S, upRequest x.phase k ≤ 1 := by
    cases x.phase with
    | asked r => exact sum_one_le S (requestKind r)
    | rest | waiting | fetching g | granted g => simp [upRequest]
  have reply : ∑ k ∈ S, upReply x.probe k ≤ 1 := by
    cases x.probe with
    | answered r => exact sum_one_le S (replyKind r)
    | idle | sent o => simp [upReply]
  simp only [up, unwritten, Nat.zero_mul, Nat.add_zero, Finset.sum_add_distrib]
  omega

/-! ## Nobody has got anywhere -/

section

variable {F : ProtocolFsm} {L : Laws F} {s : Settings} {traces : NodeId → List Instruction}
  {σ σ' : System F ficiPort} {lines lines' : BlockId → Block NodeId} {b : BlockId} {i : NodeId}
  {a : Action ficiPort} {m : Message}

theorem Underway.unwritten (under : Underway L s traces σ lines) (b : BlockId) (i : NodeId) :
    ((lines b).slot i).writebacks = 0 := ((under.settled.closed b).slots i).notices

/-- Memory is at work for a node that is waiting for it. -/
theorem Underway.busy_iff (under : Underway L s traces σ lines) :
    σ.dir.requestInProgress = true ↔ ∃ b j g, ((lines b).slot j).phase = .fetching g := by
  constructor
  · intro busy
    refine ⟨σ.dir.tagToSend, σ.dir.targetNode, if σ.dir.sendE then .cleanExclusive else .data, ?_⟩
    rw [(under.shows.abs _).fetching, DirectoryController.owes, if_pos ⟨busy, rfl, rfl⟩]
  · rintro ⟨b, j, g, fetching⟩
    rw [(under.shows.abs b).fetching, DirectoryController.owes] at fetching
    split at fetching
    · next owed => exact owed.1
    · cases fetching

/-- No order or grant has been taken in, and none sent. -/
theorem Unmoved.arriving (under : Underway L s traces σ lines) (under' : Underway L s traces σ' lines')
    (unmoved : Unmoved s σ σ' lines lines') (bound : i < s.numProcs) (b : BlockId) :
    orders b (σ'.arriving s i) = orders b (σ.arriving s i) := by
  obtain ⟨phase, probe⟩ := unmoved.still b i
  rw [(under.shows.abs b).downward i bound, (under'.shows.abs b).downward i bound, down, down, phase, probe]

/-- No request or answer has been taken in, and none sent. -/
theorem Unmoved.carried (under : Underway L s traces σ lines) (under' : Underway L s traces σ' lines')
    (unmoved : Unmoved s σ σ' lines lines') (bound : i < s.numProcs) (b : BlockId) (k : MessageKind) :
    about b (σ'.carried s i) k = about b (σ.carried s i) k := by
  obtain ⟨phase, probe⟩ := unmoved.still b i
  rw [(under.shows.abs b).upward i bound, (under'.shows.abs b).upward i bound, up, up, phase, probe,
    under.unwritten, under'.unwritten]

theorem Unmoved.busy (under : Underway L s traces σ lines) (under' : Underway L s traces σ' lines')
    (unmoved : Unmoved s σ σ' lines lines') : σ'.dir.requestInProgress = σ.dir.requestInProgress := by
  rw [Bool.eq_iff_iff, under.busy_iff, under'.busy_iff]
  exact exists_congr fun b => exists_congr fun j => by rw [(unmoved.still b j).1]

theorem Unmoved.stable (under : Underway L s traces σ lines) (under' : Underway L s traces σ' lines')
    (unmoved : Unmoved s σ σ' lines lines') (b : BlockId) : (lines' b).mode.Stable ↔ (lines b).mode.Stable := by
  rw [Block.stable_iff (under.shows.abs b).inv, Block.stable_iff (under'.shows.abs b).inv]
  exact forall_congr' fun j => by rw [(unmoved.still b j).1]

/-! ## Messages to a node -/

/-- How far the first message to a node has to go. -/
def System.mail (s : Settings) (σ : System F ficiPort) (i : NodeId) : Nat :=
  if (σ.cpus i).ntwkIn ≠ none then 1
  else if (σ.cpus i).ntwkInNext ≠ none then 2
  else if σ.chan s.numProcs i ≠ [] then 3
  else 4

/-- The action that takes it on. -/
def fetches (i : NodeId) : Nat → Action ficiPort
  | 1 => .tick i
  | 2 => .tock i
  | 3 => .deliver i
  | _ => .dirTock

theorem mail_same (ntwkIn : (σ'.cpus i).ntwkIn = (σ.cpus i).ntwkIn)
    (ntwkInNext : (σ'.cpus i).ntwkInNext = (σ.cpus i).ntwkInNext)
    (chan : σ'.chan s.numProcs i = σ.chan s.numProcs i) : σ'.mail s i = σ.mail s i := by
  simp only [System.mail, ntwkIn, ntwkInNext, chan]

theorem mail_le (σ : System F ficiPort) : σ.mail s i ≤ 4 := by
  unfold System.mail
  split_ifs <;> omega

/-- What the awaited action finds. -/
theorem fetches_mail (awaited : fetches i (σ.mail s i) = a) :
    a = .tick i ∧ (σ.cpus i).ntwkIn ≠ none ∨
      a = .tock i ∧ (σ.cpus i).ntwkInNext ≠ none ∧ σ.mail s i = 2 ∨
      a = .deliver i ∧ σ.chan s.numProcs i ≠ [] ∧ σ.mail s i = 3 ∨
      a = .dirTock ∧ (σ.cpus i).inbox = [] ∧ σ.chan s.numProcs i = [] ∧ σ.mail s i = 4 := by
  subst awaited
  unfold System.mail CpuNode.inbox
  split_ifs with read next chan
  · exact .inl ⟨rfl, read⟩
  · exact .inr (.inl ⟨rfl, next, rfl⟩)
  · exact .inr (.inr (.inl ⟨rfl, chan, rfl⟩))
  · simp only [ne_eq, not_not] at read next chan
    exact .inr (.inr (.inr ⟨rfl, by rw [read, next]; rfl, chan, rfl⟩))

/-- Where nothing is taken in, the first message stays or comes closer; the awaited action brings it closer. -/
theorem mail_step (step : σ.step s a = .ok σ')
    (kept : ∀ b, orders b (σ'.arriving s i) = orders b (σ.arriving s i)) (some : σ.arriving s i ≠ []) :
    σ'.mail s i < σ.mail s i ∨ a ≠ fetches i (σ.mail s i) ∧ σ'.mail s i = σ.mail s i := by
  have notDir {j : NodeId} (below : j < s.numProcs) : s.numProcs ≠ j := ne_of_gt below
  cases a with
  | tick j =>
      obtain ⟨-, n, st, ticked, rfl⟩ := step_tick step
      by_cases eq : i = j
      · subst eq
        obtain ⟨frame, -, read⟩ := tick_ticked ticked
        have next : n.ntwkInNext = (σ.cpus i).ntwkInNext := frame.ntwkInNext
        have unread : (σ.cpus i).ntwkIn = none := by
          by_contra some
          obtain ⟨m, arrived⟩ := Option.ne_none_iff_exists'.mp some
          have lost := congrArg List.length (kept m.block)
          simp only [System.arriving, CpuNode.inbox, Function.update_self, read, next, arrived, Option.toList_none,
            Option.toList_some, List.nil_append, List.cons_append, orders_cons, if_true, List.length_cons] at lost
          omega
        refine .inr ⟨fun awaited => ?_, mail_same ?_ ?_ rfl⟩
        · rcases fetches_mail awaited.symm with ⟨-, some⟩ | ⟨no, -⟩ | ⟨no, -⟩ | ⟨no, -⟩
          · exact some unread
          all_goals cases no
        · simp only [Function.update_self]
          exact read.trans unread.symm
        · simp only [Function.update_self]
          exact next
      · refine .inr ⟨fun awaited => ?_, mail_same ?_ ?_ rfl⟩
        · rcases fetches_mail awaited.symm with ⟨same, -⟩ | ⟨no, -⟩ | ⟨no, -⟩ | ⟨no, -⟩
          · exact eq (Action.tick.inj same).symm
          all_goals cases no
        · simp only [Function.update_of_ne eq]
        · simp only [Function.update_of_ne eq]
  | tock j =>
      obtain ⟨below, rfl⟩ := step_tock step
      have chan : System.send σ.chan j (σ.cpus j).ntwkOutNext s.numProcs i = σ.chan s.numProcs i := by
        rw [send_of_ne _ _ (notDir below)]
      by_cases eq : i = j
      · subst eq
        simp only [System.mail, Function.update_self, CpuNode.tock, chan]
        by_cases waits : σ.chan s.numProcs i = [] <;>
          cases read : (σ.cpus i).ntwkIn <;> cases next : (σ.cpus i).ntwkInNext <;>
            simp [fetches, waits]
      · refine .inr ⟨fun awaited => ?_, mail_same ?_ ?_ chan⟩
        · rcases fetches_mail awaited.symm with ⟨no, -⟩ | ⟨same, -⟩ | ⟨no, -⟩ | ⟨no, -⟩
          · cases no
          · exact eq (Action.tock.inj same).symm
          all_goals cases no
        · simp only [Function.update_of_ne eq]
        · simp only [Function.update_of_ne eq]
  | deliver j =>
      obtain ⟨below, m, rest, queue, rfl⟩ := step_deliver step
      by_cases eq : i = j
      · subst eq
        simp only [System.mail, Function.update_self]
        cases read : (σ.cpus i).ntwkIn <;> cases next : (σ.cpus i).ntwkInNext <;>
          simp [fetches, queue]
      · refine .inr ⟨fun awaited => ?_, mail_same ?_ ?_ ?_⟩
        · rcases fetches_mail awaited.symm with ⟨no, -⟩ | ⟨no, -⟩ | ⟨same, -⟩ | ⟨no, -⟩
          · cases no
          · cases no
          · exact eq (Action.deliver.inj same).symm
          · cases no
        · simp only [Function.update_of_ne eq]
        · simp only [Function.update_of_ne eq]
        · simp only [Function.update_self, Function.update_of_ne eq]
  | external j event => exact event.elim
  | dirTick =>
      obtain ⟨-, d, st, -, rfl⟩ := step_dirTick step
      refine .inr ⟨fun awaited => ?_, mail_same rfl rfl rfl⟩
      rcases fetches_mail awaited.symm with ⟨no, -⟩ | ⟨no, -⟩ | ⟨no, -⟩ | ⟨no, -⟩ <;> cases no
  | dirTock =>
      obtain ⟨-, rfl⟩ := step_dirTock step
      simp only [System.arriving, CpuNode.inbox] at some
      simp only [System.mail, send_self]
      cases read : (σ.cpus i).ntwkIn <;> cases next : (σ.cpus i).ntwkInNext <;>
        simp [fetches]
      by_cases chan : σ.chan s.numProcs i = []
      · simp only [read, next, chan, Option.toList_none, List.nil_append] at some
        have heading : ∃ x ∈ σ.dir.ntwkOutNext, x.dst = i := by
          simpa [List.filter_eq_nil_iff] using some
        simp [chan, heading]
      · simp [chan]
  | dirDeliver j =>
      obtain ⟨below, m, rest, -, rfl⟩ := step_dirDeliver step
      refine .inr ⟨fun awaited => ?_, mail_same rfl rfl ?_⟩
      · rcases fetches_mail awaited.symm with ⟨no, -⟩ | ⟨no, -⟩ | ⟨no, -⟩ | ⟨no, -⟩ <;> cases no
      · simp only [Function.update_of_ne (notDir below)]

/-! ## Messages to the directory -/

/-- How far a message has to go to be read by the directory, and the action that takes it on. No
    more than `most` messages are ahead of one that arrives. -/
inductive Inbound (s : Settings) (most : Nat) (σ : System F ficiPort) (m : Message) :
    Nat → Action ficiPort → Prop where
  | queue (pre post : List Message) : σ.dir.requestQueue = pre ++ m :: post →
      Inbound s most σ m (pre.length + 1) .dirTick
  | next (pre post : List Message) : σ.dir.requestNext = pre ++ m :: post →
      Inbound s most σ m (σ.dir.requestQueue.length + pre.length + 2) .dirTock
  | chan {i : NodeId} (pre post : List Message) : i < s.numProcs → σ.chan i s.numProcs = pre ++ m :: post →
      Inbound s most σ m (most + pre.length + 3) (.dirDeliver i)
  | out {i : NodeId} (pre post : List Message) : i < s.numProcs → (σ.cpus i).ntwkOutNext = pre ++ m :: post →
      Inbound s most σ m (most + (σ.chan i s.numProcs).length + pre.length + 4) (.tock i)

variable {most d : Nat} {h : Action ficiPort}

/-- Messages behind it do not hold a message up. -/
theorem Inbound.grows (inbound : Inbound s most σ m d h) (queue : σ'.dir.requestQueue = σ.dir.requestQueue)
    (next : ∃ more, σ'.dir.requestNext = σ.dir.requestNext ++ more)
    (chan : ∀ i < s.numProcs, σ'.chan i s.numProcs = σ.chan i s.numProcs)
    (out : ∀ i < s.numProcs, ∃ more, (σ'.cpus i).ntwkOutNext = (σ.cpus i).ntwkOutNext ++ more) :
    Inbound s most σ' m d h := by
  cases inbound with
  | queue pre post here => exact .queue pre post (queue.trans here)
  | next pre post here =>
      obtain ⟨more, next⟩ := next
      rw [← queue]
      exact .next pre (post ++ more) (by rw [next, here, List.append_assoc, List.cons_append])
  | chan pre post bound here => exact .chan pre post bound ((chan _ bound).trans here)
  | @out i pre post bound here =>
      obtain ⟨more, out⟩ := out i bound
      rw [← chan i bound]
      exact .out pre (post ++ more) bound (by rw [out, here, List.append_assoc, List.cons_append])

/-- The message has come closer, or this was not the action it waits for. -/
def Nearer (s : Settings) (most : Nat) (σ' : System F ficiPort) (m : Message) (a : Action ficiPort) (d : Nat)
    (h : Action ficiPort) : Prop :=
  (∃ d' h', Inbound s most σ' m d' h' ∧ d' < d) ∨ a ≠ h ∧ Inbound s most σ' m d h

theorem Inbound.tock (inbound : Inbound s most σ m d h) (net : Network s σ) (step : σ.step s (.tock i) = .ok σ') :
    Nearer s most σ' m (.tock i) d h := by
  obtain ⟨below, rfl⟩ := step_tock step
  have sends : (σ.cpus i).ntwkOutNext.filter (·.dst = s.numProcs) = (σ.cpus i).ntwkOutNext :=
    filter_dst fun x mem => (net.out i x mem).2
  cases inbound with
  | queue pre post here => exact .inr ⟨by simp, .queue pre post here⟩
  | next pre post here => exact .inr ⟨by simp, .next pre post here⟩
  | @chan j pre post bound here =>
      refine .inr ⟨by simp, ?_⟩
      by_cases eq : j = i
      · subst eq
        refine .chan pre (post ++ (σ.cpus j).ntwkOutNext) bound ?_
        simp only [send_self, sends, here, List.append_assoc, List.cons_append]
      · refine .chan pre post bound ?_
        simp only [send_of_ne _ _ eq]
        exact here
  | @out j pre post bound here =>
      by_cases eq : j = i
      · subst eq
        refine .inl ⟨_, _, .chan (σ.chan j s.numProcs ++ pre) post bound ?_, ?_⟩
        · simp only [send_self, sends]
          rw [here, List.append_assoc]
        · rw [List.length_append]
          omega
      · refine .inr ⟨fun same => eq (Action.tock.inj same).symm, ?_⟩
        have chan : System.send σ.chan i (σ.cpus i).ntwkOutNext j s.numProcs = σ.chan j s.numProcs := by
          rw [send_of_ne _ _ eq]
        rw [← chan]
        refine .out (σ := { σ with
          cpus := Function.update σ.cpus i (σ.cpus i).tock
          chan := System.send σ.chan i (σ.cpus i).ntwkOutNext
          ticked := Function.update σ.ticked i false }) pre post bound ?_
        simp only [Function.update_of_ne eq]
        exact here

theorem Inbound.dirTock (inbound : Inbound s most σ m d h) (step : σ.step s .dirTock = .ok σ') :
    Nearer s most σ' m .dirTock d h := by
  obtain ⟨-, rfl⟩ := step_dirTock step
  have others {j : NodeId} (bound : j < s.numProcs) :
      System.send σ.chan s.numProcs σ.dir.ntwkOutNext j s.numProcs = σ.chan j s.numProcs := by
    rw [send_of_ne _ _ (Nat.ne_of_lt bound)]
  cases inbound with
  | queue pre post here =>
      refine .inr ⟨by simp, .queue pre (post ++ σ.dir.requestNext) ?_⟩
      simp only [DirectoryController.tock, here, List.append_assoc, List.cons_append]
  | next pre post here =>
      refine .inl ⟨_, _, .queue (σ.dir.requestQueue ++ pre) post ?_, ?_⟩
      · simp only [DirectoryController.tock, here, List.append_assoc]
      · rw [List.length_append]
        omega
  | chan pre post bound here => exact .inr ⟨by simp, .chan pre post bound ((others bound).trans here)⟩
  | @out j pre post bound here =>
      refine .inr ⟨by simp, ?_⟩
      rw [← others bound]
      exact .out (σ := { σ with
        dir := { σ.dir.tock with ntwkOutNext := [] }
        chan := System.send σ.chan s.numProcs σ.dir.ntwkOutNext
        ticked := Function.update σ.ticked s.numProcs false
        clock := σ.clock + 1 }) pre post bound here

theorem Inbound.dirDeliver (inbound : Inbound s most σ m d h) (step : σ.step s (.dirDeliver i) = .ok σ')
    (few : σ.dir.requestQueue.length + σ.dir.requestNext.length ≤ most) : Nearer s most σ' m (.dirDeliver i) d h := by
  obtain ⟨below, r, rest, waiting, rfl⟩ := step_dirDeliver step
  cases inbound with
  | queue pre post here => exact .inr ⟨by simp, .queue pre post here⟩
  | next pre post here =>
      refine .inr ⟨by simp, .next (σ := { σ with
        dir := { σ.dir with requestNext := σ.dir.requestNext ++ [r] }
        chan := Function.update σ.chan i (Function.update (σ.chan i) s.numProcs rest) }) pre (post ++ [r]) ?_⟩
      simp only [here, List.append_assoc, List.cons_append]
  | @chan j pre post bound here =>
      by_cases eq : j = i
      · subst eq
        rw [waiting] at here
        cases pre with
        | nil =>
            cases here
            refine .inl ⟨_, _, .next σ.dir.requestNext [] rfl, ?_⟩
            simp only [List.length_nil]
            omega
        | cons x pre =>
            rw [List.cons_append, List.cons.injEq] at here
            refine .inl ⟨_, _, .chan pre post bound ?_, ?_⟩
            · simp only [Function.update_self]
              exact here.2
            · simp only [List.length_cons]
              omega
      · refine .inr ⟨fun same => eq (Action.dirDeliver.inj same).symm, .chan pre post bound ?_⟩
        simp only [Function.update_of_ne eq]
        exact here
  | @out j pre post bound here =>
      by_cases eq : j = i
      · subst eq
        refine .inl ⟨_, _, .out pre post bound here, ?_⟩
        simp only [Function.update_self, waiting, List.length_cons]
        omega
      · refine .inr ⟨by simp, ?_⟩
        have chan : Function.update σ.chan i (Function.update (σ.chan i) s.numProcs rest) j = σ.chan j :=
          Function.update_of_ne eq _ _
        rw [← chan]
        exact .out (σ := { σ with
          dir := { σ.dir with requestNext := σ.dir.requestNext ++ [r] }
          chan := Function.update σ.chan i (Function.update (σ.chan i) s.numProcs rest) }) pre post bound here

/-- The directory's tick takes the head in only for good, where nothing gets anywhere by it. -/
theorem Inbound.dirTick (inbound : Inbound s most σ m d h) (net : Network s σ) (defers : F.Defers)
    (free : σ.dir.requestInProgress = false) (step : σ.step s .dirTick = .ok σ')
    (kept : ∀ i < s.numProcs, ∀ b k, about b (σ'.carried s i) k = about b (σ.carried s i) k)
    (ready : ¬Deferrable m.kind ∨ (σ.dir.directory m.block).state.Stable) : Nearer s most σ' m .dirTick d h := by
  obtain ⟨-, dir, st, ticked, rfl⟩ := step_dirTick step
  cases inbound with
  | queue pre post here =>
      cases pre with
      | nil =>
          obtain ⟨queue, ⟨-, transient, deferrable⟩ | next⟩ := tickDir_head defers free here ticked
          · exact absurd ready (not_or.mpr ⟨not_not.mpr deferrable, transient⟩)
          · have bound : m.src < s.numProcs := net.queued m (by simp [here])
            have lost := kept m.src bound m.block m.kind
            simp only [System.carried, queue, next, here, List.nil_append, List.filter_append, List.filter_cons,
              decide_true, if_true, about_append, about_cons, List.count_singleton_self] at lost
            omega
      | cons x pre =>
          obtain ⟨queue, -⟩ := tickDir_head defers free here ticked
          refine .inl ⟨_, _, .queue pre post queue, ?_⟩
          simp only [List.length_cons]
          omega
  | next pre post here =>
      rcases tickDir_queues defers ticked with ⟨-, queue, next⟩ | ⟨r, rest, -, head, queue, next⟩
      · refine .inr ⟨by simp, ?_⟩
        rw [← queue]
        exact .next pre post (next.trans here)
      · have moved : ∃ post, dir.requestNext = pre ++ m :: post := by
          rcases next with ⟨next, -⟩ | next
          · exact ⟨post ++ [r], by rw [next, here, List.append_assoc, List.cons_append]⟩
          · exact ⟨post, next.trans here⟩
        obtain ⟨post', next'⟩ := moved
        refine .inl ⟨_, _, .next pre post' next', ?_⟩
        simp only [queue, head, List.length_cons]
        omega
  | chan pre post bound here => exact .inr ⟨by simp, .chan pre post bound here⟩
  | out pre post bound here => exact .inr ⟨by simp, .out pre post bound here⟩

/-- A message that the directory would take in comes closer to it, and the awaited action brings it closer. -/
theorem Inbound.step (inbound : Inbound s most σ m d h) (net : Network s σ) (defers : F.Defers)
    (free : σ.dir.requestInProgress = false) (step : σ.step s a = .ok σ')
    (few : σ.dir.requestQueue.length + σ.dir.requestNext.length ≤ most)
    (kept : ∀ i < s.numProcs, ∀ b k, about b (σ'.carried s i) k = about b (σ.carried s i) k)
    (ready : ¬Deferrable m.kind ∨ (σ.dir.directory m.block).state.Stable) : Nearer s most σ' m a d h := by
  cases a with
  | tick j =>
      obtain ⟨-, n, st, ticked, rfl⟩ := step_tick step
      refine .inr ⟨?_, inbound.grows rfl ⟨[], (List.append_nil _).symm⟩ (fun _ _ => rfl) fun i _ => ?_⟩
      · rintro rfl
        cases inbound
      · by_cases eq : i = j
        · subst eq
          simp only [Function.update_self]
          exact ⟨_, (tick_out ticked).1⟩
        · simp only [Function.update_of_ne eq]
          exact ⟨[], (List.append_nil _).symm⟩
  | tock j => exact inbound.tock net step
  | deliver j =>
      obtain ⟨-, x, rest, -, rfl⟩ := step_deliver step
      refine .inr ⟨?_, inbound.grows rfl ⟨[], (List.append_nil _).symm⟩ (fun i bound => ?_) fun i _ => ?_⟩
      · rintro rfl
        cases inbound
      · simp only [Function.update_of_ne (Nat.ne_of_lt bound)]
      · by_cases eq : i = j
        · subst eq
          simp only [Function.update_self]
          exact ⟨[], (List.append_nil _).symm⟩
        · simp only [Function.update_of_ne eq]
          exact ⟨[], (List.append_nil _).symm⟩
  | external j event => exact event.elim
  | dirTick => exact inbound.dirTick net defers free step kept ready
  | dirTock => exact inbound.dirTock step
  | dirDeliver j => exact inbound.dirDeliver step few

end

end Coherence
