import Mathlib.Data.List.Forall2
import MulticoreSim.Library.Requeue
import MulticoreSim.Coherence.Bookkeeping

/-! # The order in which the directory serves

The directory alone under any stream of messages. Messages are numbered as they
arrive; that the head was dequeued or cycled is read off the two queues.
-/

namespace Coherence

/-- A directory, the messages it was sent so far, and where each of them is. -/
structure Traffic where
  dir : DirectoryController
  clock : Timestamp := 0
  stats : CoherenceStats := {}
  arrived : List Message := []
  line : Requeue := {}

inductive TrafficAction where
  /-- A message arrives in `request_next`. -/
  | receive (m : Message)
  | tick
  | tock

/-- The head stayed, was cycled or was dequeued. -/
def followed (q : Requeue) (d d' : DirectoryController) : Requeue :=
  if d'.requestQueue.length = d.requestQueue.length then q
  else if d.requestNext.length < d'.requestNext.length then q.putBack
  else q.serve

namespace Traffic

variable (F : ProtocolFsm) (s : Settings)

def step (t : Traffic) : TrafficAction → Except String Traffic
  | .receive m =>
      .ok
        { t with
          dir := { t.dir with requestNext := t.dir.requestNext ++ [m] }
          arrived := t.arrived ++ [m]
          line := t.line.arrive }
  | .tick =>
      match System.tickDir F s t.dir t.clock t.stats with
      | .error what => .error what
      | .ok (d, st) => .ok { t with dir := d, stats := st, line := followed t.line t.dir d }
  | .tock =>
      .ok { t with dir := { t.dir.tock with ntwkOutNext := [] }, clock := t.clock + 1 }

def machine : Machine Traffic TrafficAction String := ⟨step F s⟩

def initial : Traffic := { dir := .make s }

end Traffic

/-- The kinds `cycle_queue` is called on. -/
def Deferrable (k : MessageKind) : Prop := k = .dataWb ∨ k = .gets ∨ k = .getm ∨ k = .getx

instance (k : MessageKind) : Decidable (Deferrable k) := inferInstanceAs (Decidable (_ ∨ _))

/-- The message has to wait for the round its block's entry is in. -/
def Deferred (e : DirEntry) (r : Message) : Prop := ¬e.state.Stable ∧ Deferrable r.kind

instance (e : DirEntry) (r : Message) : Decidable (Deferred e r) := by
  unfold Deferred DirState.Stable
  infer_instance

/-! ## What one tick does to the queues -/

/-- A protocol that puts back requests only, and those only while a round is on. -/
def ProtocolFsm.Defers (F : ProtocolFsm) : Prop :=
  ∀ s e r o, F.handle s e r = .ok o → o.cycled = true → Deferred e r

section

variable {s : Settings} {e : DirEntry} {r : Message} {o : Outcome}

theorem invackSM_keeps {tooMany : String} (step : Outcome.invackSM e r tooMany = .ok o) :
    o.cycled = false := by
  unfold Outcome.invackSM at step
  simp only at step
  split at step
  · split at step
    · split at step <;> cases step <;> rfl
    · cases step
      rfl
  · cases step

theorem invackOwned_keeps {tooMany : String} (step : Outcome.invackOwned e r tooMany = .ok o) :
    o.cycled = false := by
  unfold Outcome.invackOwned at step
  simp only at step
  split at step
  · split at step
    · split at step <;> cases step <;> rfl
    · cases step
      rfl
  · cases step

theorem askOwner_keeps {dirty : Bool} {next : DirState} {fromOwner : String}
    (step : Outcome.askOwner e r dirty next fromOwner = .ok o) : o.cycled = false := by
  unfold Outcome.askOwner at step
  split at step <;> cases step
  rfl

theorem reclaim_keeps {next : DirState} : (Outcome.reclaim s e r next).cycled = false := by
  unfold Outcome.reclaim
  simp only
  split <;> rfl

theorem dataOwned_keeps {always : Bool} : (Outcome.dataOwned e r always).cycled = false := by
  unfold Outcome.dataOwned
  simp only
  split <;> rfl

theorem mi_defers : mi.Defers := by
  intro s e r o step cycled
  simp only [mi, miHandle] at step
  split at step
  all_goals cases step <;> first | (cases cycled; done) | simp [Deferred, Deferrable, DirState.Stable, *]

theorem msi_defers : msi.Defers := by
  intro s e r o step cycled
  simp only [msi, msiHandle] at step
  split at step
  case h_7 =>
    split at step <;> cases step <;> cases cycled
  case h_9 =>
    unfold msiInvack at step
    simp only at step
    split at step
    · split at step <;> cases step <;> cases cycled
    · cases step
      cases cycled
  all_goals cases step <;> first | (cases cycled; done) | simp [Deferred, Deferrable, DirState.Stable, *]

theorem mesi_defers : mesi.Defers := by
  intro s e r o step cycled
  simp only [mesi, mesiHandle] at step
  split at step
  case h_17 =>
    cases (invackSM_keeps step).symm.trans cycled
  all_goals cases step <;> first | (cases cycled; done) | simp [Deferred, Deferrable, DirState.Stable, *]

theorem mosi_defers : mosi.Defers := by
  intro s e r o step cycled
  simp only [mosi, mosiHandle] at step
  split at step
  case h_7 =>
    split at step <;> cases step <;> cases cycled
  case h_9 =>
    cases (invackSM_keeps step).symm.trans cycled
  case h_10 =>
    cases step
    cases reclaim_keeps.symm.trans cycled
  case h_11 =>
    cases (askOwner_keeps step).symm.trans cycled
  case h_12 =>
    cases (invackOwned_keeps step).symm.trans cycled
  case h_13 =>
    cases step
    cases dataOwned_keeps.symm.trans cycled
  all_goals cases step <;> first | (cases cycled; done) | simp [Deferred, Deferrable, DirState.Stable, *]

theorem moesif_defers : moesif.Defers := by
  intro s e r o step cycled
  simp only [moesif, moesifHandle] at step
  split at step
  case h_5 | h_6 =>
    split at step <;> cases step <;> cases cycled
  case h_7 =>
    cases result : Outcome.invackSM e r "MOESIF dir: too many INVACKs (SM)" with
    | error what => simp [result, Except.map] at step
    | ok o' =>
        simp only [result, Except.map] at step
        cases step
        cases (invackSM_keeps result).symm.trans cycled
  case h_18 | h_24 =>
    cases step
    cases reclaim_keeps.symm.trans cycled
  case h_19 | h_25 =>
    cases (askOwner_keeps step).symm.trans cycled
  case h_22 | h_27 =>
    cases (invackOwned_keeps step).symm.trans cycled
  case h_23 | h_28 =>
    cases step
    cases dataOwned_keeps.symm.trans cycled
  all_goals cases step <;> first | (cases cycled; done) | simp [Deferred, Deferrable, DirState.Stable, *]

theorem Protocol.defers (p : Protocol) : p.fsm.Defers := by
  cases p with
  | MI => exact mi_defers
  | MSI => exact msi_defers
  | MESI => exact mesi_defers
  | MOSI => exact mosi_defers
  | MOESIF => exact moesif_defers

theorem handleWriteback_defers (written : handleWriteback e r = some o) (cycled : o.cycled = true) :
    Deferred e r := by
  unfold handleWriteback at written
  split at written
  · cases written
  · next notice =>
      refine ⟨?_, .inl (by simpa using notice)⟩
      split at written <;> cases written
      all_goals first | (cases cycled; done) | simp_all [DirState.Stable]

/-- A tick leaves the head where it is, puts it back if it has to wait, or dequeues it. -/
theorem tickDir_queues {F : ProtocolFsm} (defers : F.Defers) {d d' : DirectoryController}
    {clock : Timestamp} {st st' : CoherenceStats}
    (step : System.tickDir F s d clock st = .ok (d', st')) :
    (d.requestInProgress = true ∨ d.requestQueue = []) ∧
        d'.requestQueue = d.requestQueue ∧ d'.requestNext = d.requestNext ∨
      ∃ r rest, d.requestInProgress = false ∧ d.requestQueue = r :: rest ∧ d'.requestQueue = rest ∧
        (d'.requestNext = d.requestNext ++ [r] ∧ Deferred (d.directory r.block) r ∨
          d'.requestNext = d.requestNext) := by
  unfold System.tickDir at step
  split at step
  · cases step
  · next d₁ st₁ taken =>
      have eq : (d₁.respond s F.usesE st₁).1 = d' := congrArg Prod.fst (Except.ok.inj step)
      obtain ⟨next, queue⟩ := respond_queues d₁ s F.usesE st₁
      rw [eq] at next queue
      rw [next, queue]
      have outcome : ∀ r rest o, d.requestQueue = r :: rest →
          (o.cycled = true → Deferred (d.directory r.block) r) →
          (({ d with currentClock := clock } : DirectoryController).carryOut s st r rest o).1 = d₁ →
          d₁.requestQueue = rest ∧ (d₁.requestNext = d.requestNext ++ [r] ∧
            Deferred (d.directory r.block) r ∨ d₁.requestNext = d.requestNext) := by
        rintro r rest o head defers rfl
        obtain ⟨-, queue, next, -⟩ :=
          carryOut_fields ({ d with currentClock := clock } : DirectoryController) s st r rest o
        refine ⟨queue, ?_⟩
        rw [next]
        cases cycled : o.cycled with
        | true => exact .inl ⟨rfl, defers cycled⟩
        | false => exact .inr rfl
      unfold System.processQueue at taken
      split at taken
      · next busy =>
          cases taken
          exact .inl ⟨.inl busy, rfl, rfl⟩
      · next free =>
          split at taken
          · next empty =>
              cases taken
              exact .inl ⟨.inr empty, rfl, rfl⟩
          · next r rest head =>
              refine .inr ⟨r, rest, by simpa using free, head, ?_⟩
              simp only at taken
              split at taken
              · next o written =>
                  exact outcome r rest o head (handleWriteback_defers written)
                    (congrArg Prod.fst (Except.ok.inj taken))
              · split at taken
                · cases taken
                · next o handled =>
                    exact outcome r rest o head (defers _ _ _ _ handled)
                      (congrArg Prod.fst (Except.ok.inj taken))

/-- The head of the queue is taken in, unless it has to wait for its block's round. -/
theorem tickDir_head {F : ProtocolFsm} (defers : F.Defers) {d d' : DirectoryController}
    {clock : Timestamp} {st st' : CoherenceStats} {rest : List Message} (free : d.requestInProgress = false)
    (head : d.requestQueue = r :: rest) (step : System.tickDir F s d clock st = .ok (d', st')) :
    d'.requestQueue = rest ∧ (d'.requestNext = d.requestNext ++ [r] ∧ Deferred (d.directory r.block) r ∨
      d'.requestNext = d.requestNext) := by
  rcases tickDir_queues defers step with ⟨busy | empty, -⟩ | ⟨r', rest', -, head', moved⟩
  · cases free.symm.trans busy
  · cases head.symm.trans empty
  · cases head.symm.trans head'
    exact moved

end

/-! ## Order along a run -/

namespace Traffic

/-- The numbers in the line are those of the queued messages, and who was put back
    could be deferred. -/
structure Numbered (t : Traffic) : Prop where
  orderly : t.line.Orderly
  arrived : t.line.arrived = t.arrived.length
  waiting : List.Forall₂ (fun k m => t.arrived[k]? = some m) t.line.waiting
    (t.dir.requestQueue ++ t.dir.requestNext)
  deferred : ∀ k l, (k, l) ∈ t.line.overtaken → ∃ m, t.arrived[k]? = some m ∧ Deferrable m.kind

variable {F : ProtocolFsm} {s : Settings} {t t' : Traffic}

theorem Numbered.initial : (Traffic.initial s).Numbered where
  orderly := .initial
  arrived := rfl
  waiting := by cases s.cacheMode <;> exact .nil
  deferred k l mem := by cases mem

theorem Numbered.receive (numbered : t.Numbered) {m : Message}
    (step : t.step F s (.receive m) = .ok t') : t'.Numbered := by
  cases step
  have old : ∀ (k : Nat) x, t.arrived[k]? = some x → (t.arrived ++ [m])[k]? = some x := by
    intro k x at_k
    rw [List.getElem?_append_left (List.getElem?_eq_some_iff.mp at_k).1, at_k]
  have new : (t.arrived ++ [m])[t.line.arrived]? = some m := by
    simp [numbered.arrived]
  refine ⟨numbered.orderly.arrive, ?_, ?_, ?_⟩
  · simp [Requeue.arrive, numbered.arrived]
  · rw [← List.append_assoc]
    exact List.rel_append (numbered.waiting.imp fun k x => old k x) (.cons new .nil)
  · intro k l mem
    obtain ⟨x, at_k, deferrable⟩ := numbered.deferred k l mem
    exact ⟨x, old k x at_k, deferrable⟩

theorem Numbered.tick (numbered : t.Numbered) (defers : F.Defers)
    (step : t.step F s .tick = .ok t') : t'.Numbered := by
  simp only [Traffic.step] at step
  split at step
  · cases step
  · next d st ticked =>
      cases step
      have waiting := numbered.waiting
      rcases tickDir_queues defers ticked with ⟨-, queue, next⟩ | ⟨r, rest, -, head, queue, moved⟩
      · have same : followed t.line t.dir d = t.line := if_pos (congrArg List.length queue)
        refine ⟨?_, ?_, ?_, ?_⟩ <;> simp only [same, queue, next]
        · exact numbered.orderly
        · exact numbered.arrived
        · exact waiting
        · exact numbered.deferred
      · rw [head, List.cons_append] at waiting
        obtain ⟨k, ks, at_head, behind, line⟩ := List.forall₂_cons_right_iff.mp waiting
        have shorter : d.requestQueue.length ≠ t.dir.requestQueue.length := by
          rw [head, queue]
          simp
        rcases moved with ⟨next, -, deferrable⟩ | next
        · have put : followed t.line t.dir d = t.line.putBack := by
            rw [followed, if_neg shorter, if_pos (by simp [next])]
          refine ⟨?_, ?_, ?_, ?_⟩ <;> simp only [put, queue, next]
          · exact numbered.orderly.putBack
          · simpa [Requeue.putBack, line] using numbered.arrived
          · simp only [Requeue.putBack, line, ← List.append_assoc]
            exact List.rel_append behind (.cons at_head .nil)
          · intro k' l mem
            simp only [Requeue.putBack, line, List.mem_append, List.mem_map] at mem
            rcases mem with old | ⟨l', -, eq⟩
            · exact numbered.deferred k' l old
            · cases eq
              exact ⟨r, at_head, deferrable⟩
        · have served : followed t.line t.dir d = t.line.serve := by
            rw [followed, if_neg shorter, if_neg (by simp [next])]
          refine ⟨?_, ?_, ?_, ?_⟩ <;> simp only [served, queue, next]
          · exact numbered.orderly.serve
          · simpa [Requeue.serve, line] using numbered.arrived
          · simpa [Requeue.serve, line] using behind
          · simpa [Requeue.serve, line] using numbered.deferred

theorem Numbered.tock (numbered : t.Numbered) (step : t.step F s .tock = .ok t') : t'.Numbered := by
  cases step
  refine ⟨numbered.orderly, numbered.arrived, ?_, numbered.deferred⟩
  simpa [DirectoryController.tock] using numbered.waiting

theorem Numbered.run (defers : F.Defers)
    (reached : (Traffic.machine F s).Reachable (Traffic.initial s) t) : t.Numbered := by
  refine reached.invariant .initial ?_
  rintro t a t' numbered - step
  have step : t.step F s a = .ok t' := step
  cases a with
  | receive m => exact numbered.receive step
  | tick => exact numbered.tick defers step
  | tock => exact numbered.tock step

end Traffic

/-- Under every stream of messages, messages are served in the order they arrived,
    unless the earlier one is of a kind the directory defers and was cycled while the
    later one waited. -/
theorem directory_order (s : Settings) {t : Traffic}
    (reached : (Traffic.machine s.protocol.fsm s).Reachable (Traffic.initial s) t) {k l : Nat}
    (earlier : k < l) (served : l ∈ t.line.served) :
    Requeue.Before k l t.line.served ∨
      (k, l) ∈ t.line.overtaken ∧ ∃ m, t.arrived[k]? = some m ∧ Deferrable m.kind := by
  have numbered := Traffic.Numbered.run s.protocol.defers reached
  exact (numbered.orderly.served_after earlier served).imp_right fun passed =>
    ⟨passed, numbered.deferred k l passed⟩

/-! ## Messages of one core -/

/-- Sent by one core about one block. -/
def Message.SameSender (m m' : Message) : Prop := m.src = m'.src ∧ m.block = m'.block

instance (m m' : Message) : Decidable (m.SameSender m') := inferInstanceAs (Decidable (_ ∧ _))

namespace Traffic

/-- When the head has to wait for its block's round, no other message of its core about the
    block waits behind it. -/
def Unpassed (t : Traffic) : TrafficAction → Prop
  | .tick =>
      t.dir.requestInProgress = false → ∀ r ∈ t.dir.requestQueue.head?,
        Deferred (t.dir.directory r.block) r →
          ∀ m ∈ t.dir.requestQueue.tail ++ t.dir.requestNext, ¬r.SameSender m
  | .receive _ | .tock => True

instance (t : Traffic) (a : TrafficAction) : Decidable (t.Unpassed a) :=
  match a with
  | .tick =>
      inferInstanceAs (Decidable (t.dir.requestInProgress = false → ∀ r ∈ t.dir.requestQueue.head?,
        Deferred (t.dir.directory r.block) r →
          ∀ m ∈ t.dir.requestQueue.tail ++ t.dir.requestNext, ¬r.SameSender m))
  | .receive _ | .tock => isTrue trivial

/-- Nobody overtook a message of its own core about its block. -/
def Apart (t : Traffic) : Prop :=
  ∀ k l, (k, l) ∈ t.line.overtaken → ∃ m m', t.arrived[k]? = some m ∧ t.arrived[l]? = some m' ∧
    ¬m.SameSender m'

variable {F : ProtocolFsm} {s : Settings} {t t' : Traffic}

theorem exists_of_forall₂ {α β : Type} {R : α → β → Prop} {xs : List α} {ys : List β}
    (all : List.Forall₂ R xs ys) {x : α} (mem : x ∈ xs) : ∃ y ∈ ys, R x y := by
  induction all with
  | nil => cases mem
  | cons here _ ih =>
      rcases List.mem_cons.mp mem with rfl | mem
      · exact ⟨_, List.mem_cons_self, here⟩
      · obtain ⟨y, inside, related⟩ := ih mem
        exact ⟨y, List.mem_cons_of_mem _ inside, related⟩

theorem Apart.receive (apart : t.Apart) {m : Message} (step : t.step F s (.receive m) = .ok t') :
    t'.Apart := by
  cases step
  have old : ∀ (k : Nat) x, t.arrived[k]? = some x → (t.arrived ++ [m])[k]? = some x := by
    intro k x at_k
    rw [List.getElem?_append_left (List.getElem?_eq_some_iff.mp at_k).1, at_k]
  intro k l mem
  obtain ⟨x, y, at_k, at_l, other⟩ := apart k l mem
  exact ⟨x, y, old k x at_k, old l y at_l, other⟩

theorem Apart.tick (apart : t.Apart) (numbered : t.Numbered) (defers : F.Defers)
    (unpassed : t.Unpassed .tick) (step : t.step F s .tick = .ok t') : t'.Apart := by
  simp only [Traffic.step] at step
  split at step
  · cases step
  · next d st ticked =>
      cases step
      have waiting := numbered.waiting
      rcases tickDir_queues defers ticked with ⟨-, queue, next⟩ | ⟨r, rest, free, head, queue, moved⟩
      · have same : followed t.line t.dir d = t.line := if_pos (congrArg List.length queue)
        intro k l mem
        rw [same] at mem
        exact apart k l mem
      · rw [head, List.cons_append] at waiting
        obtain ⟨k, ks, at_head, behind, line⟩ := List.forall₂_cons_right_iff.mp waiting
        have shorter : d.requestQueue.length ≠ t.dir.requestQueue.length := by
          rw [head, queue]
          simp
        rcases moved with ⟨next, deferred⟩ | next
        · have put : followed t.line t.dir d = t.line.putBack := by
            rw [followed, if_neg shorter, if_pos (by simp [next])]
          intro k' l mem
          simp only [put, Requeue.putBack, line, List.mem_append, List.mem_map] at mem
          rcases mem with old | ⟨l', late, eq⟩
          · exact apart k' l old
          · cases eq
            obtain ⟨m', waits, at_l⟩ := exists_of_forall₂ behind late
            refine ⟨r, m', at_head, at_l, ?_⟩
            apply unpassed free r (by simp [head]) deferred
            rw [head]
            exact waits
        · have served : followed t.line t.dir d = t.line.serve := by
            rw [followed, if_neg shorter, if_neg (by simp [next])]
          intro k' l mem
          simp only [served, Requeue.serve, line] at mem
          exact apart k' l mem

theorem Apart.run (defers : F.Defers)
    (run : (Traffic.machine F s).Run Unpassed (Traffic.initial s) t) : t.Apart := by
  apply run.invariant_under (J := Numbered) (I := Apart)
  · exact fun t there => Numbered.run defers there.reachable
  · intro k l mem
    cases mem
  · rintro t a t' numbered apart unpassed step
    have step : t.step F s a = .ok t' := step
    cases a with
    | receive m => exact apart.receive step
    | tick => exact apart.tick numbered defers unpassed step
    | tock =>
        cases step
        exact apart

end Traffic

/-- In every run in which no message is put back in front of a later one of its core about
    its block, the messages of a core about a block are served in the order they arrived:
    when the later one is served the earlier one, an eviction notice say, has been served
    and is not among those that wait in the queues. -/
theorem sender_order (s : Settings) {t : Traffic}
    (run : (Traffic.machine s.protocol.fsm s).Run Traffic.Unpassed (Traffic.initial s) t) :
    t.line.waiting.map (t.arrived[·]?) = (t.dir.requestQueue ++ t.dir.requestNext).map some ∧
      ∀ (k l : Nat) (m m' : Message), k < l → t.arrived[k]? = some m → t.arrived[l]? = some m' →
        m.SameSender m' → l ∈ t.line.served → Requeue.Before k l t.line.served ∧ k ∉ t.line.waiting := by
  have numbered := Traffic.Numbered.run s.protocol.defers run.reachable
  refine ⟨?_, fun k l m m' earlier first second same served => ?_⟩
  · rw [← List.forall₂_eq_eq_eq, List.forall₂_map_left_iff, List.forall₂_map_right_iff]
    exact numbered.waiting
  · rcases directory_order s run.reachable earlier served with before | ⟨passed, -⟩
    · exact ⟨before, numbered.orderly.not_waiting before.mem⟩
    · obtain ⟨x, y, at_k, at_l, other⟩ := Traffic.Apart.run s.protocol.defers run k l passed
      cases first.symm.trans at_k
      cases second.symm.trans at_l
      exact absurd same other

/-! ## A stale eviction notice -/

def orderSettings : Settings := { protocol := .MESI, numProcs := 2, memLatency := 1 }

/-- Core `src` sends a message about block 0. -/
def sent (src : NodeId) (kind : MessageKind) : TrafficAction :=
  .receive { src, dst := 2, block := 0, kind, flits := 0 }

def directoryCycles (k : Nat) : List TrafficAction := (List.replicate k [.tick, .tock]).flatten

/-- Core 0 reads, core 1 reads; core 0's notice, its answer to the recall and its
    request to write arrive while the recall is on. -/
def overtakingStream : List TrafficAction :=
  [sent 0 .gets] ++ directoryCycles 4 ++ [sent 1 .gets] ++ directoryCycles 2 ++
    [sent 0 .dataWb, sent 0 .data, sent 0 .getm] ++ directoryCycles 6 ++ [sent 1 .invack] ++
    directoryCycles 2

def granted : Traffic :=
  (Traffic.machine mesi orderSettings).attempt (Traffic.initial orderSettings) overtakingStream

def forgotten : Traffic :=
  (Traffic.machine mesi orderSettings).attempt granted (directoryCycles 1)

/-- Core 0's notice is taken in after its later request was granted, and the entry
    that recorded the grant forgets it. -/
theorem stale_writeback :
    (Traffic.machine mesi orderSettings).Reachable (Traffic.initial orderSettings) forgotten ∧
      (∃ m m', forgotten.arrived[2]? = some m ∧ forgotten.arrived[4]? = some m' ∧ m.src = m'.src ∧
        m.block = m'.block ∧ m.kind = .dataWb ∧ m'.kind = .getm) ∧
      Requeue.Before 4 2 forgotten.line.served ∧
      ((granted.dir.directory 0).state = .M ∧ (granted.dir.directory 0).presence 0 = true) ∧
      (forgotten.dir.directory 0).state = .I ∧ (forgotten.dir.directory 0).presence 0 = false := by
  refine ⟨?_, ?_, ?_, ?_⟩
  · exact Machine.Run.attempt_from (Machine.reachable_attempt _ _) (fun _ _ => trivial) _
  · refine ⟨{ src := 0, dst := 2, block := 0, kind := .dataWb, flits := 0 },
      { src := 0, dst := 2, block := 0, kind := .getm, flits := 0 }, ?_⟩
    decide +kernel
  · have served : forgotten.line.served = [0, 1, 3, 4] ++ [5, 2] := by decide +kernel
    exact ⟨_, _, served, by decide, by decide⟩
  · decide +kernel

/-- Core 0 reads, and gives notice before it asks to write. -/
def noticedStream : List TrafficAction :=
  [sent 0 .gets] ++ directoryCycles 4 ++ [sent 0 .dataWb, sent 0 .getm] ++ directoryCycles 4

def noticed : Traffic :=
  (Traffic.machine mesi orderSettings).attempt (Traffic.initial orderSettings) noticedStream

theorem sender_order_noticed : Requeue.Before 1 2 noticed.line.served ∧ 1 ∉ noticed.line.waiting :=
  (sender_order orderSettings (t := noticed) (Machine.run_attempt _ (by decide +kernel))).2 1 2
    { src := 0, dst := 2, block := 0, kind := .dataWb, flits := 0 }
    { src := 0, dst := 2, block := 0, kind := .getm, flits := 0 } (by decide) (by decide +kernel)
    (by decide +kernel) (by decide) (by decide +kernel)

end Coherence
