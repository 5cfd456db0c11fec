import MulticoreSim.Coherence.DirectoryLaws

/-! # The network as abstract lines

A state of the network stands for one abstract line for every block: the agents
show its rights and wants, the messages on their way its requests, grants and
orders, the directory its mode and members. Every half cycle of a node moves
each line by enabled events.
-/

namespace Coherence

open DirectoryProtocol

variable {F : ProtocolFsm} {π : CpuPort}

/-! ## Messages on their way -/

/-- How many messages of a kind are about a block. -/
def about (b : BlockId) (l : List Message) (k : MessageKind) : Nat :=
  l.countP fun m => m.block = b ∧ m.kind = k

/-- The messages about a block, in order. -/
def orders (b : BlockId) (l : List Message) : List (MessageKind × Bool) :=
  (l.filter (·.block = b)).map fun m => (m.kind, m.dirty)

section

variable (b : BlockId) (k : MessageKind) (m : Message) (l l' : List Message)

@[simp] theorem about_nil : about b [] k = 0 := rfl

@[simp] theorem about_append : about b (l ++ l') k = about b l k + about b l' k :=
  List.countP_append

theorem about_cons : about b (m :: l) k =
    about b l k + if m.block = b then [m.kind].count k else 0 := by
  simp only [about, List.countP_cons, List.count_singleton]
  grind

theorem about_singleton : about b [m] k = if m.block = b then [m.kind].count k else 0 := by
  simp [about_cons]

@[simp] theorem orders_nil : orders b [] = [] := rfl

@[simp] theorem orders_append : orders b (l ++ l') = orders b l ++ orders b l' := by
  simp [orders]

theorem orders_cons : orders b (m :: l) =
    (if m.block = b then [(m.kind, m.dirty)] else []) ++ orders b l := by
  simp only [orders, List.filter_cons]
  split <;> simp_all

end

/-- The network mailboxes of a CPU node, in order. -/
def CpuNode.inbox (n : CpuNode F π) : List Message := n.ntwkIn.toList ++ n.ntwkInNext.toList

/-- The answer the directory has memory prepare for node `i`. -/
def DirectoryController.owes (d : DirectoryController) (b : BlockId) (i : NodeId) : Option Grant :=
  if d.requestInProgress ∧ d.tagToSend = b ∧ d.targetNode = i then
    some (if d.sendE then .cleanExclusive else .data)
  else none

namespace System

/-- What CPU node `i` has sent and the directory has not taken up. -/
def carried (s : Settings) (σ : System F π) (i : NodeId) : List Message :=
  (σ.cpus i).ntwkOutNext ++ σ.chan i s.numProcs ++
    (σ.dir.requestNext ++ σ.dir.requestQueue).filter (·.src = i)

/-- What the directory has sent and CPU node `i` has not taken in, in order. -/
def arriving (s : Settings) (σ : System F π) (i : NodeId) : List Message :=
  (σ.cpus i).inbox ++ σ.chan s.numProcs i ++ σ.dir.ntwkOutNext.filter (·.dst = i)

/-- Replace one CPU node. -/
def setCpu (σ : System F π) (i : NodeId) (n : CpuNode F π) : System F π :=
  { σ with cpus := Function.update σ.cpus i n }

end System

/-! ## The abstraction -/

/-- The network's own bookkeeping: who messages are from, and which mailboxes are
    free in which half of a node's cycle. -/
structure Network (s : Settings) (σ : System F π) : Prop where
  out : ∀ i, ∀ m ∈ (σ.cpus i).ntwkOutNext, m.src = i ∧ m.dst = s.numProcs
  sent : ∀ i < s.numProcs, ∀ m ∈ σ.chan i s.numProcs, m.src = i
  queued : ∀ m ∈ σ.dir.requestNext ++ σ.dir.requestQueue, m.src < s.numProcs
  ticked : ∀ i < s.numProcs, σ.ticked i = true →
    (σ.cpus i).ntwkIn = none ∧ (σ.cpus i).cpuIn = none
  tocked : ∀ i < s.numProcs, σ.ticked i = false → (σ.cpus i).ntwkInNext = none
  sendE : σ.dir.requestInProgress = false → σ.dir.sendE = false

/-- The state's line for block `b`. `R` says which blocks a port has where its
    processor can use them. -/
structure Abs (L : Laws F) (R : π.State → BlockId → Prop) (s : Settings) (σ : System F π)
    (b : BlockId) (B : Block NodeId) : Prop where
  inv : B.Inv
  within : L.profile.Within B
  view : ∀ i, L.view ((σ.cpus i).agents b) = ⟨(B.slot i).right, (B.slot i).want⟩
  upward : ∀ i < s.numProcs, ∀ k, about b (σ.carried s i) k = up (B.slot i) k
  downward : ∀ i < s.numProcs, orders b (σ.arriving s i) = down (B.slot i)
  fetching : ∀ i g, (B.slot i).phase = .fetching g ↔ σ.dir.owes b i = some g
  entry : Entry L.profile L.marks s.numProcs b (σ.dir.directory b) B
  resident : ∀ i < s.numProcs, R (σ.cpus i).cpu b → (B.slot i).resident = true

/-- What the abstraction relies on of a port. -/
structure PortLaws (π : CpuPort) (R : π.State → BlockId → Prop) : Prop where
  /-- A port sends eviction notices only. -/
  tick_sends : ∀ s i st c, ∀ m ∈ (π.tick s i st c).sends,
    m.src = i ∧ m.dst = s.numProcs ∧ m.kind = .dataWb
  external_sends : ∀ s i st c e p, π.external s i st c e = some p → ∀ m ∈ p.sends,
    m.src = i ∧ m.dst = s.numProcs ∧ m.kind = .dataWb
  tock : ∀ st b, R (π.tock st) b → R st b
  deposit : ∀ st m b, R (π.deposit st m) b → R st b ∨ b = m.block
  event : ∀ s st m b, R (π.onNtwkEvent s st m) b → R st b

section

variable {L : Laws F} {R : π.State → BlockId → Prop} {s : Settings} {σ : System F π} {b : BlockId}
  {B : Block NodeId} {i : NodeId}

/-! ## One CPU node changes -/

@[simp] theorem setCpu_cpus_self (n : CpuNode F π) : (σ.setCpu i n).cpus i = n := by
  simp [System.setCpu]

theorem setCpu_cpus_of_ne (n : CpuNode F π) {j : NodeId} (ne : j ≠ i) :
    (σ.setCpu i n).cpus j = σ.cpus j := by
  simp [System.setCpu, ne]

theorem setCpu_setCpu (n n' : CpuNode F π) : (σ.setCpu i n).setCpu i n' = σ.setCpu i n' := by
  simp [System.setCpu]

theorem carried_setCpu (n : CpuNode F π) (j : NodeId) (k : MessageKind) :
    about b ((σ.setCpu i n).carried s j) k + about b (σ.cpus j).ntwkOutNext k =
      about b (σ.carried s j) k + about b ((σ.setCpu i n).cpus j).ntwkOutNext k := by
  simp only [System.carried, System.setCpu, about_append]
  omega

theorem arriving_setCpu (n : CpuNode F π) (j : NodeId) :
    (σ.setCpu i n).arriving s j = ((σ.setCpu i n).cpus j).inbox ++
      (σ.chan s.numProcs j ++ σ.dir.ntwkOutNext.filter (·.dst = j)) := by
  simp [System.arriving, System.setCpu]

/-- Who owes the directory an answer is all an entry has of the slots. -/
theorem Entry.node {P : Profile} {marks : Prop} {n : Nat} {e : DirEntry}
    (entry : Entry P marks n b e B) {f : Slot → Slot}
    (owing : (f (B.slot i)).Owing ↔ (B.slot i).Owing) : Entry P marks n b e (B.modify i f) where
  stands := entry.stands
  blockId := entry.blockId
  members := entry.members
  requester := entry.requester
  owner := entry.owner
  awaiting collecting := by
    have same : (B.modify i f).owing = B.owing := by
      refine Finset.filter_congr fun j _ => ?_
      rw [Block.modify_slot]
      split
      · next eq => exact eq ▸ owing
      · rfl
    rw [same]
    exact entry.awaiting collecting
  upgrade := entry.upgrade

/-- A CPU node's half cycle that moves the line by an event of its slot. -/
theorem Abs.node (abs : Abs L R s σ b B) {n : CpuNode F π} {f : Slot → Slot}
    (inv : (B.modify i f).Inv) (within : L.profile.Within (B.modify i f))
    (view : L.view (n.agents b) = ⟨(f (B.slot i)).right, (f (B.slot i)).want⟩)
    (upward : ∀ k, about b n.ntwkOutNext k + up (B.slot i) k =
      about b (σ.cpus i).ntwkOutNext k + up (f (B.slot i)) k)
    (downward : ∀ l, orders b (σ.cpus i).inbox ++ l = down (B.slot i) →
      orders b n.inbox ++ l = down (f (B.slot i)))
    (fetching : ∀ g, (f (B.slot i)).phase = .fetching g ↔ (B.slot i).phase = .fetching g)
    (owing : (f (B.slot i)).Owing ↔ (B.slot i).Owing)
    (resident : R n.cpu b → (f (B.slot i)).resident = true) :
    Abs L R s (σ.setCpu i n) b (B.modify i f) where
  inv := inv
  within := within
  view j := by
    by_cases eq : j = i
    · subst j
      simpa using view
    · rw [setCpu_cpus_of_ne n eq, Block.modify_slot_of_ne B f eq]
      exact abs.view j
  upward j bound k := by
    have old := abs.upward j bound k
    have change := carried_setCpu (σ := σ) (i := i) (s := s) (b := b) n j k
    by_cases eq : j = i
    · subst j
      have new := upward k
      rw [setCpu_cpus_self] at change
      rw [Block.modify_slot_self]
      omega
    · rw [setCpu_cpus_of_ne n eq] at change
      rw [Block.modify_slot_of_ne B f eq]
      omega
  downward j bound := by
    have old := abs.downward j bound
    rw [arriving_setCpu, orders_append]
    by_cases eq : j = i
    · subst j
      rw [setCpu_cpus_self, Block.modify_slot_self]
      apply downward
      simp only [← old, System.arriving, orders_append, List.append_assoc]
    · rw [setCpu_cpus_of_ne n eq, Block.modify_slot_of_ne B f eq, ← old]
      simp only [System.arriving, orders_append, List.append_assoc]
  fetching j g := by
    change _ ↔ σ.dir.owes b j = some g
    rw [← abs.fetching j g, Block.modify_slot]
    split
    · next eq => exact eq ▸ fetching g
    · rfl
  entry := abs.entry.node owing
  resident j bound has := by
    by_cases eq : j = i
    · subst j
      rw [setCpu_cpus_self] at has
      rw [Block.modify_slot_self]
      exact resident has
    · rw [setCpu_cpus_of_ne n eq] at has
      rw [Block.modify_slot_of_ne B f eq]
      exact abs.resident j bound has

theorem modify_id (B : Block NodeId) (i : NodeId) : B.modify i id = B := by
  simp [Block.modify]

/-- A half cycle that has nothing to do with the block. -/
theorem Abs.same (abs : Abs L R s σ b B) (bound : i < s.numProcs) {n : CpuNode F π}
    (agents : n.agents b = (σ.cpus i).agents b)
    (out : ∀ k, about b n.ntwkOutNext k = about b (σ.cpus i).ntwkOutNext k)
    (inbox : orders b n.inbox = orders b (σ.cpus i).inbox)
    (resident : R n.cpu b → R (σ.cpus i).cpu b) : Abs L R s (σ.setCpu i n) b B := by
  rw [← modify_id B i]
  refine abs.node ?_ ?_ ?_ ?_ ?_ (fun g => Iff.rfl) Iff.rfl fun has => ?_
  · rw [modify_id]
    exact abs.inv
  · rw [modify_id]
    exact abs.within
  · rw [agents]
    exact abs.view i
  · exact fun k => by rw [out]; rfl
  · exact fun l old => by rw [inbox]; exact old
  · exact abs.resident i bound (resident has)

/-! ## The port's part -/

/-- A slot after `k` evictions. -/
def evicted (k : Nat) (s : Slot) : Slot :=
  { s with writebacks := s.writebacks + k, resident := s.resident && k = 0 }

theorem evicted_zero : evicted 0 = id := by
  funext s
  simp [evicted]

/-- `k` notices are `k` evictions. -/
theorem steps_evicted (B : Block NodeId) (i : NodeId) (k : Nat) :
    B.Steps (fun X e => e = .evict i ∧ 0 < k ∧ (X.slot i).phase = (B.slot i).phase)
      (B.modify i (evicted k)) := by
  induction k with
  | zero =>
      rw [evicted_zero, modify_id]
      exact .refl
  | succ k ih =>
      have weaker : B.Steps
          (fun X e => e = .evict i ∧ 0 < k + 1 ∧ (X.slot i).phase = (B.slot i).phase)
          (B.modify i (evicted k)) :=
        Block.Steps.mono ih fun _ _ ⟨eq, _, phase⟩ => ⟨eq, k.succ_pos, phase⟩
      refine weaker.tail ⟨.evict i, ⟨rfl, k.succ_pos, ?_⟩, trivial, ?_⟩
      · rw [Block.modify_slot_self]
        rfl
      · simp only [Block.after, Block.modify, Block.mk.injEq, true_and]
        funext j
        split
        · simp [evicted, Slot.evict, Nat.add_assoc]
        · rfl

/-- Notices about a block among a port's messages. -/
theorem about_notices {l : List Message} (notices : ∀ m ∈ l, m.kind = .dataWb) (k : MessageKind) :
    about b l k = about b l .dataWb * one .dataWb k := by
  induction l with
  | nil => simp
  | cons m l ih =>
      rw [about_cons, about_cons b .dataWb, ih fun m mem => notices m (List.mem_cons_of_mem _ mem),
        notices m (by simp), Nat.add_mul]
      congr 1
      split
      · rw [count_one, count_one, one_self, Nat.one_mul]
      · rw [Nat.zero_mul]

theorem about_pos {l : List Message} {k : MessageKind} :
    0 < about b l k ↔ ∃ m ∈ l, m.block = b ∧ m.kind = k := by
  simp [about, List.countP_pos_iff]

/-- A port's call, with the eviction notices it sends. -/
theorem Abs.portStep (abs : Abs L R s σ b B) (bound : i < s.numProcs) {p : PortStep π.State}
    (sends : ∀ m ∈ p.sends, m.kind = .dataWb) (mono : R p.state b → R (σ.cpus i).cpu b)
    (gone : ∀ m ∈ p.sends, m.block = b → ¬ R p.state b) :
    ∃ B', B.Steps (fun X e => e = .evict i ∧ (∃ m ∈ p.sends, m.block = b) ∧
        (X.slot i).phase = (B.slot i).phase) B' ∧
      Abs L R s (σ.setCpu i ((σ.cpus i).portStep p)) b B' := by
  let k := about b p.sends .dataWb
  have keeps : (B.slot i).Keeps (evicted k (B.slot i)) := Slot.keeps_copy _ _ _
  refine ⟨B.modify i (evicted k), ?_, ?_⟩
  · refine Block.Steps.mono (steps_evicted B i k) fun _ _ ⟨eq, pos, phase⟩ => ⟨eq, ?_, phase⟩
    obtain ⟨m, mem, about, -⟩ := about_pos.mp pos
    exact ⟨m, mem, about⟩
  · refine abs.node (abs.inv.node i _ keeps) ?_ (abs.view i) ?_ (fun l => id) (fun g => Iff.rfl)
      Iff.rfl ?_
    · exact abs.within.modify ((abs.within.slot i).copy _ _)
    · intro kind
      simp only [CpuNode.portStep, about_append, about_notices sends kind, up, evicted, Nat.add_mul]
      change _ + k * _ + _ = _
      omega
    · intro has
      have none : k = 0 := by
        by_contra pos
        obtain ⟨m, mem, about, -⟩ := about_pos.mp (Nat.pos_of_ne_zero pos)
        exact gone m mem about has
      simpa [evicted, none] using abs.resident i bound (mono has)

/-! ## The agents' part -/

/-- What the processor's request makes of the line: the agent asks or answers. -/
def ProcEvent (F : ProtocolFsm) (n : CpuNode F π) (b : BlockId) (i : NodeId) (e : Event NodeId) :
    Prop :=
  ∃ m a, n.cpuIn = some m ∧ m.block = b ∧ F.processProcRequest (n.agents b) m.kind = .ok a ∧
    ((∃ q, e = .ask i q) ∧ a.toProc = false ∨ e = .refill i ∧ a.toProc = true)

theorem about_toDir {a : AgentStep F.AgentState} (block : BlockId) (k : MessageKind) :
    about b (a.toDir.map fun k => Message.make i s.numProcs block k s).toList k =
      if block = b then a.toDir.toList.count k else 0 := by
  cases a.toDir with
  | none => simp
  | some kind => exact about_singleton b k _

/-- The agent of another block acts. -/
theorem Abs.apply_other (abs : Abs L R s σ b B) (laws : PortLaws π R) (bound : i < s.numProcs)
    {block : BlockId} (ne : block ≠ b) (a : AgentStep F.AgentState) {n : CpuNode F π}
    (agents : n.agents = Function.update (σ.cpus i).agents block a.state)
    (out : n.ntwkOutNext = (σ.cpus i).ntwkOutNext ++
      (a.toDir.map fun k => Message.make i s.numProcs block k s).toList)
    (inbox : orders b n.inbox = orders b (σ.cpus i).inbox)
    (cpu : R n.cpu b → R (if a.toProc then
      π.deposit (σ.cpus i).cpu (Message.make i i block .data s) else (σ.cpus i).cpu) b) :
    Abs L R s (σ.setCpu i n) b B := by
  refine abs.same bound ?_ ?_ inbox fun has => ?_
  · rw [agents, Function.update_of_ne ne.symm]
  · intro k
    rw [out, about_append, about_toDir, if_neg ne, Nat.add_zero]
  · have has := cpu has
    split at has
    · rcases laws.deposit _ _ _ has with has | eq
      · exact has
      · exact absurd eq.symm ne
    · exact has

theorem Abs.tickProc (abs : Abs L R s σ b B) (laws : PortLaws π R) (bound : i < s.numProcs)
    {st st' : CoherenceStats} {n : CpuNode F π}
    (step : (σ.cpus i).tickProc s i st = .ok (n, st')) :
    ∃ B', B.Steps (fun X e => X = B ∧ L.profile.Event e ∧ ProcEvent F (σ.cpus i) b i e) B' ∧
      Abs L R s (σ.setCpu i n) b B' := by
  unfold CpuNode.tickProc at step
  split at step
  · cases step
    refine ⟨B, .refl, ?_⟩
    exact abs.same bound rfl (fun _ => rfl) rfl id
  · next m arrived =>
      split at step
      · cases step
      · next a answer =>
          cases step
          by_cases eq : m.block = b
          · subst b
            have spec := L.proc _ _ _ answer
            rw [abs.view i] at spec
            obtain ⟨want, ⟨toDir, toProc, view, right⟩ | ⟨q, toDir, toProc, view, request, reads, own⟩⟩ :=
              spec
            all_goals simp only at want
            all_goals have rest := (abs.inv.slots i).rest.mp want
            · have enabled : B.Enabled (.refill i) := ⟨rest, right⟩
              have event : ProcEvent F (σ.cpus i) m.block i (.refill i) :=
                ⟨m, a, arrived, rfl, answer, .inr ⟨rfl, toProc⟩⟩
              refine ⟨_, Block.Steps.single (e := .refill i) ⟨rfl, trivial, event⟩ enabled, ?_⟩
              refine abs.node (abs.inv.after enabled) (abs.within.after enabled trivial) ?_ ?_
                (fun l => id) (fun g => Iff.rfl) Iff.rfl fun _ => rfl
              · simp only [CpuNode.apply, Function.update_self]
                exact view
              · intro k
                simp [CpuNode.apply, toDir, Slot.refill, up]
            · have enabled : B.Enabled (.ask i q) := ⟨rest, reads, own⟩
              have event : ProcEvent F (σ.cpus i) m.block i (.ask i q) :=
                ⟨m, a, arrived, rfl, answer, .inl ⟨⟨q, rfl⟩, toProc⟩⟩
              refine ⟨_, Block.Steps.single (e := .ask i q) ⟨rfl, request, event⟩ enabled, ?_⟩
              refine abs.node (abs.inv.after enabled) (abs.within.after enabled request) ?_ ?_ ?_ ?_
                Iff.rfl ?_
              · simp only [CpuNode.apply, Function.update_self]
                exact view
              · intro k
                simp only [CpuNode.apply, about_append, about_toDir, if_true, up, rest, upRequest,
                  Slot.ask]
                rw [toDir, Option.toList_some, count_one]
                omega
              · intro l old
                rw [down, rest] at old
                exact old
              · simp [Slot.ask, rest]
              · intro has
                exact abs.resident i bound (by simpa [CpuNode.apply, toProc] using has)
          · exact ⟨B, .refl, abs.apply_other laws bound eq a rfl rfl rfl id⟩

/-- The event of a node that takes in a message. -/
def TakesIn (i : NodeId) : Event NodeId → Prop
  | .accept j | .drop j | .surrender j | .share j | .own j _ => j = i
  | _ => False

/-- What an agent does with a grant. -/
theorem granted_of_spec {P : Profile} {v v' : View} {g : Grant} {toDir : Option MessageKind}
    {toProc : Bool} (spec : NtwkSpec P v (grantKind g) toDir toProc v') :
    toDir = none ∧ v' = ⟨g.right v.want, .nothing⟩ := by
  rcases spec with ⟨g', kind, -, toDir, -, view⟩ | ⟨-, ⟨kind, -⟩ | ⟨kind, -⟩ | ⟨kind, -⟩ | ⟨kind, -⟩⟩
  · rw [grantKind_injective kind]
    exact ⟨toDir, view⟩
  all_goals cases g <;> cases kind

/-- The event of a node answering an order. -/
structure Answers (P : Profile) (B : Block NodeId) (i : NodeId) (o : Order) (e : Event NodeId)
    (right : Right) (reply : Reply) : Prop where
  takes : TakesIn i e
  after : B.after e = B.modify i (.answer right reply)
  enabled : B.Enabled e
  chosen : P.Event e
  owing : o = .invalidate ↔ reply = .ack
  revoked : right = .none → (orderMessage o).1 = .reqInvalid ∨ (orderMessage o).1 = .recallGotoI

/-- What an agent does with an order. -/
theorem Abs.answers (abs : Abs L R s σ b B) {o : Order} (sent : (B.slot i).probe = .sent o)
    (free : ∀ g, (B.slot i).phase ≠ .granted g) {toDir : Option MessageKind} {toProc : Bool}
    {v : View}
    (spec : NtwkSpec L.profile ⟨(B.slot i).right, (B.slot i).want⟩ (orderMessage o).1 toDir toProc
      v) :
    toProc = false ∧ ∃ e right reply, toDir = some (replyKind reply) ∧
      v = ⟨right, (B.slot i).want⟩ ∧ Answers L.profile B i o e right reply := by
  have order := (abs.within.slot i).sent o sent
  rcases spec with ⟨g, kind, -⟩ | ⟨toProc, spec⟩
  · exact absurd kind.symm (grantKind_ne_order g o)
  · refine ⟨toProc, ?_⟩
    cases o with
    | invalidate =>
        rcases spec with ⟨-, right, toDir, view⟩ | ⟨⟨⟩, -⟩ | ⟨⟨⟩, -⟩ | ⟨⟨⟩, -⟩
        exact ⟨.drop i, .none, .ack, toDir, view,
          ⟨rfl, rfl, ⟨sent, right, free⟩, trivial, by simp, fun _ => .inl rfl⟩⟩
    | giveBack =>
        rcases spec with ⟨⟨⟩, -⟩ | ⟨-, right, toDir, view⟩ | ⟨⟨⟩, -⟩ | ⟨⟨⟩, -⟩
        exact ⟨.surrender i, .none, .data, toDir, view,
          ⟨rfl, rfl, ⟨sent, right, free⟩, trivial, by simp, fun _ => .inr rfl⟩⟩
    | share =>
        rcases spec with ⟨⟨⟩, -⟩ | ⟨⟨⟩, -⟩ | ⟨-, -, right, toDir, view⟩ | ⟨-, owners, -⟩
        · exact ⟨.share i, .shared, .data, toDir, view,
            ⟨rfl, rfl, ⟨sent, right, free⟩, trivial, by simp, nofun⟩⟩
        · cases order.2.symm.trans owners
    | own keep =>
        rcases spec with ⟨⟨⟩, -⟩ | ⟨⟨⟩, -⟩ | ⟨-, owners, -⟩ | ⟨-, -, right, toDir, view⟩
        · cases owners.symm.trans order
        · exact ⟨.own i keep, .owned, .data, toDir, view,
            ⟨rfl, rfl, ⟨sent, right, free⟩, trivial, by simp, nofun⟩⟩

/-- An agent answers an order. -/
theorem Abs.answer (abs : Abs L R s σ b B) (bound : i < s.numProcs) {n : CpuNode F π} {o : Order}
    (sent : (B.slot i).probe = .sent o) (free : ∀ g, (B.slot i).phase ≠ .granted g)
    {e : Event NodeId} {right : Right} {reply : Reply}
    (after : B.after e = B.modify i (.answer right reply)) (enabled : B.Enabled e)
    (chosen : L.profile.Event e) (owing : o = .invalidate ↔ reply = .ack)
    (view : L.view (n.agents b) = ⟨right, (B.slot i).want⟩)
    (out : ∀ k, about b n.ntwkOutNext k = about b (σ.cpus i).ntwkOutNext k + one (replyKind reply) k)
    {x : MessageKind × Bool} (inbox : orders b (σ.cpus i).inbox = x :: orders b n.inbox)
    (mono : R n.cpu b → R (σ.cpus i).cpu b) (revoked : right = .none → ¬ R n.cpu b) :
    Abs L R s (σ.setCpu i n) b (B.after e) := by
  have inv := abs.inv.after enabled
  have within := abs.within.after enabled chosen
  rw [after] at inv within ⊢
  refine abs.node inv within view ?_ ?_ (fun g => Iff.rfl) ?_ fun has => ?_
  · intro k
    rw [out, up, up, sent]
    simp only [Slot.answer, upReply]
    omega
  · intro l old
    rw [inbox, List.cons_append] at old
    rcases down_cons old with ⟨g, phase, -⟩ | ⟨-, o', -, -, none⟩
    · exact absurd phase (free g)
    · rw [none]
      have grants : downGrant (B.slot i).phase = [] := by
        cases phase : (B.slot i).phase <;> first | rfl | exact absurd phase (free _)
      simp only [down, Slot.answer, grants, downOrder, List.nil_append]
  · simp only [Slot.Owing, Slot.answer, sent]
    cases o <;> cases reply <;> simp_all
  · have some : right ≠ .none := fun none => revoked none has
    simpa [Slot.answer, some] using abs.resident i bound (mono has)

/-- The message in the mailbox is the first on its way to the node. -/
theorem Abs.head {m : Message} (abs : Abs L R s σ m.block B) (bound : i < s.numProcs)
    (arrived : (σ.cpus i).ntwkIn = some m) : ∃ l, (m.kind, m.dirty) :: l = down (B.slot i) := by
  refine ⟨orders m.block ((σ.cpus i).ntwkInNext.toList ++ σ.chan s.numProcs i ++
    σ.dir.ntwkOutNext.filter (·.dst = i)), ?_⟩
  rw [← abs.downward i bound, System.arriving, CpuNode.inbox, arrived]
  simp [orders_cons]

theorem Abs.tickNtwk (abs : Abs L R s σ b B) (laws : PortLaws π R) (bound : i < s.numProcs)
    {st st' : CoherenceStats} {n : CpuNode F π}
    (revoked : ∀ m, (σ.cpus i).ntwkIn = some m → m.kind = .reqInvalid ∨ m.kind = .recallGotoI →
      ¬ R (π.onNtwkEvent s (σ.cpus i).cpu m) m.block)
    (step : (σ.cpus i).tickNtwk s i st = .ok (n, st')) :
    ∃ B', B.Steps (fun X e => X = B ∧ TakesIn i e ∧ ∃ m, (σ.cpus i).ntwkIn = some m ∧ m.block = b) B' ∧
      Abs L R s (σ.setCpu i n) b B' := by
  unfold CpuNode.tickNtwk at step
  split at step
  · cases step
    refine ⟨B, .refl, ?_⟩
    exact abs.same bound rfl (fun _ => rfl) rfl id
  · next m arrived =>
      split at step
      · cases step
      · next a answer =>
          cases step
          have inbox : (σ.cpus i).inbox = m :: (σ.cpus i).ntwkInNext.toList := by
            simp [CpuNode.inbox, arrived]
          by_cases eq : m.block = b
          · subst b
            obtain ⟨l, head⟩ := abs.head bound arrived
            have spec := L.ntwk _ _ _ answer
            rw [abs.view i] at spec
            have order : orders m.block (σ.cpus i).inbox =
                (m.kind, m.dirty) :: orders m.block (σ.cpus i).ntwkInNext.toList := by
              rw [inbox, orders_cons, if_pos rfl]
              rfl
            rcases down_cons head with ⟨g, granted, kind, rest⟩ | ⟨free, o, sent, ordered, -⟩
            · have granting : NtwkSpec L.profile ⟨(B.slot i).right, (B.slot i).want⟩ (grantKind g)
                  a.toDir a.toProc (L.view a.state) := kind ▸ spec
              obtain ⟨toDir, view⟩ := granted_of_spec granting
              have enabled : B.Enabled (.accept i) := ⟨g, granted⟩
              refine ⟨_, Block.Steps.single (e := .accept i) ⟨rfl, rfl, m, arrived, rfl⟩ enabled, ?_⟩
              refine abs.node (abs.inv.after enabled) (abs.within.after enabled trivial) ?_ ?_ ?_ ?_
                Iff.rfl fun _ => rfl
              · simp only [CpuNode.apply, Function.update_self, view, Slot.accept, Slot.effective,
                  granted]
              · intro k
                simp [CpuNode.apply, toDir, Slot.accept, up, upRequest, granted]
              · intro l' old
                rw [order, down, granted, downGrant, List.cons_append, List.singleton_append,
                  List.cons.injEq] at old
                exact old.2
              · simp [Slot.accept, granted]
            · have kind : m.kind = (orderMessage o).1 := congrArg Prod.fst ordered
              obtain ⟨toProc, e, right, reply, toDir, view, answers⟩ :=
                abs.answers sent free (kind ▸ spec)
              refine ⟨_, Block.Steps.single ⟨rfl, answers.takes, m, arrived, rfl⟩ answers.enabled, ?_⟩
              refine abs.answer bound sent free answers.after answers.enabled answers.chosen
                answers.owing ?_ ?_ order ?_ ?_
              · simp only [CpuNode.apply, Function.update_self, view]
              · intro k
                simp only [CpuNode.apply, about_append, about_toDir, if_true]
                rw [toDir, Option.toList_some, count_one]
              · intro has
                simpa [CpuNode.apply, toProc] using laws.event _ _ _ _ has
              · intro none
                simpa [CpuNode.apply, toProc] using
                  revoked m arrived (kind ▸ answers.revoked none)
          · refine ⟨B, .refl, abs.apply_other laws bound eq a rfl rfl ?_ (laws.event _ _ _ _)⟩
            rw [inbox, orders_cons, if_neg eq]
            rfl

end

end Coherence
