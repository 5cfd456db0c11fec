import MulticoreSim.Library.Machine
import MulticoreSim.Coherence.Message

/-! # The ring

Nodes on a ring, each with its queues and two ports. A link carries one message
at a time: it stands in the sender's `outgoing_packets` and the receiver's
`incoming_packets` at once, and both look at its one `tof`. Messages are named
by the order in which the engines put them in `ntwk_out_next`.
-/

namespace Coherence

abbrev MsgId := Nat

/-- Ports 0 and 1. -/
inductive Port where
  | left | right
  deriving DecidableEq, Repr

/-- The port at the other end of a link. -/
def Port.other : Port → Port
  | .left => .right
  | .right => .left

structure RingNode where
  outNext : List MsgId := []
  outQueue : List MsgId := []
  inQueue : List MsgId := []
  inNext : List MsgId := []
  outgoing : Port → Option MsgId := fun _ => none
  incoming : Port → Option MsgId := fun _ => none
  /-- The `ntwk_in_next` of a CPU node's cache. -/
  cacheIn : Option MsgId := none
  /-- What the engine has been handed so far. -/
  handed : List MsgId := []

structure Ring where
  nodes : NodeId → RingNode := fun _ => {}
  heap : MsgId → Message := fun _ => ⟨0, 0, 0, .nop, 0, false⟩
  tof : MsgId → Int := fun _ => 0
  /-- The name of the next message. -/
  fresh : MsgId := 0

namespace Ring

/-! ## Routes -/

/-- `(dst + N - id_) % N`. -/
def distance (n k dst : Nat) : Nat := (dst + n - k) % n

/-- The shorter way round; right where both are as long. -/
def port (n k dst : Nat) : Port := if n / 2 < distance n k dst then .left else .right

/-- `((left ? id_ - 1 : id_ + 1) + N) % N`. -/
def target (n k : Nat) : Port → Nat
  | .left => (k + (n - 1)) % n
  | .right => (k + 1) % n

/-- The next node on the way from `k`. -/
def hop (n k dst : Nat) : Nat := target n k (port n k dst)

/-! ## One node -/

variable (n k : Nat)

def update (σ : Ring) (f : RingNode → RingNode) : Ring :=
  { σ with nodes := Function.update σ.nodes k (f (σ.nodes k)) }

/-- The engine puts messages in `ntwk_out_next`. -/
def inject (σ : Ring) : List Message → Ring
  | [] => σ
  | m :: rest =>
      inject
        { σ.update k fun x => { x with outNext := x.outNext ++ [σ.fresh] } with
          heap := Function.update σ.heap σ.fresh m
          fresh := σ.fresh + 1 }
        rest

/-- The link towards the destination is free at both ends. -/
def linkFree (σ : Ring) (id : MsgId) : Prop :=
  let p := port n k (σ.heap id).dst
  (σ.nodes k).outgoing p = none ∧ (σ.nodes (target n k p)).incoming p.other = none

instance (σ : Ring) (id : MsgId) : Decidable (σ.linkFree n k id) := by
  unfold linkFree
  infer_instance

/-- The first message of the queue sets out. -/
def launch (σ : Ring) (id : MsgId) : Ring :=
  let p := port n k (σ.heap id).dst
  let sent := σ.update k fun x =>
    { x with outQueue := x.outQueue.tail, outgoing := Function.update x.outgoing p (some id) }
  { sent.update (target n k p) fun x =>
      { x with incoming := Function.update x.incoming p.other (some id) } with
    tof := Function.update σ.tof id (σ.heap id).flits }

/-- The queue is drained until a link is taken. -/
def drain (σ : Ring) : List MsgId → Ring
  | [] => σ
  | id :: rest => if σ.linkFree n k id then drain (σ.launch n k id) rest else σ

/-- An arrived message is taken off its port: it has come to its end, or goes on. -/
def land (σ : Ring) (p : Port) : Ring :=
  match (σ.nodes k).incoming p with
  | none => σ
  | some id =>
      if σ.tof id ≤ 0 then
        σ.update k fun x =>
          if (σ.heap id).dst = k then
            { x with inQueue := x.inQueue ++ [id], incoming := Function.update x.incoming p none }
          else
            { x with outQueue := x.outQueue ++ [id], incoming := Function.update x.incoming p none }
      else σ

/-- A message is handed to the engine; a cache takes one in a cycle. -/
def handOver (σ : Ring) : Ring :=
  match (σ.nodes k).inQueue with
  | [] => σ
  | id :: rest =>
      if k + 1 = n then
        σ.update k fun x => { x with inQueue := rest, handed := x.handed ++ [id] }
      else if (σ.nodes k).cacheIn = none then
        σ.update k fun x =>
          { x with inQueue := rest, cacheIn := some id, handed := x.handed ++ [id] }
      else σ

/-- `Node::tick`, the engine of which puts `out` in `ntwk_out_next`. -/
def tickNode (σ : Ring) (out : List Message) : Ring :=
  let σ := σ.inject k out
  let σ := σ.drain n k (σ.nodes k).outQueue
  let σ := (σ.land k .left).land k .right
  (σ.handOver n k).handOver n k

/-- `--r->tof`, and the sender forgets what has arrived. -/
def age (σ : Ring) (p : Port) : Ring :=
  match (σ.nodes k).outgoing p with
  | none => σ
  | some id =>
      let aged := { σ with tof := Function.update σ.tof id (σ.tof id - 1) }
      if aged.tof id ≤ 0 then
        aged.update k fun x => { x with outgoing := Function.update x.outgoing p none }
      else aged

/-- `Node::tock`. The cache moves its `ntwk_in_next` on. -/
def tockNode (σ : Ring) : Ring :=
  let σ := σ.update k fun x =>
    { x with cacheIn := none, outQueue := x.outQueue ++ x.outNext, outNext := [] }
  let σ := (σ.age k .left).age k .right
  σ.update k fun x => { x with inQueue := x.inQueue ++ x.inNext, inNext := [] }

/-! ## The network -/

/-- `Network::tick`. -/
def tick (σ : Ring) (out : NodeId → List Message) : Ring :=
  (List.range n).foldl (fun σ k => σ.tickNode n k (out k)) σ

/-- `Network::tock`. -/
def tock (σ : Ring) : Ring := (List.range n).foldl (fun σ k => σ.tockNode k) σ

/-- Cycles of a ring of `n` nodes, each with what the engines send in it. -/
def machine : Machine Ring (NodeId → List Message) Empty :=
  ⟨fun σ out => .ok ((σ.tick n out).tock n)⟩

/-- The engines send from their own node, to nodes of the ring, one flit or more. -/
def Sends (out : NodeId → List Message) : Prop :=
  ∀ k < n, ∀ m ∈ out k, m.src = k ∧ m.dst < n ∧ 1 ≤ m.flits

end Ring

end Coherence
