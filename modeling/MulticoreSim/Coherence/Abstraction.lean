import MulticoreSim.Coherence.System
import MulticoreSim.Library.DirectoryProtocol.Event

/-! # Messages as requests, grants and orders

Which messages a slot of an abstract line accounts for, on the way to the
directory and on the way to its node, and how the directory moves them.
-/

namespace Coherence

open DirectoryProtocol

/-! ## Messages -/

/-- The message a request is sent as. -/
def requestKind : Request → MessageKind
  | .read => .gets
  | .write => .getm
  | .upgrade => .getx

def replyKind : Reply → MessageKind
  | .ack => .invack
  | .data => .data

def grantKind : Grant → MessageKind
  | .data => .data
  | .cleanExclusive => .dataE
  | .ack => .ack

/-- The message an order is sent as, with its `dirty` mark. -/
def orderMessage : Order → MessageKind × Bool
  | .invalidate => (.reqInvalid, false)
  | .giveBack => (.recallGotoI, false)
  | .share => (.recallGotoS, false)
  | .own keep => (.recallGotoS, keep)

/-- One message of kind `k`. -/
def one (k k' : MessageKind) : Nat := if k' = k then 1 else 0

@[simp] theorem one_self (k : MessageKind) : one k k = 1 := if_pos rfl

theorem one_of_ne {k k' : MessageKind} (ne : k' ≠ k) : one k k' = 0 := if_neg ne

def upRequest (p : Phase) (k : MessageKind) : Nat :=
  match p with
  | .asked r => one (requestKind r) k
  | _ => 0

def upReply (p : Probe) (k : MessageKind) : Nat :=
  match p with
  | .answered reply => one (replyKind reply) k
  | _ => 0

/-- How many messages of each kind a slot accounts for on the way to the directory. -/
def up (s : Slot) (k : MessageKind) : Nat :=
  upRequest s.phase k + upReply s.probe k + s.writebacks * one .dataWb k

/-- The grant a slot accounts for on the way to its node. -/
def downGrant (p : Phase) : List (MessageKind × Bool) :=
  match p with
  | .granted g => [(grantKind g, false)]
  | _ => []

/-- The order a slot accounts for on the way to its node. -/
def downOrder (p : Probe) : List (MessageKind × Bool) :=
  match p with
  | .sent o => [orderMessage o]
  | _ => []

/-- The messages a slot accounts for on the way to its node, in their order. -/
def down (s : Slot) : List (MessageKind × Bool) := downGrant s.phase ++ downOrder s.probe

theorem downOrder_unsent {p : Probe} (unsent : ∀ o, p ≠ .sent o) : downOrder p = [] := by
  cases p with
  | sent o => exact absurd rfl (unsent o)
  | _ => rfl

/-! ## What a message says about its slot -/

section

variable {s : Slot}

/-- Where a message on its way to the directory comes from. -/
theorem source_of_up {k : MessageKind} (here : 0 < up s k) :
    (∃ r, s.phase = .asked r ∧ k = requestKind r) ∨
      (∃ reply, s.probe = .answered reply ∧ k = replyKind reply) ∨
      0 < s.writebacks ∧ k = .dataWb := by
  by_contra none
  simp only [not_or, not_exists, not_and] at none
  obtain ⟨request, reply, notice⟩ := none
  have asked : upRequest s.phase k = 0 := by
    cases phase : s.phase with
    | asked r => exact one_of_ne (request r phase)
    | _ => rfl
  have answered : upReply s.probe k = 0 := by
    cases probe : s.probe with
    | answered r => exact one_of_ne (reply r probe)
    | _ => rfl
  have noticed : s.writebacks * one .dataWb k = 0 := by
    rcases Nat.eq_zero_or_pos s.writebacks with zero | pos
    · rw [zero, Nat.zero_mul]
    · rw [one_of_ne (notice pos), Nat.mul_zero]
  simp only [up, asked, answered, noticed] at here
  omega

theorem asked_of_up {r : Request} (here : 0 < up s (requestKind r)) : s.phase = .asked r := by
  rcases source_of_up here with ⟨r', asked, eq⟩ | ⟨reply, -, eq⟩ | ⟨-, eq⟩
  · cases r <;> cases r' <;> cases eq <;> exact asked
  · cases r <;> cases reply <;> cases eq
  · cases r <;> cases eq

theorem answered_of_up {reply : Reply} (here : 0 < up s (replyKind reply)) :
    s.probe = .answered reply := by
  rcases source_of_up here with ⟨r, -, eq⟩ | ⟨reply', answered, eq⟩ | ⟨-, eq⟩
  · cases r <;> cases reply <;> cases eq
  · cases reply <;> cases reply' <;> cases eq <;> exact answered
  · cases reply <;> cases eq

theorem notice_of_up (here : 0 < up s .dataWb) : 0 < s.writebacks := by
  rcases source_of_up here with ⟨r, -, eq⟩ | ⟨reply, -, eq⟩ | ⟨notice, -⟩
  · cases r <;> cases eq
  · cases reply <;> cases eq
  · exact notice

end

theorem grantKind_injective {g g' : Grant} (eq : grantKind g = grantKind g') : g = g' := by
  cases g <;> cases g' <;> cases eq <;> rfl

theorem grantKind_ne_order (g : Grant) (o : Order) : grantKind g ≠ (orderMessage o).1 := by
  cases g <;> cases o <;> nofun

/-- What the first message on its way to a node is. -/
theorem down_cons {s : Slot} {x : MessageKind × Bool} {l : List (MessageKind × Bool)}
    (first : x :: l = down s) :
    (∃ g, s.phase = .granted g ∧ x.1 = grantKind g ∧ l = downOrder s.probe) ∨
      (∀ g, s.phase ≠ .granted g) ∧ ∃ o, s.probe = .sent o ∧ x = orderMessage o ∧ l = [] := by
  cases phase : s.phase with
  | granted g =>
      rw [down, phase, downGrant, List.singleton_append, List.cons.injEq] at first
      exact .inl ⟨g, rfl, by rw [first.1], first.2⟩
  | _ =>
      have first : x :: l = downOrder s.probe := by simpa [down, phase, downGrant] using first
      cases probe : s.probe with
      | sent o =>
          rw [probe, downOrder, List.cons.injEq] at first
          exact .inr ⟨nofun, o, rfl, first⟩
      | _ =>
          rw [probe] at first
          cases first

/-! ## Messages the directory moves -/

/-- The entries of a list that are about node `j`. -/
def addressed {α : Type} (j : NodeId) (l : List (NodeId × α)) : List α :=
  l.filterMap fun x => if x.1 = j then some x.2 else none

section

variable {α : Type} (j : NodeId)

@[simp] theorem addressed_nil : addressed j ([] : List (NodeId × α)) = [] := rfl

@[simp] theorem addressed_append (l l' : List (NodeId × α)) :
    addressed j (l ++ l') = addressed j l ++ addressed j l' := List.filterMap_append ..

theorem addressed_cons (x : NodeId × α) (l : List (NodeId × α)) :
    addressed j (x :: l) = if x.1 = j then x.2 :: addressed j l else addressed j l := by
  simp only [addressed, List.filterMap_cons]
  split <;> simp_all

/-- One message to every node of a list without repetitions. -/
theorem addressed_map {l : List NodeId} (nodup : l.Nodup) (a : α) :
    addressed j (l.map fun i => (i, a)) = if j ∈ l then [a] else [] := by
  induction l with
  | nil => rfl
  | cons i l ih =>
      rw [List.map_cons, addressed_cons, ih nodup.of_cons]
      have fresh := (List.nodup_cons.mp nodup).1
      by_cases eq : i = j
      · subst i
        simp [fresh]
      · simp [eq, Ne.symm eq]

end

/-- A slot's messages before and after the directory took some in, sent some and
    put one request to memory. -/
structure Moves (s s' : Slot) (taken : List MessageKind) (sent : List (MessageKind × Bool))
    (fetch : Option Grant) : Prop where
  right : s'.right = s.right
  want : s'.want = s.want
  resident : s'.resident = s.resident
  upward : ∀ k, up s k = up s' k + taken.count k
  downward : down s' = down s ++ sent
  fetching : ∀ g, s'.phase = .fetching g ↔ fetch = some g

theorem count_one (k k' : MessageKind) : [k].count k' = one k k' := by
  rw [one, List.count_singleton]
  by_cases eq : k' = k
  · simp [eq]
  · simp [eq, Ne.symm eq]

namespace Moves

variable {s s' s'' : Slot}

theorem refl (quiet : ∀ g, s.phase ≠ .fetching g) : Moves s s [] [] none := by
  constructor <;> simp [quiet]

theorem trans {taken taken' : List MessageKind} {sent sent' : List (MessageKind × Bool)}
    {fetch fetch' : Option Grant} (first : Moves s s' taken sent fetch)
    (second : Moves s' s'' taken' sent' fetch') :
    Moves s s'' (taken ++ taken') (sent ++ sent') fetch' where
  right := second.right.trans first.right
  want := second.want.trans first.want
  resident := second.resident.trans first.resident
  upward k := by
    rw [first.upward, second.upward, List.count_append]
    omega
  downward := by rw [second.downward, first.downward, List.append_assoc]
  fetching := second.fetching

theorem quiet {taken : List MessageKind} {sent : List (MessageKind × Bool)}
    (moves : Moves s s' taken sent none) (g : Grant) : s'.phase ≠ .fetching g := by
  simp [moves.fetching]

/-- The directory takes a request in and moves its node's phase on. -/
theorem request {r : Request} (asked : s.phase = .asked r) {p : Phase}
    (taken : ∀ r, p ≠ .asked r) {sent : List (MessageKind × Bool)} {fetch : Option Grant}
    (downward : down { s with phase := p } = down s ++ sent)
    (fetching : ∀ g, p = .fetching g ↔ fetch = some g) :
    Moves s { s with phase := p } [requestKind r] sent fetch where
  right := rfl
  want := rfl
  resident := rfl
  upward k := by
    have none : upRequest p k = 0 := by
      cases p <;> simp_all [upRequest]
    rw [count_one]
    simp only [up, asked, upRequest]
    omega
  downward := downward
  fetching := fetching

theorem wait {r : Request} (asked : s.phase = .asked r) :
    Moves s s.wait [requestKind r] [] none :=
  request asked (by simp) (by simp [down, asked, downGrant]) (by simp)

theorem fetch_asked {r : Request} (asked : s.phase = .asked r) (g : Grant) :
    Moves s (s.fetch g) [requestKind r] [] (some g) :=
  request asked (by simp) (by simp [down, asked, downGrant]) (by simp)

theorem grant_asked {r : Request} (asked : s.phase = .asked r) (unsent : ∀ o, s.probe ≠ .sent o)
    (g : Grant) : Moves s (s.grant g) [requestKind r] [(grantKind g, false)] none :=
  request asked (by simp) (by simp [down, asked, downGrant, downOrder_unsent unsent]) (by simp)

theorem fetch_waiting (waiting : s.phase = .waiting) (g : Grant) :
    Moves s (s.fetch g) [] [] (some g) := by
  constructor <;> simp [Slot.fetch, up, down, waiting, upRequest, downGrant]

theorem grant_waiting (waiting : s.phase = .waiting) (unsent : ∀ o, s.probe ≠ .sent o)
    (g : Grant) : Moves s (s.grant g) [] [(grantKind g, false)] none := by
  constructor <;>
    simp [Slot.grant, up, down, waiting, upRequest, downGrant, downOrder_unsent unsent]

theorem grant_fetching (idle : s.probe = .idle) {g : Grant} (fetching : s.phase = .fetching g) :
    Moves s (s.grant g) [] [(grantKind g, false)] none := by
  constructor <;>
    simp [Slot.grant, up, down, fetching, idle, upRequest, downGrant, downOrder]

theorem send (quiet : ∀ g, s.phase ≠ .fetching g) (idle : s.probe = .idle) (o : Order) :
    Moves s (s.send o) [] [orderMessage o] none := by
  constructor <;> simp [Slot.send, up, down, idle, upReply, downOrder, quiet]

theorem settle (quiet : ∀ g, s.phase ≠ .fetching g) {reply : Reply}
    (answered : s.probe = .answered reply) : Moves s s.settle [replyKind reply] [] none := by
  constructor
  case upward =>
    intro k
    rw [count_one]
    simp only [up, Slot.settle, answered, upReply]
    omega
  all_goals simp [Slot.settle, down, answered, downOrder, quiet]

theorem noted (quiet : ∀ g, s.phase ≠ .fetching g) (notice : 0 < s.writebacks) :
    Moves s s.noted [.dataWb] [] none := by
  obtain ⟨n, eq⟩ : ∃ n, s.writebacks = n + 1 := ⟨s.writebacks - 1, by omega⟩
  constructor
  case upward =>
    intro k
    rw [count_one]
    simp only [up, Slot.noted, eq, Nat.add_sub_cancel, Nat.succ_mul]
    omega
  all_goals simp [Slot.noted, down, quiet]

end Moves

end Coherence
