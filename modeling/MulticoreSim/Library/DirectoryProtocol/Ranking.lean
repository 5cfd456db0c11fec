import Mathlib.Algebra.BigOperators.Group.Finset.Basic
import Mathlib.Algebra.Order.BigOperators.Group.Finset
import MulticoreSim.Library.DirectoryProtocol.Rounds

/-! # What a line has left to do

A request costs its own way to the directory and back, an order to every node and
a recall of the owner. With that much set aside when it is asked, every event but
the asking takes the line on.
-/

namespace DirectoryProtocol

variable {ι : Type}

def Phase.rank (cost : Nat) : Phase → Nat
  | .rest => 0
  | .granted _ => 1
  | .fetching _ => 2
  | .waiting => 3
  | .asked _ => cost

def Probe.rank : Probe → Nat
  | .idle => 0
  | .answered _ => 1
  | .sent _ => 2

/-- While sharers are invalidated for an owned line, its owner may still be recalled. -/
def Mode.rank : Mode ι → Nat
  | .reclaim _ _ _ false => 3
  | _ => 0

namespace Block

/-- What a request may lead to among so many nodes. -/
def cost (nodes : Finset ι) : Nat := 2 * nodes.card + 7

/-- What the requests have left. -/
def asking (nodes : Finset ι) (B : Block ι) : Nat := ∑ i ∈ nodes, (B.slot i).phase.rank (cost nodes)

/-- What the orders have left. -/
def probing (nodes : Finset ι) (B : Block ι) : Nat := ∑ i ∈ nodes, (B.slot i).probe.rank

def rank (nodes : Finset ι) (B : Block ι) : Nat := B.asking nodes + B.probing nodes + B.mode.rank

/-- Nobody else asks or is told anything. -/
structure Among (nodes : Finset ι) (B : Block ι) : Prop where
  asks : ∀ i, (B.slot i).phase ≠ .rest → i ∈ nodes
  told : ∀ i, (B.slot i).probe ≠ .idle → i ∈ nodes
  members : B.members ⊆ nodes

variable [DecidableEq ι] {nodes : Finset ι} {B : Block ι} {i : ι}

/-! ## One slot changes -/

theorem sum_update {g : ι → Nat} {x : Nat} (mem : i ∈ nodes) :
    (∑ j ∈ nodes, if j = i then x else g j) + g i = (∑ j ∈ nodes, g j) + x := by
  rw [← Finset.add_sum_erase nodes g mem, ← Finset.add_sum_erase nodes _ mem, if_pos rfl]
  have rest : (∑ j ∈ nodes.erase i, if j = i then x else g j) = ∑ j ∈ nodes.erase i, g j :=
    Finset.sum_congr rfl fun j inside => if_neg (Finset.ne_of_mem_erase inside)
  omega

theorem asking_modify (f : Slot → Slot) (mem : i ∈ nodes) :
    (B.modify i f).asking nodes + (B.slot i).phase.rank (cost nodes) =
      B.asking nodes + (f (B.slot i)).phase.rank (cost nodes) := by
  unfold asking
  rw [← sum_update (g := fun j => (B.slot j).phase.rank (cost nodes)) mem]
  congr 1
  refine Finset.sum_congr rfl fun j _ => ?_
  rw [modify_slot]
  split
  · next same => rw [same]
  · rfl

theorem probing_modify (f : Slot → Slot) (mem : i ∈ nodes) :
    (B.modify i f).probing nodes + (B.slot i).probe.rank =
      B.probing nodes + (f (B.slot i)).probe.rank := by
  unfold probing
  rw [← sum_update (g := fun j => (B.slot j).probe.rank) mem]
  congr 1
  refine Finset.sum_congr rfl fun j _ => ?_
  rw [modify_slot]
  split
  · next same => rw [same]
  · rfl

omit [DecidableEq ι] in
theorem asking_congr {B' : Block ι} (same : ∀ j, (B'.slot j).phase = (B.slot j).phase) :
    B'.asking nodes = B.asking nodes :=
  Finset.sum_congr rfl fun j _ => by rw [same]

omit [DecidableEq ι] in
theorem probing_congr {B' : Block ι} (same : ∀ j, (B'.slot j).probe = (B.slot j).probe) :
    B'.probing nodes = B.probing nodes :=
  Finset.sum_congr rfl fun j _ => by rw [same]

theorem asking_told {f : Slot → Slot} (keeps : ∀ s, (f s).phase = s.phase) :
    (B.modify i f).asking nodes = B.asking nodes := by
  refine asking_congr fun j => ?_
  rw [modify_slot]
  split
  · exact keeps _
  · rfl

theorem probing_served {f : Slot → Slot} (keeps : ∀ s, (f s).probe = s.probe) :
    (B.modify i f).probing nodes = B.probing nodes := by
  refine probing_congr fun j => ?_
  rw [modify_slot]
  split
  · exact keeps _
  · rfl

/-- An order costs at most its way to the node and back. -/
theorem probing_send (o : Order) : (B.modify i (.send o)).probing nodes ≤ B.probing nodes + 2 := by
  by_cases mem : i ∈ nodes
  · have change := probing_modify (B := B) (.send o) mem
    simp only [Slot.send, Probe.rank] at change
    omega
  · refine (Finset.sum_congr rfl fun j inside => ?_).le.trans (Nat.le_add_right _ 2)
    have other : j ≠ i := fun same => mem (same ▸ inside)
    rw [modify_slot_of_ne B _ other]

theorem probing_order (targets : Finset ι) (o : Order) :
    (B.order targets o).probing nodes ≤ B.probing nodes + 2 * nodes.card := by
  have each : ∀ j ∈ nodes, ((B.order targets o).slot j).probe.rank ≤ (B.slot j).probe.rank + 2 := by
    intro j _
    rw [order_slot]
    split
    · exact Nat.le_add_left ..
    · exact Nat.le_add_right ..
  refine (Finset.sum_le_sum each).trans ?_
  rw [Finset.sum_add_distrib, Finset.sum_const_nat fun _ _ => rfl, Nat.mul_comm nodes.card 2]
  exact Nat.le_refl _

theorem asking_order (targets : Finset ι) (o : Order) :
    (B.order targets o).asking nodes = B.asking nodes := by
  refine asking_congr fun j => ?_
  rw [order_slot]
  split <;> rfl

/-! ## The directory takes a request up, or ends its round -/

section

variable {f : Slot → Slot} {r : Request} {g : Grant} {m : Mode ι} {members : Finset ι}

theorem asking_taken (asks : B.Asks i r) (mem : i ∈ nodes) (wait : (f (B.slot i)).phase.rank (cost nodes) ≤ 3) :
    (B.modify i f).asking nodes + cost nodes ≤ B.asking nodes + 3 := by
  have change := asking_modify (B := B) f mem
  have before : (B.slot i).phase.rank (cost nodes) = cost nodes := by
    rw [show (B.slot i).phase = .asked r from asks]
    rfl
  omega

theorem asking_ended (waiting : (B.slot i).phase = .waiting) (mem : i ∈ nodes)
    (soon : (f (B.slot i)).phase.rank (cost nodes) ≤ 2) : (B.modify i f).asking nodes < B.asking nodes := by
  have change := asking_modify (B := B) f mem
  have before : (B.slot i).phase.rank (cost nodes) = 3 := by
    rw [waiting]
    rfl
  omega

theorem rank_fetch (asks : B.Asks i r) (mem : i ∈ nodes) (last : m.rank = 0) :
    (B.fetch i g m members).rank nodes < B.rank nodes := by
  have asking : (B.fetch i g m members).asking nodes + cost nodes ≤ B.asking nodes + 3 :=
    asking_taken asks mem (Nat.le_succ 2)
  have probing : (B.fetch i g m members).probing nodes = B.probing nodes := probing_served fun _ => rfl
  simp only [rank, fetch_mode, last, cost] at *
  omega

theorem rank_serve (asks : B.Asks i r) (mem : i ∈ nodes) (last : m.rank = 0) :
    (B.serve i g m members).rank nodes < B.rank nodes := by
  have asking : (B.serve i g m members).asking nodes + cost nodes ≤ B.asking nodes + 3 :=
    asking_taken asks mem (Nat.le_of_ble_eq_true rfl)
  have probing : (B.serve i g m members).probing nodes = B.probing nodes := probing_served fun _ => rfl
  simp only [rank, serve_mode, last, cost] at *
  omega

/-- Somebody is told to make room for the request. -/
theorem rank_tell {h : ι} {o : Order} (asks : B.Asks i r) (mem : i ∈ nodes) (last : m.rank = 0) :
    (B.tell h i o m).rank nodes < B.rank nodes := by
  have asks' : (B.modify h (.send o)).Asks i r := by
    rw [Asks, modify_slot]
    split <;> exact asks
  have asking : (B.tell h i o m).asking nodes + cost nodes ≤ (B.modify h (.send o)).asking nodes + 3 :=
    asking_taken asks' mem (Nat.le_refl 3)
  rw [asking_told (f := .send o) fun _ => rfl] at asking
  have probing : (B.tell h i o m).probing nodes = (B.modify h (.send o)).probing nodes :=
    probing_served fun _ => rfl
  have told : (B.modify h (.send o)).probing nodes ≤ B.probing nodes + 2 := probing_send o
  simp only [rank, tell_mode, last, cost] at *
  omega

theorem rank_purge {targets : Finset ι} (asks : B.Asks i r) (mem : i ∈ nodes) (last : m.rank ≤ 3) :
    (B.purge targets i m).rank nodes < B.rank nodes := by
  have asks' : (B.order targets .invalidate).Asks i r := by
    rw [Asks, order_slot]
    split <;> exact asks
  have asking : (B.purge targets i m).asking nodes + cost nodes ≤
      (B.order targets .invalidate).asking nodes + 3 := asking_taken asks' mem (Nat.le_refl 3)
  rw [asking_order] at asking
  have probing : (B.purge targets i m).probing nodes = (B.order targets .invalidate).probing nodes :=
    probing_served fun _ => rfl
  have told : (B.order targets .invalidate).probing nodes ≤ B.probing nodes + 2 * nodes.card :=
    probing_order targets .invalidate
  simp only [rank, purge_mode, cost] at *
  omega

theorem probing_settle (h : ι) : (B.modify h .settle).probing nodes ≤ B.probing nodes := by
  refine Finset.sum_le_sum fun j _ => ?_
  rw [modify_slot]
  split
  · exact Nat.zero_le _
  · exact Nat.le_refl _

theorem probing_settled {h : ι} {reply : Reply} (answered : (B.slot h).probe = .answered reply) (mem : h ∈ nodes) :
    (B.modify h .settle).probing nodes < B.probing nodes := by
  have change := probing_modify (B := B) .settle mem
  rw [answered] at change
  simp only [Slot.settle, Probe.rank] at change
  omega

/-- The round of the node that waits is over. -/
theorem rank_served (waiting : (B.slot i).phase = .waiting) (mem : i ∈ nodes) (last : m.rank = 0) :
    (B.serve i g m members).rank nodes < B.rank nodes := by
  have asking : (B.serve i g m members).asking nodes < B.asking nodes :=
    asking_ended waiting mem (Nat.le_succ 1)
  have probing : (B.serve i g m members).probing nodes = B.probing nodes := probing_served fun _ => rfl
  simp only [rank, serve_mode, last]
  omega

theorem rank_fetched (waiting : (B.slot i).phase = .waiting) (mem : i ∈ nodes) (last : m.rank = 0) :
    (B.fetch i g m members).rank nodes < B.rank nodes := by
  have asking : (B.fetch i g m members).asking nodes < B.asking nodes :=
    asking_ended waiting mem (Nat.le_refl 2)
  have probing : (B.fetch i g m members).probing nodes = B.probing nodes := probing_served fun _ => rfl
  simp only [rank, fetch_mode, last]
  omega

theorem rank_settle (h : ι) : (B.modify h .settle).rank nodes ≤ B.rank nodes := by
  have asking : (B.modify h .settle).asking nodes = B.asking nodes := asking_told fun _ => rfl
  have probing : (B.modify h .settle).probing nodes ≤ B.probing nodes := probing_settle h
  simp only [rank, modify_mode]
  omega

theorem rank_settled {h : ι} {reply : Reply} (answered : (B.slot h).probe = .answered reply) (mem : h ∈ nodes) :
    (B.modify h .settle).rank nodes < B.rank nodes := by
  have asking : (B.modify h .settle).asking nodes = B.asking nodes := asking_told fun _ => rfl
  have probing := probing_settled answered mem
  simp only [rank, modify_mode]
  omega

end

/-! ## Every event -/

end Block

/-- The event takes a request, an order or a round on. -/
def Event.Works : Event ι → Prop
  | .ask .. | .evict _ | .lose _ | .refill _ | .writeback _ => False
  | _ => True

namespace Block

variable [DecidableEq ι] {nodes : Finset ι} {B B' : Block ι} {i : ι}

/-- A node answers an order. -/
theorem rank_answer {o : Order} {right : Right} {reply : Reply} (sent : (B.slot i).probe = .sent o)
    (mem : i ∈ nodes) : (B.modify i (.answer right reply)).rank nodes < B.rank nodes := by
  have asking : (B.modify i (.answer right reply)).asking nodes = B.asking nodes :=
    asking_told fun _ => rfl
  have probing := probing_modify (B := B) (.answer right reply) mem
  rw [sent] at probing
  simp only [rank, modify_mode, Slot.answer, Probe.rank] at *
  omega

omit [DecidableEq ι] in
theorem asks_mem (among : B.Among nodes) {r : Request} (asks : B.Asks i r) : i ∈ nodes := by
  refine among.asks i fun rest => ?_
  rw [show (B.slot i).phase = .asked r from asks] at rest
  cases rest

omit [DecidableEq ι] in
theorem waiting_mem (among : B.Among nodes) (waiting : (B.slot i).phase = .waiting) : i ∈ nodes := by
  refine among.asks i fun rest => ?_
  rw [waiting] at rest
  cases rest

omit [DecidableEq ι] in
theorem told_mem (among : B.Among nodes) {p : Probe} (told : (B.slot i).probe = p) (busy : p ≠ .idle) : i ∈ nodes :=
  among.told i fun idle => busy (told.symm.trans idle)

theorem waiting_settle {h : ι} (waiting : (B.slot i).phase = .waiting) :
    ((B.modify h .settle).slot i).phase = .waiting := by
  rw [modify_slot]
  split <;> exact waiting

/-- Whatever works leaves less to do. -/
theorem rank_after (inv : B.Inv) (among : B.Among nodes) {e : Event ι} (enabled : B.Enabled e)
    (works : e.Works) : (B.after e).rank nodes < B.rank nodes := by
  have serves : ∀ {r}, B.mode.requester = some r → (B.slot r).phase = .waiting :=
    fun requester => (inv.waiting _).mpr requester
  cases e with
  | ask i r | evict i | lose i | refill i | writeback i => exact works.elim
  | accept i =>
      obtain ⟨g, granted⟩ := enabled
      have mem : i ∈ nodes := among.asks i fun rest => by
        rw [granted] at rest
        cases rest
      have asking := asking_modify (B := B) .accept mem
      have probing : (B.modify i .accept).probing nodes = B.probing nodes := probing_served fun _ => rfl
      have before : (B.slot i).phase.rank (cost nodes) = 1 := by
        rw [granted]
        rfl
      simp only [after, rank, modify_mode, Slot.accept, Phase.rank] at *
      omega
  | drop i => exact rank_answer enabled.1 (told_mem among enabled.1 (by simp))
  | surrender i => exact rank_answer enabled.1 (told_mem among enabled.1 (by simp))
  | share i => exact rank_answer enabled.1 (told_mem among enabled.1 (by simp))
  | own i keep => exact rank_answer enabled.1 (told_mem among enabled.1 (by simp))
  | respond i g =>
      have fetching : (B.slot i).phase = .fetching g := enabled
      have mem : i ∈ nodes := among.asks i fun rest => by
        rw [fetching] at rest
        cases rest
      have asking := asking_modify (B := B) (.grant g) mem
      have probing : (B.modify i (.grant g)).probing nodes = B.probing nodes :=
        probing_served fun _ => rfl
      have before : (B.slot i).phase.rank (cost nodes) = 2 := by
        rw [fetching]
        rfl
      simp only [after, rank, modify_mode, Slot.grant, Phase.rank] at *
      omega
  | grantExclusive i =>
      rcases enabled.2.2 with asks | asks <;> exact rank_fetch asks (asks_mem among asks) rfl
  | grantShared i => exact rank_fetch enabled.2.2 (asks_mem among enabled.2.2) rfl
  | grantClean i => exact rank_fetch enabled.2.2 (asks_mem among enabled.2.2) rfl
  | join i => exact rank_fetch enabled.2.2 (asks_mem among enabled.2.2) rfl
  | promote h i => exact rank_serve enabled.2.2 (asks_mem among enabled.2.2) rfl
  | takeover h i c =>
      rcases enabled.2.2 with asks | asks <;> exact rank_tell asks (asks_mem among asks) rfl
  | downgrade h i c => exact rank_tell enabled.2.2 (asks_mem among enabled.2.2) rfl
  | forward o i c k => exact rank_tell enabled.2.2 (asks_mem among enabled.2.2) rfl
  | upgrade i =>
      rcases enabled.2.2.1 with asks | asks <;> exact rank_serve asks (asks_mem among asks) rfl
  | invalidate i =>
      rcases enabled.2.2 with asks | asks <;>
        exact rank_purge asks (asks_mem among asks) (Nat.zero_le 3)
  | reclaim o i c all =>
      rcases enabled.2.2.1 with asks | asks <;>
        exact rank_purge asks (asks_mem among asks) (Nat.le_refl 3)
  | takenOver h i | downgraded h i | forwarded h i c =>
      have waiting : (B.slot i).phase = .waiting := serves (by rw [enabled.2.1]; rfl)
      exact (rank_served (waiting_settle waiting) (waiting_mem among waiting) rfl).trans_le (rank_settle h)
  | collect r i => exact rank_settled enabled.2.2 (told_mem among enabled.2.2 (by simp))
  | collectOwned o r i c => exact rank_settled enabled.2.2 (told_mem among enabled.2.2 (by simp))
  | collected r =>
      have waiting : (B.slot r).phase = .waiting := serves (by rw [enabled.2.1]; rfl)
      simp only [after]
      split
      · exact rank_served waiting (waiting_mem among waiting) rfl
      · exact rank_fetched waiting (waiting_mem among waiting) rfl
  | upgradeOwner o c =>
      have waiting : (B.slot o).phase = .waiting := serves (by rw [enabled.2.1]; rfl)
      exact rank_served waiting (waiting_mem among waiting) rfl
  | recallOwner o r c =>
      have asking : (B.modify o (.send .giveBack)).asking nodes = B.asking nodes :=
        asking_told fun _ => rfl
      have probing : (B.modify o (.send .giveBack)).probing nodes ≤ B.probing nodes + 2 := probing_send .giveBack
      have before : B.mode.rank = 3 := by
        rw [enabled.2.1]
        rfl
      have less : (B.after (.recallOwner o r c)).rank nodes =
          (B.modify o (.send .giveBack)).asking nodes + (B.modify o (.send .giveBack)).probing nodes := rfl
      rw [less, rank]
      omega
  | reclaimed o r c =>
      have waiting : (B.slot r).phase = .waiting := serves (by rw [enabled.2.1]; rfl)
      simp only [after]
      split
      · exact (rank_served (waiting_settle waiting) (waiting_mem among waiting) rfl).trans_le (rank_settle o)
      · exact (rank_served (waiting_settle waiting) (waiting_mem among waiting) rfl).trans_le (rank_settle o)

/-! ## Several events -/

/-- Requests and orders are where they were. -/
def Still (B B' : Block ι) : Prop :=
  ∀ i, (B'.slot i).phase = (B.slot i).phase ∧ (B'.slot i).probe = (B.slot i).probe

omit [DecidableEq ι] in
theorem Still.refl (B : Block ι) : B.Still B := fun _ => ⟨rfl, rfl⟩

omit [DecidableEq ι] in
theorem Still.trans {C : Block ι} (first : B.Still B') (second : B'.Still C) : B.Still C :=
  fun i => ⟨(second i).1.trans (first i).1, (second i).2.trans (first i).2⟩

theorem still_modify {f : Slot → Slot} (phase : ∀ s, (f s).phase = s.phase) (probe : ∀ s, (f s).probe = s.probe) :
    B.Still (B.modify i f) := by
  intro j
  rw [modify_slot]
  split
  · exact ⟨phase _, probe _⟩
  · exact ⟨rfl, rfl⟩

omit [DecidableEq ι] in
theorem still_rank {B' : Block ι} (still : B.Still B') (mode : B'.mode = B.mode) :
    B'.rank nodes = B.rank nodes := by
  rw [rank, rank, mode, asking_congr fun j => (still j).1, probing_congr fun j => (still j).2]

/-- The slot where the event is about a request. -/
theorem rest_modify {f : Slot → Slot} {j : ι} (rest : (B.slot j).phase = .rest)
    (own : j = i → (f (B.slot j)).phase = .rest) : ((B.modify i f).slot j).phase = .rest := by
  rw [modify_slot]
  split
  · next same => exact own same
  · exact rest

theorem rest_order {targets : Finset ι} {o : Order} {j : ι} (rest : (B.slot j).phase = .rest) :
    ((B.order targets o).slot j).phase = .rest := by
  rw [order_slot]
  split <;> exact rest

/-- Only who asks leaves its rest. -/
theorem rest_after (inv : B.Inv) {e : Event ι} (enabled : B.Enabled e) {j : ι}
    (rest : (B.slot j).phase = .rest) (other : ∀ r, e ≠ .ask j r) : ((B.after e).slot j).phase = .rest := by
  have asking : ∀ {i r}, B.Asks i r → j ≠ i := by
    rintro i r asks rfl
    cases rest.symm.trans asks
  have writing : ∀ {i}, B.AsksWrite i → j ≠ i := fun asks => asks.elim asking asking
  have waiting : ∀ {r}, B.mode.requester = some r → j ≠ r := by
    rintro r requester rfl
    cases rest.symm.trans ((inv.waiting _).mpr requester)
  have away : ∀ {i : ι} {f : Slot → Slot} {X : Block ι}, (X.slot j).phase = .rest → j ≠ i →
      ((X.modify i f).slot j).phase = .rest := fun rest ne => rest_modify rest fun same => absurd same ne
  have told : ∀ {i : ι} {o : Order}, ((B.modify i (.send o)).slot j).phase = .rest :=
    rest_modify rest fun _ => rest
  have settled : ∀ {i : ι}, ((B.modify i .settle).slot j).phase = .rest := rest_modify rest fun _ => rest
  cases e with
  | ask i r =>
      refine away rest ?_
      rintro rfl
      exact other r rfl
  | accept i => exact rest_modify rest fun _ => rfl
  | drop i | surrender i | share i | own i keep | evict i | lose i | refill i =>
      exact rest_modify rest fun _ => rest
  | respond i g =>
      refine away rest ?_
      rintro rfl
      cases rest.symm.trans enabled
  | grantExclusive i => exact away rest (writing enabled.2.2)
  | grantShared i | grantClean i | join i => exact away rest (asking enabled.2.2)
  | promote h i => exact away rest (asking enabled.2.2)
  | takeover h i c => exact away told (writing enabled.2.2)
  | downgrade h i c => exact away told (asking enabled.2.2)
  | forward o i c k => exact away told (asking enabled.2.2)
  | upgrade i => exact away rest (writing enabled.2.2.1)
  | invalidate i => exact away (rest_order rest) (writing enabled.2.2)
  | reclaim o i c all => exact away (rest_order rest) (writing enabled.2.2.1)
  | takenOver h i | downgraded h i | forwarded h i c =>
      exact away settled (waiting (by rw [enabled.2.1]; rfl))
  | collect r i | collectOwned o r i c => exact settled
  | collected r =>
      have ne : j ≠ r := waiting (by rw [enabled.2.1]; rfl)
      simp only [after]
      split
      · exact away rest ne
      · exact away rest ne
  | upgradeOwner o c => exact away rest (waiting (by rw [enabled.2.1]; rfl))
  | recallOwner o r c => exact told
  | reclaimed o r c =>
      have ne : j ≠ r := waiting (by rw [enabled.2.1]; rfl)
      simp only [after]
      split
      · exact away settled ne
      · exact away settled ne
  | writeback i => exact rest_modify rest fun _ => rest

/-- New members asked. -/
theorem members_after (inv : B.Inv) {e : Event ι} (enabled : B.Enabled e) {j : ι} (mem : j ∈ (B.after e).members) :
    j ∈ B.members ∨ (B.slot j).phase ≠ .rest := by
  have asking : ∀ {i r}, B.Asks i r → j = i → (B.slot j).phase ≠ .rest := by
    rintro i r asks rfl rest
    cases rest.symm.trans asks
  have writing : ∀ {i}, B.AsksWrite i → j = i → (B.slot j).phase ≠ .rest :=
    fun asks same => asks.elim (asking · same) (asking · same)
  have waiting : ∀ {r}, B.mode.requester = some r → j = r → (B.slot j).phase ≠ .rest := by
    rintro r requester rfl rest
    cases rest.symm.trans ((inv.waiting _).mpr requester)
  cases e with
  | grantExclusive i => exact .inr (writing enabled.2.2 (Finset.mem_singleton.mp mem))
  | grantShared i | grantClean i => exact .inr (asking enabled.2.2 (Finset.mem_singleton.mp mem))
  | join i => exact ((Finset.mem_insert.mp mem).imp (asking enabled.2.2) id).symm
  | upgrade i => exact .inr (writing enabled.2.2.1 (Finset.mem_singleton.mp mem))
  | takenOver h i => exact .inr (waiting (by rw [enabled.2.1]; rfl) (Finset.mem_singleton.mp mem))
  | downgraded h i | forwarded h i c =>
      exact ((Finset.mem_insert.mp mem).imp (waiting (by rw [enabled.2.1]; rfl)) id).symm
  | collect r i | collectOwned o r i c | writeback i => exact .inl (Finset.mem_of_mem_erase mem)
  | collected r =>
      simp only [after] at mem
      split at mem
      · exact .inl mem
      · exact ((Finset.mem_insert.mp mem).imp (waiting (by rw [enabled.2.1]; rfl)) id).symm
  | reclaimed o r c =>
      simp only [after] at mem
      split at mem
      · exact .inl (Finset.mem_of_mem_erase mem)
      · refine ((Finset.mem_insert.mp mem).imp (waiting (by rw [enabled.2.1]; rfl)) ?_).symm
        exact Finset.mem_of_mem_erase
  | _ => exact .inl mem

theorem Among.after (among : B.Among nodes) (inv : B.Inv) {e : Event ι} (enabled : B.Enabled e)
    (asker : ∀ i r, e = .ask i r → i ∈ nodes) : (B.after e).Among nodes := by
  have members : (B.after e).members ⊆ nodes := fun j mem =>
    (members_after inv enabled mem).elim (fun old => among.members old) (among.asks j)
  refine ⟨fun j asks => ?_, fun j told => ?_, members⟩
  · by_contra out
    refine asks (rest_after inv enabled ?_ fun r eq => out (asker j r eq))
    by_contra busy
    exact out (among.asks j busy)
  · by_contra out
    exact told ((inv.after enabled).outsiders j fun mem => out (members mem))

/-- Events in a row, each with what holds before it. -/
theorem Steps.under {ok : Block ι → Event ι → Prop} {I : Block ι → Prop} (steps : B.Steps ok B') (base : I B)
    (kept : ∀ X e, I X → ok X e → X.Enabled e → I (X.after e)) :
    B.Steps (fun X e => ok X e ∧ I X) B' := by
  have both : I B' ∧ B.Steps (fun X e => ok X e ∧ I X) B' := by
    induction steps with
    | refl => exact ⟨base, .refl⟩
    | tail _ step ih =>
        obtain ⟨e, meets, enabled, rfl⟩ := step
        exact ⟨kept _ e ih.1 meets enabled, ih.2.tail ⟨e, ⟨meets, ih.1⟩, enabled, rfl⟩⟩
  exact both.2

/-- Events that work, and answers of a node's own agent, take a line on or leave its
    requests and orders where they are. -/
theorem Steps.rank {ok : Block ι → Event ι → Prop} (steps : B.Steps ok B') (inv : B.Inv) (among : B.Among nodes)
    (works : ∀ X e, ok X e → X.Enabled e → e.Works ∨ ∃ i, e = .refill i) :
    B'.rank nodes < B.rank nodes ∨ B'.rank nodes = B.rank nodes ∧ B.Still B' := by
  have kept := steps.keep (I := fun X => X.Inv ∧ X.Among nodes ∧
    (X.rank nodes < B.rank nodes ∨ X.rank nodes = B.rank nodes ∧ B.Still X)) ⟨inv, among, .inr ⟨rfl, .refl B⟩⟩ ?_
  · exact kept.2.2
  · rintro X e ⟨inv, among, sofar⟩ meets enabled
    have working := works X e meets enabled
    refine ⟨inv.after enabled, among.after inv enabled ?_, ?_⟩
    · rintro i r rfl
      rcases working with none | ⟨i', other⟩
      · exact none.elim
      · cases other
    rcases working with works | ⟨i, rfl⟩
    · left
      have less := rank_after inv among enabled works
      rcases sofar with before | ⟨same, -⟩ <;> omega
    · have still : X.Still (X.after (.refill i)) := still_modify (fun _ => rfl) fun _ => rfl
      have same : (X.after (.refill i)).rank nodes = X.rank nodes := still_rank still rfl
      rw [same]
      exact sofar.imp_right fun before => ⟨before.1, before.2.trans still⟩

/-- Asking costs what is set aside for it. -/
theorem rank_ask {r : Request} : (B.after (.ask i r)).rank nodes ≤ B.rank nodes + cost nodes := by
  have probing : (B.modify i (.ask r)).probing nodes = B.probing nodes := probing_served fun _ => rfl
  have asking : (B.modify i (.ask r)).asking nodes ≤ B.asking nodes + cost nodes := by
    by_cases mem : i ∈ nodes
    · have change := asking_modify (B := B) (.ask r) mem
      simp only [Slot.ask, Phase.rank] at change ⊢
      omega
    · refine (Finset.sum_congr rfl fun j inside => ?_).le.trans (Nat.le_add_right _ _)
      have other : j ≠ i := fun same => mem (same ▸ inside)
      rw [modify_slot_of_ne B _ other]
  simp only [Block.after, Block.rank, modify_mode]
  omega

/-! ## Lines without requests -/

omit [DecidableEq ι] in
theorem stable_iff (inv : B.Inv) : B.mode.Stable ↔ ∀ i, (B.slot i).phase ≠ .waiting := by
  constructor
  · intro stable i waiting
    cases stable.symm.trans ((inv.waiting i).mp waiting)
  · intro none
    by_contra transient
    obtain ⟨r, requester⟩ := Option.ne_none_iff_exists'.mp transient
    exact none r ((inv.waiting r).mpr requester)

omit [DecidableEq ι] in
theorem stable_of_rest (inv : B.Inv) (rest : ∀ i, (B.slot i).phase = .rest) : B.mode.Stable := by
  refine (stable_iff inv).mpr fun i waiting => ?_
  cases (rest i).symm.trans waiting

omit [DecidableEq ι] in
theorem idle_of_rest (inv : B.Inv) (rest : ∀ i, (B.slot i).phase = .rest) (i : ι) : (B.slot i).probe = .idle :=
  idle_of_stable inv (stable_of_rest inv rest) i

omit [DecidableEq ι] in
theorem still_of_rest (inv : B.Inv) (inv' : B'.Inv) (rest : ∀ i, (B.slot i).phase = .rest)
    (rest' : ∀ i, (B'.slot i).phase = .rest) : B.Still B' := fun i =>
  ⟨(rest' i).trans (rest i).symm, (idle_of_rest inv' rest' i).trans (idle_of_rest inv rest i).symm⟩

omit [DecidableEq ι] in
/-- Where nobody asks nothing is left. -/
theorem rank_of_rest (inv : B.Inv) (rest : ∀ i, (B.slot i).phase = .rest) : B.rank nodes = 0 := by
  have asking : B.asking nodes = 0 := Finset.sum_eq_zero fun i _ => by rw [rest i]; rfl
  have probing : B.probing nodes = 0 := Finset.sum_eq_zero fun i _ => by rw [idle_of_rest inv rest i]; rfl
  have mode : B.mode.rank = 0 := by
    have stable := stable_of_rest inv rest
    cases here : B.mode with
    | reclaim o r c recalled =>
        rw [here] at stable
        cases stable
    | _ => rfl
  rw [rank, asking, probing, mode]

omit [DecidableEq ι] in
theorem rest_of_rank (none : B.rank nodes = 0) (mem : i ∈ nodes) : (B.slot i).phase = .rest := by
  have asking : B.asking nodes = 0 := (Nat.add_eq_zero_iff.mp (Nat.add_eq_zero_iff.mp none).1).1
  have phase := Finset.sum_eq_zero_iff.mp asking i mem
  cases here : (B.slot i).phase with
  | rest => rfl
  | asked r =>
      rw [here] at phase
      exact absurd phase (Nat.succ_ne_zero _)
  | waiting | fetching g | granted g =>
      rw [here] at phase
      cases phase

end Block

end DirectoryProtocol
