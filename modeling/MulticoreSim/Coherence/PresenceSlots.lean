import Mathlib.Data.List.Find
import MulticoreSim.Coherence.Answers
import MulticoreSim.Coherence.Bookkeeping
import MulticoreSim.Coherence.FiciCpu

/-! # Which presence slots the directory touches

An entry has `kMaxSharers` presence slots, whatever the number of CPUs. Beside each
directory stand the slots its branches read or write; no other slot matters to a
branch. With at most `kMaxSharers` CPUs every slot touched exists and every message
goes to a CPU; with one more, the first request of CPU `kMaxSharers` is out of bounds.
-/

namespace Coherence

open DirectoryProtocol Outcome

/-! ## The slots -/

/-- `handle_writeback` looks at its sender where the entry is stable. -/
def writebackSlots (e : DirEntry) (r : Message) : List NodeId :=
  match e.state with
  | .I | .S | .E | .M | .O | .F => [r.src]
  | _ => []

/-- The slots of `invackSM`. -/
def invackSlots (e : DirEntry) (r : Message) : List NodeId :=
  if 1 ≤ e.invAckWaiting then
    r.src :: if e.invAckWaiting = 1 then [e.reqNodeInTransient] else []
  else []

/-- The slots of `invackOwned`. -/
def invackOwnedSlots (e : DirEntry) (r : Message) : List NodeId :=
  if 1 ≤ e.invAckWaiting then [r.src] else []

def miSlots (s : Settings) (e : DirEntry) (r : Message) : List NodeId :=
  match e.state, r.kind with
  | .I, .getm => [r.src]
  | .M, .getm => List.range s.numProcs
  | .MM, .data => [r.src, e.reqNodeInTransient]
  | _, _ => []

/-- The loops of `MSI_tick` run over the whole array. -/
def msiSlots (e : DirEntry) (r : Message) : List NodeId :=
  match e.state, r.kind with
  | .I, .getm | .I, .gets | .S, .gets => [r.src]
  | .M, .getm | .M, .gets => List.range kMaxSharers
  | .MM, .data => List.range kMaxSharers ++ [e.reqNodeInTransient]
  | .MS, .data => [e.reqNodeInTransient]
  | .S, .getm => r.src :: List.range kMaxSharers
  | .SM, .invack =>
      r.src :: if e.invAckWaiting = 1 ∧ e.getMUpgrade = false then [e.reqNodeInTransient] else []
  | _, _ => []

def mesiSlots (s : Settings) (e : DirEntry) (r : Message) : List NodeId :=
  match e.state, r.kind with
  | .I, .getm | .I, .getx | .I, .gets | .S, .gets => [r.src]
  | .M, .getm | .M, .getx | .M, .gets | .E, .getm | .E, .gets | .S, .getm | .S, .getx =>
      List.range s.numProcs
  | .MM, .data | .EM, .data => [r.src, e.reqNodeInTransient]
  | .MS, .data | .ES, .data => [e.reqNodeInTransient]
  | .SM, .invack => invackSlots e r
  | _, _ => []

def mosiSlots (s : Settings) (e : DirEntry) (r : Message) : List NodeId :=
  match e.state, r.kind with
  | .I, .getm | .I, .gets | .S, .gets => [r.src]
  | .M, .getm | .M, .gets | .S, .getm | .O, .getm => List.range s.numProcs
  | .MM, .data => [r.src, e.reqNodeInTransient]
  | .MO, .data | .OO, .data => [e.reqNodeInTransient]
  | .SM, .invack => invackSlots e r
  | .OM, .invack => invackOwnedSlots e r
  | .OM, .data => [e.oFId, e.reqNodeInTransient]
  | _, _ => []

def moesifSlots (s : Settings) (e : DirEntry) (r : Message) : List NodeId :=
  match e.state, r.kind with
  | .I, .getm | .I, .getx | .I, .gets | .S, .gets => [r.src]
  -- The sender is noted where the loop has found nobody.
  | .S, .getm | .S, .getx =>
      List.range s.numProcs ++
        if e.presentExcept s.numProcs (fun i => i ≠ r.src) = [] then [r.src] else []
  | .M, .getm | .M, .getx | .M, .gets | .E, .getm | .E, .gets | .F, .getm | .F, .getx
  | .O, .getm | .O, .getx => List.range s.numProcs
  | .MM, .data | .EM, .data => [r.src, e.reqNodeInTransient]
  | .MO, .data | .EF, .data | .FF, .data | .OO, .data => [e.reqNodeInTransient]
  | .SM, .invack => invackSlots e r
  | .FM, .invack | .OM, .invack => invackOwnedSlots e r
  | .FM, .data | .OM, .data => [e.oFId, e.reqNodeInTransient]
  | _, _ => []

/-- The slots of `presence` that one step of the directory on the message touches. -/
def Protocol.slots (p : Protocol) (s : Settings) (e : DirEntry) (r : Message) : List NodeId :=
  if r.kind = .dataWb then writebackSlots e r
  else match p with
    | .MI => miSlots s e r
    | .MSI => msiSlots e r
    | .MESI => mesiSlots s e r
    | .MOSI => mosiSlots s e r
    | .MOESIF => moesifSlots s e r

/-! ## No other slot matters -/

/-- The entry with the slots beyond the listed ones taken from `f`. -/
def DirEntry.graft (e : DirEntry) (slots : List NodeId) (f : NodeId → Bool) : DirEntry :=
  { e with presence := fun i => if i ∈ slots then e.presence i else f i }

def Outcome.graft (o : Outcome) (slots : List NodeId) (f : NodeId → Bool) : Outcome :=
  { o with entry := o.entry.graft slots f }

section

variable {s : Settings} {e : DirEntry} {r : Message} {l : List NodeId} {f : NodeId → Bool} {i : NodeId}

theorem graft_presence (mem : i ∈ l) : (e.graft l f).presence i = e.presence i := if_pos mem

/-- Writing a listed slot. -/
theorem update_graft (mem : i ∈ l) (presence : NodeId → Bool) (v : Bool) :
    Function.update (fun j => if j ∈ l then presence j else f j) i v =
      fun j => if j ∈ l then Function.update presence i v j else f j := by
  funext j
  by_cases eq : j = i
  · simp [eq, mem]
  · simp [eq]

theorem addPresence_graft (mem : i ∈ l) :
    (e.graft l f).addPresence i = (e.addPresence i).graft l f := by
  simp only [DirEntry.addPresence, DirEntry.graft, update_graft mem]

theorem dropPresence_graft (mem : i ∈ l) :
    (e.graft l f).dropPresence i = (e.dropPresence i).graft l f := by
  simp only [DirEntry.dropPresence, DirEntry.graft, update_graft mem]

theorem ensurePresence_graft (mem : i ∈ l) :
    (e.graft l f).ensurePresence i = (e.ensurePresence i).graft l f := by
  unfold DirEntry.ensurePresence
  rw [graft_presence mem]
  split
  · rfl
  · exact addPresence_graft mem

theorem forget_graft (mem : i ∈ l) : (e.graft l f).forget i = (e.forget i).graft l f := by
  unfold DirEntry.forget
  rw [graft_presence mem]
  split
  · simp only [DirEntry.graft, update_graft mem]
    rfl
  · rfl

theorem lastPresent_graft {n : Nat} (all : ∀ i < n, i ∈ l) :
    (e.graft l f).lastPresent n = e.lastPresent n := by
  refine List.foldl_ext _ _ _ fun target i mem => ?_
  rw [graft_presence (all i (List.mem_range.mp mem))]

theorem presentExcept_graft {n : Nat} (all : ∀ i < n, i ∈ l) (keep : NodeId → Bool) :
    (e.graft l f).presentExcept n keep = e.presentExcept n keep := by
  refine List.filter_congr fun i mem => ?_
  rw [graft_presence (all i (List.mem_range.mp mem))]

theorem any_graft {n : Nat} (all : ∀ i < n, i ∈ l) :
    (List.range n).any (e.graft l f).presence = (List.range n).any e.presence := by
  rw [Bool.eq_iff_iff, List.any_eq_true, List.any_eq_true]
  refine exists_congr fun i => and_congr_right fun mem => ?_
  rw [graft_presence (all i (List.mem_range.mp mem))]

theorem firstPresent_graft (all : ∀ i < kMaxSharers, i ∈ l) :
    (e.graft l f).firstPresent = e.firstPresent := by
  refine List.find?_congr fun i mem => ?_
  exact graft_presence (all i (List.mem_range.mp mem))

/-! Branches that several protocols share. -/

theorem memoryGrant_graft (mem : r.src ∈ l) (next : DirState) :
    memoryGrant (e.graft l f) r next = (memoryGrant e r next).graft l f := by
  have added := addPresence_graft (e := { e with state := next }) (f := f) mem
  simp only [memoryGrant, Outcome.graft, ← added]
  rfl

theorem memoryGrantE_graft (mem : r.src ∈ l) :
    memoryGrantE (e.graft l f) r = (memoryGrantE e r).graft l f := by
  simp only [memoryGrantE, memoryGrant_graft mem]
  rfl

theorem recall_graft (all : ∀ i < s.numProcs, i ∈ l) (kind : MessageKind) (next : DirState) :
    recallHolder s (e.graft l f) r kind next = (recallHolder s e r kind next).graft l f := by
  simp only [recallHolder, lastPresent_graft all]
  rfl

theorem recallToOwner_graft (all : ∀ i < s.numProcs, i ∈ l) (dirty : Bool) (next : DirState) :
    recallToOwner s (e.graft l f) r dirty next = (recallToOwner s e r dirty next).graft l f := by
  simp only [recallToOwner, lastPresent_graft all, any_graft all]
  rfl

theorem transfer_graft (src : r.src ∈ l) (requester : e.reqNodeInTransient ∈ l) :
    transfer (e.graft l f) r = (transfer e r).graft l f := by
  have added := addPresence_graft (e := { e.dropPresence r.src with state := .M }) (f := f) requester
  simp only [transfer, dropPresence_graft src, Outcome.graft, ← added]
  rfl

theorem shareData_graft (requester : e.reqNodeInTransient ∈ l) (next : DirState) :
    shareData (e.graft l f) r next = (shareData e r next).graft l f := by
  have added := addPresence_graft (e := { e with state := next }) (f := f) requester
  simp only [shareData, Outcome.graft, ← added]
  rfl

theorem invackSM_graft (mem : ∀ i ∈ invackSlots e r, i ∈ l) (tooMany : String) :
    invackSM (e.graft l f) r tooMany = (invackSM e r tooMany).map (·.graft l f) := by
  by_cases one : 1 ≤ e.invAckWaiting
  · rw [invackSlots, if_pos one] at mem
    have src : r.src ∈ l := mem r.src (by simp)
    simp only [invackSM, show (e.graft l f).invAckWaiting = e.invAckWaiting from rfl, if_pos one,
      dropPresence_graft src]
    split
    · next last =>
        have requester : e.reqNodeInTransient ∈ l := mem _ (by simp [show e.invAckWaiting = 1 by omega])
        have looked := graft_presence (e := e.dropPresence r.src) (f := f) requester
        have added := addPresence_graft (f := f) requester
          (e := { e.dropPresence r.src with invAckWaiting := e.invAckWaiting - 1, state := .M })
        change (if DirEntry.presence _ e.reqNodeInTransient = true then _ else _) =
          Except.map _ (if DirEntry.presence _ e.reqNodeInTransient = true then _ else _)
        rw [looked]
        split
        · rfl
        · let fetched (x : DirEntry) : Outcome :=
            { entry := x, schedule := some (r.block, e.reqNodeInTransient) }
          exact congrArg (fun x => Except.ok (fetched x)) added
    · rfl
  · simp [invackSM, one, DirEntry.graft, Except.map]

theorem invackOwned_graft (mem : ∀ i ∈ invackOwnedSlots e r, i ∈ l) (tooMany : String) :
    invackOwned (e.graft l f) r tooMany = (invackOwned e r tooMany).map (·.graft l f) := by
  by_cases one : 1 ≤ e.invAckWaiting
  · rw [invackOwnedSlots, if_pos one] at mem
    simp only [invackOwned, show (e.graft l f).invAckWaiting = e.invAckWaiting from rfl, if_pos one,
      dropPresence_graft (mem r.src (by simp)), apply_ite (Except.map (Outcome.graft · l f))]
    rfl
  · simp [invackOwned, one, DirEntry.graft, Except.map]

theorem dataOwned_graft (owner : e.oFId ∈ l) (requester : e.reqNodeInTransient ∈ l) (always : Bool) :
    dataOwned (e.graft l f) r always = (dataOwned e r always).graft l f := by
  have dropped : (e.graft l f).dropPresence (e.graft l f).oFId = (e.dropPresence e.oFId).graft l f :=
    dropPresence_graft owner
  have looked := graft_presence (e := e.dropPresence e.oFId) (f := f) requester
  have added := addPresence_graft (f := f) requester
    (e := { e.dropPresence e.oFId with state := .M, oFId := noNode })
  simp only [dataOwned, dropped]
  change (if DirEntry.presence _ e.reqNodeInTransient = true then _ else _) =
    Outcome.graft (if DirEntry.presence _ e.reqNodeInTransient = true then _ else _) _ _
  rw [looked]
  split
  · rfl
  · let served (x : DirEntry) : Outcome :=
      { entry := x
        sends := [{ dest := e.reqNodeInTransient, tag := r.block, kind := .data }]
        stats := countTransfer }
    exact congrArg served added

theorem reclaim_graft (all : ∀ i < s.numProcs, i ∈ l) (next : DirState) :
    reclaim s (e.graft l f) r next = (reclaim s e r next).graft l f := by
  simp only [reclaim, presentExcept_graft all, apply_ite (Outcome.graft · l f)]
  rfl

theorem askOwner_graft (dirty : Bool) (next : DirState) (fromOwner : String) :
    askOwner (e.graft l f) r dirty next fromOwner =
      (askOwner e r dirty next fromOwner).map (·.graft l f) := by
  simp only [askOwner, apply_ite (Except.map (Outcome.graft · l f))]
  rfl

/-- (SM, INVACK) of MSI. -/
theorem msiInvack_graft (src : r.src ∈ l)
    (requester : e.invAckWaiting = 1 → e.getMUpgrade = false → e.reqNodeInTransient ∈ l) :
    msiInvack (e.graft l f) r = (msiInvack e r).map (·.graft l f) := by
  simp only [msiInvack, dropPresence_graft src]
  change (if e.invAckWaiting - 1 = 0 then (if e.getMUpgrade = true then _ else _) else _) =
    Except.map _ (if e.invAckWaiting - 1 = 0 then (if e.getMUpgrade = true then _ else _) else _)
  split
  · next last =>
      split
      · rfl
      · next upgrade =>
          have added := addPresence_graft (f := f) (requester (by omega) (by simpa using upgrade))
            (e := { e.dropPresence r.src with invAckWaiting := e.invAckWaiting - 1 })
          let fetched (x : DirEntry) : Outcome :=
            { entry := { x with state := .M, dirty := true }
              schedule := some (e.blockId, e.reqNodeInTransient) }
          exact congrArg (fun x => Except.ok (fetched x)) added
  · rfl

theorem purge_graft (all : ∀ i < s.numProcs, i ∈ l) (keep : NodeId → Bool) (next : DirState) :
    invalidate (e.graft l f) r ((e.graft l f).presentExcept s.numProcs keep) next =
      (invalidate e r (e.presentExcept s.numProcs keep) next).graft l f := by
  rw [presentExcept_graft all]
  rfl

theorem counted_graft {o o' : Outcome} (eq : o' = o.graft l f) (count : CoherenceStats → CoherenceStats) :
    ({ o' with stats := count } : Outcome) = Outcome.graft { o with stats := count } l f := by
  rw [eq]
  rfl

/-- (S, GETM) of MOSI. -/
theorem mosi_raise_graft (all : ∀ i < s.numProcs, i ∈ l) (state : e.state = .S) (kind : r.kind = .getm) :
    mosiHandle s (e.graft l f) r = (mosiHandle s e r).map (·.graft l f) := by
  rw [mosiHandle, mosiHandle, show (e.graft l f).state = e.state from rfl, state, kind]
  simp only [presentExcept_graft all]
  split <;> rfl

/-- (S, GETM) and (S, GETX) of MOESIF. -/
theorem moesif_raise_graft (all : ∀ i < s.numProcs, i ∈ l)
    (src : e.presentExcept s.numProcs (fun i => i ≠ r.src) = [] → r.src ∈ l) (state : e.state = .S)
    (kind : r.kind = .getm ∨ r.kind = .getx) :
    moesifHandle s (e.graft l f) r = (moesifHandle s e r).map (·.graft l f) := by
  rcases kind with kind | kind <;>
  · rw [moesifHandle, moesifHandle, show (e.graft l f).state = e.state from rfl, state, kind]
    simp only [presentExcept_graft all]
    split
    · next none =>
        have ensured := ensurePresence_graft (f := f) (src (List.length_eq_zero_iff.mp none))
          (e := (invalidate e r (e.presentExcept s.numProcs fun i => i ≠ r.src) .SM).entry)
        let raised (x : DirEntry) : Outcome :=
          { entry := { x with state := .M, dirty := true }
            sends := [{ dest := r.src, tag := r.block, kind := .ack }] }
        exact congrArg (fun x => Except.ok (raised x)) ensured
    · rfl

/-- (SM, INVACK) of MOESIF. -/
theorem moesif_invack_graft (mem : ∀ i ∈ invackSlots e r, i ∈ l) (state : e.state = .SM)
    (kind : r.kind = .invack) :
    moesifHandle s (e.graft l f) r = (moesifHandle s e r).map (·.graft l f) := by
  rw [moesifHandle, moesifHandle, show (e.graft l f).state = e.state from rfl, state, kind]
  simp only [invackSM_graft mem]
  cases invackSM e r "MOESIF dir: too many INVACKs (SM)" <;> rfl

/-- (S, GETM) of MSI, whose loop runs over the whole array. -/
theorem msi_raise_graft (all : ∀ i < kMaxSharers, i ∈ l) (src : r.src ∈ l) (state : e.state = .S)
    (kind : r.kind = .getm) :
    msiHandle s (e.graft l f) r = (msiHandle s e r).map (·.graft l f) := by
  rw [msiHandle, msiHandle, show (e.graft l f).state = e.state from rfl, state, kind]
  simp only [presentExcept_graft all, graft_presence src]
  split <;> rfl

/-- (I, GETM) and (I, GETS) of MSI. -/
theorem msi_grant_graft (src : r.src ∈ l) (state : e.state = .I)
    (kind : r.kind = .getm ∨ r.kind = .gets) :
    msiHandle s (e.graft l f) r = (msiHandle s e r).map (·.graft l f) := by
  let fetched (x : DirEntry) : Outcome := { entry := x, schedule := some (r.block, r.src) }
  rcases kind with kind | kind
  · rw [msiHandle, msiHandle, show (e.graft l f).state = e.state from rfl, state, kind]
    have ensured := ensurePresence_graft (f := f) src
      (e := { e with state := .M, dirty := true, blockId := r.block })
    exact congrArg (fun x => Except.ok (fetched x)) ensured
  · rw [msiHandle, msiHandle, show (e.graft l f).state = e.state from rfl, state, kind]
    have ensured := ensurePresence_graft (f := f) src
      (e := { e with state := .S, dirty := false, blockId := r.block })
    exact congrArg (fun x => Except.ok (fetched x)) ensured

/-- (M, GETM) and (M, GETS) of MSI. -/
theorem msi_recall_graft (all : ∀ i < kMaxSharers, i ∈ l) (state : e.state = .M)
    (kind : r.kind = .getm ∨ r.kind = .gets) :
    msiHandle s (e.graft l f) r = (msiHandle s e r).map (·.graft l f) := by
  rcases kind with kind | kind <;>
  · rw [msiHandle, msiHandle, show (e.graft l f).state = e.state from rfl, state, kind]
    simp only [firstPresent_graft all]
    rfl

/-- (MM, DATA) of MSI: the first present CPU drops out. -/
theorem msi_transfer_graft (all : ∀ i < kMaxSharers, i ∈ l) (requester : e.reqNodeInTransient ∈ l)
    (state : e.state = .MM) (kind : r.kind = .data) :
    msiHandle s (e.graft l f) r = (msiHandle s e r).map (·.graft l f) := by
  rw [msiHandle, msiHandle, show (e.graft l f).state = e.state from rfl, state, kind]
  simp only [firstPresent_graft all]
  let served (x : DirEntry) : Outcome :=
    { entry := { x with dirty := true, state := .M }
      sends := [{ dest := e.reqNodeInTransient, tag := r.block, kind := .data }]
      stats := countTransfer }
  cases found : e.firstPresent with
  | none =>
      have added := addPresence_graft (e := e) (f := f) requester
      exact congrArg (fun x => Except.ok (served x)) added
  | some i =>
      have mem := all i (List.mem_range.mp (List.mem_of_find?_eq_some found))
      have added := addPresence_graft (e := e.dropPresence i) (f := f) requester
      rw [← dropPresence_graft mem] at added
      exact congrArg (fun x => Except.ok (served x)) added

/-! Each directory. -/

theorem mi_graft (mem : ∀ i ∈ miSlots s e r, i ∈ l) :
    miHandle s (e.graft l f) r = (miHandle s e r).map (·.graft l f) := by
  obtain ⟨blockId, dirty, presence, state, count, requester, owner, waiting, upgrade⟩ := e
  obtain ⟨src, dst, block, kind, flits, dirty'⟩ := r
  simp only [miSlots] at mem
  cases state <;> cases kind <;>
    first
    | rfl
    | exact congrArg Except.ok (memoryGrant_graft (mem _ (by simp)) _)
    | exact congrArg Except.ok (recall_graft (fun i lt => mem i (List.mem_range.mpr lt)) _ _)
    | exact congrArg Except.ok (transfer_graft (mem _ (by simp)) (mem _ (by simp)))

theorem msi_graft (mem : ∀ i ∈ msiSlots e r, i ∈ l) :
    msiHandle s (e.graft l f) r = (msiHandle s e r).map (·.graft l f) := by
  obtain ⟨blockId, dirty, presence, state, count, requester, owner, waiting, upgrade⟩ := e
  obtain ⟨src, dst, block, kind, flits, dirty'⟩ := r
  simp only [msiSlots] at mem
  let fetched (x : DirEntry) : Outcome := { entry := x, schedule := some (block, src) }
  let shared (x : DirEntry) : Outcome :=
    { entry := { x with state := .S, dirty := false }
      sends := [{ dest := requester, tag := block, kind := .data }]
      stats := fun st =>
        { countTransfer st with memoryWrites := (countTransfer st).memoryWrites + 1 } }
  cases state <;> cases kind <;>
    first
    | rfl
    | exact congrArg (fun x => Except.ok (fetched x)) (ensurePresence_graft (mem _ (by simp)))
    | exact msi_grant_graft (mem src (by simp)) rfl (by simp)
    | exact congrArg (fun x => Except.ok (shared x)) (addPresence_graft (mem requester (by simp)))
    | exact msi_recall_graft (fun i lt => mem i (List.mem_range.mpr lt)) rfl (by simp)
    | exact msi_raise_graft (fun i lt => mem i (List.mem_cons_of_mem _ (List.mem_range.mpr lt)))
        (mem _ (by simp)) rfl rfl
    | exact msi_transfer_graft (fun i lt => mem i (List.mem_append_left _ (List.mem_range.mpr lt)))
        (mem _ (by simp)) rfl rfl
    | exact msiInvack_graft (mem _ (by simp)) fun last upgrade => mem _ (by simp_all)

theorem mesi_graft (mem : ∀ i ∈ mesiSlots s e r, i ∈ l) :
    mesiHandle s (e.graft l f) r = (mesiHandle s e r).map (·.graft l f) := by
  obtain ⟨blockId, dirty, presence, state, count, requester, owner, waiting, upgrade⟩ := e
  obtain ⟨src, dst, block, kind, flits, dirty'⟩ := r
  simp only [mesiSlots] at mem
  cases state <;> cases kind <;>
    first
    | rfl
    | exact congrArg Except.ok (memoryGrant_graft (mem _ (by simp)) _)
    | exact congrArg Except.ok (memoryGrantE_graft (mem _ (by simp)))
    | exact congrArg Except.ok (recall_graft (fun i lt => mem i (List.mem_range.mpr lt)) _ _)
    | exact congrArg Except.ok (purge_graft (fun i lt => mem i (List.mem_range.mpr lt)) _ _)
    | exact congrArg Except.ok (transfer_graft (mem _ (by simp)) (mem _ (by simp)))
    | exact congrArg Except.ok (shareData_graft (mem _ (by simp)) _)
    | exact congrArg Except.ok (counted_graft (shareData_graft (mem _ (by simp)) _) _)
    | exact invackSM_graft mem _

theorem mosi_graft (mem : ∀ i ∈ mosiSlots s e r, i ∈ l) :
    mosiHandle s (e.graft l f) r = (mosiHandle s e r).map (·.graft l f) := by
  obtain ⟨blockId, dirty, presence, state, count, requester, owner, waiting, upgrade⟩ := e
  obtain ⟨src, dst, block, kind, flits, dirty'⟩ := r
  simp only [mosiSlots] at mem
  cases state <;> cases kind <;>
    first
    | rfl
    | exact congrArg Except.ok (memoryGrant_graft (mem _ (by simp)) _)
    | exact congrArg Except.ok (recall_graft (fun i lt => mem i (List.mem_range.mpr lt)) _ _)
    | exact congrArg Except.ok (recallToOwner_graft (fun i lt => mem i (List.mem_range.mpr lt)) _ _)
    | exact congrArg Except.ok (reclaim_graft (fun i lt => mem i (List.mem_range.mpr lt)) _)
    | exact mosi_raise_graft (fun i lt => mem i (List.mem_range.mpr lt)) rfl rfl
    | exact askOwner_graft _ _ _
    | exact congrArg Except.ok (transfer_graft (mem _ (by simp)) (mem _ (by simp)))
    | exact congrArg Except.ok (shareData_graft (mem _ (by simp)) _)
    | exact congrArg Except.ok (dataOwned_graft (mem _ (by simp)) (mem _ (by simp)) _)
    | exact invackSM_graft mem _
    | exact invackOwned_graft mem _

theorem moesif_graft (mem : ∀ i ∈ moesifSlots s e r, i ∈ l) :
    moesifHandle s (e.graft l f) r = (moesifHandle s e r).map (·.graft l f) := by
  obtain ⟨blockId, dirty, presence, state, count, requester, owner, waiting, upgrade⟩ := e
  obtain ⟨src, dst, block, kind, flits, dirty'⟩ := r
  simp only [moesifSlots] at mem
  let fetched (x : DirEntry) : Outcome := { entry := x, schedule := some (block, src) }
  cases state <;> cases kind <;>
    first
    | rfl
    | exact congrArg Except.ok (memoryGrant_graft (mem _ (by simp)) _)
    | exact congrArg Except.ok (memoryGrantE_graft (mem _ (by simp)))
    | exact congrArg (fun x => Except.ok (fetched x)) (ensurePresence_graft (mem _ (by simp)))
    | exact congrArg Except.ok (recall_graft (fun i lt => mem i (List.mem_range.mpr lt)) _ _)
    | exact congrArg Except.ok (recallToOwner_graft (fun i lt => mem i (List.mem_range.mpr lt)) _ _)
    | exact congrArg Except.ok (reclaim_graft (fun i lt => mem i (List.mem_range.mpr lt)) _)
    | exact congrArg Except.ok (purge_graft (fun i lt => mem i (List.mem_range.mpr lt)) _ _)
    | exact moesif_raise_graft (fun i lt => mem i (List.mem_append_left _ (List.mem_range.mpr lt)))
        (fun none => mem _ (List.mem_append_right _ (by rw [if_pos none]; simp))) rfl (by simp)
    | exact askOwner_graft _ _ _
    | exact congrArg Except.ok (transfer_graft (mem _ (by simp)) (mem _ (by simp)))
    | exact congrArg Except.ok (shareData_graft (mem _ (by simp)) _)
    | exact congrArg Except.ok (dataOwned_graft (mem _ (by simp)) (mem _ (by simp)) _)
    | exact moesif_invack_graft mem rfl rfl
    | exact invackOwned_graft mem _

/-- `handle_writeback`. -/
theorem writeback_graft (mem : ∀ i ∈ writebackSlots e r, i ∈ l) :
    handleWriteback (e.graft l f) r = (handleWriteback e r).map (·.graft l f) := by
  have noted (src : r.src ∈ l) : (e.graft l f).writeback r = (e.writeback r).graft l f := by
    simp only [DirEntry.writeback, graft_presence src, forget_graft src,
      apply_ite (DirEntry.graft · l f)]
    rfl
  obtain ⟨blockId, dirty, presence, state, count, requester, owner, waiting, upgrade⟩ := e
  obtain ⟨src, dst, block, kind, flits, dirty'⟩ := r
  simp only [writebackSlots] at mem
  let counted (x : DirEntry) : Outcome :=
    { entry := x
      stats := fun st =>
        if dirty' then { st with memoryWrites := st.memoryWrites + 1 } else st }
  cases state <;> cases kind <;>
    first
    | rfl
    | exact congrArg (fun x => some (counted x)) (noted (mem src (by simp)))

end

/-- What stands in the slots a step does not touch makes no difference to it, and stays. -/
theorem Protocol.slots_only (p : Protocol) (s : Settings) (e : DirEntry) (r : Message)
    (f : NodeId → Bool) :
    let graft (o : Outcome) := o.graft (p.slots s e r) f
    handleWriteback (e.graft (p.slots s e r) f) r = (handleWriteback e r).map graft ∧
      (r.kind ≠ .dataWb →
        p.fsm.handle s (e.graft (p.slots s e r) f) r = (p.fsm.handle s e r).map graft) := by
  by_cases kind : r.kind = .dataWb
  · refine ⟨writeback_graft fun i => ?_, fun other => absurd kind other⟩
    simp only [Protocol.slots, if_pos kind]
    exact id
  · refine ⟨by simp [handleWriteback, kind], fun _ => ?_⟩
    simp only [Protocol.slots, if_neg kind]
    cases p with
    | MI => exact mi_graft fun _ => id
    | MSI => exact msi_graft (s := s) fun _ => id
    | MESI => exact mesi_graft fun _ => id
    | MOSI => exact mosi_graft fun _ => id
    | MOESIF => exact moesif_graft fun _ => id

/-! ## With at most `kMaxSharers` CPUs -/

section

variable {s : Settings} {e : DirEntry} {r : Message} {P : NodeId → Prop}

@[grind →]
theorem mem_invackSlots {i : NodeId} (mem : i ∈ invackSlots e r) :
    i = r.src ∨ i = e.reqNodeInTransient := by
  unfold invackSlots at mem
  grind

@[grind →]
theorem mem_invackOwnedSlots {i : NodeId} (mem : i ∈ invackOwnedSlots e r) : i = r.src := by
  unfold invackOwnedSlots at mem
  grind

/-- A slot is the sender's, one of a loop's, or one that a round in progress remembers. -/
theorem slots_all (p : Protocol) (src : P r.src) (loop : ∀ i < s.numProcs, P i)
    (array : ∀ i < kMaxSharers, P i)
    (requester : e.state ∉ [.I, .S, .E, .M, .O, .F] → P e.reqNodeInTransient)
    (owner : e.state = .OM ∨ e.state = .FM → P e.oFId) : ∀ i ∈ p.slots s e r, P i := by
  intro i mem
  unfold Protocol.slots at mem
  split at mem
  · unfold writebackSlots at mem
    grind
  · cases p with
    | MI =>
        simp only [miSlots] at mem
        split at mem <;> grind
    | MSI =>
        simp only [msiSlots] at mem
        split at mem <;> grind
    | MESI =>
        simp only [mesiSlots] at mem
        split at mem <;> grind
    | MOSI =>
        simp only [mosiSlots] at mem
        split at mem <;> grind
    | MOESIF =>
        simp only [moesifSlots] at mem
        split at mem <;> grind

end

section

variable {F : ProtocolFsm} {π : CpuPort} {L : Laws F} {R : π.State → BlockId → Prop} {s : Settings}
  {σ σ' : System F π} {b : BlockId} {B : Block NodeId} {i : NodeId} {r : Message}

/-- Nothing moves a node beyond the CPUs, and only the directory's tick puts messages out. -/
theorem step_frame {a : Action π} (step : σ.step s a = .ok σ') :
    (∀ i, s.numProcs ≤ i → σ'.cpus i = σ.cpus i) ∧
      (a = .dirTick ∨ ∀ m ∈ σ'.dir.ntwkOutNext, m ∈ σ.dir.ntwkOutNext) := by
  have moved {j : NodeId} {n : CpuNode F π} (bound : j < s.numProcs) (i : NodeId)
      (far : s.numProcs ≤ i) : Function.update σ.cpus j n i = σ.cpus i :=
    Function.update_of_ne (Nat.ne_of_gt (Nat.lt_of_lt_of_le bound far)) _ _
  cases a <;> simp only [System.step] at step
  case tick | external =>
    split at step
    · next here =>
        split at step
        · cases step
        · cases step
          exact ⟨moved here.1, .inr fun _ => id⟩
    · cases step
  case tock =>
    split at step
    · next here =>
        cases step
        exact ⟨moved here.1, .inr fun _ => id⟩
    · cases step
  case deliver =>
    split at step
    · next here =>
        split at step
        · cases step
        · cases step
          exact ⟨moved here.1, .inr fun _ => id⟩
    · cases step
  case dirTick =>
    split at step
    · split at step
      · cases step
      · cases step
        exact ⟨fun _ _ => rfl, .inl rfl⟩
    · cases step
  case dirTock =>
    split at step
    · cases step
      exact ⟨fun _ _ => rfl, .inr (by simp)⟩
    · cases step
  case dirDeliver =>
    split at step
    · split at step
      · cases step
      · cases step
        exact ⟨fun _ _ => rfl, .inr fun _ => id⟩
    · cases step

/-- A node nobody has moved has nothing on its way. -/
theorem Abs.unheard (abs : Abs L R s σ b B) (far : s.numProcs ≤ i)
    (fresh : (σ.cpus i).agents b = F.initial) : (B.slot i).phase = .rest ∧ (B.slot i).probe = .idle := by
  have view := abs.view i
  rw [fresh, L.view_initial, View.mk.injEq] at view
  refine ⟨(abs.inv.slots i).rest.mp view.2.symm, abs.inv.outsiders i fun mem => ?_⟩
  exact absurd (abs.entry.members.bound i mem) (Nat.not_lt.mpr far)

/-- What a step on a message sends goes to CPUs. -/
theorem Refines.addressed_cpus {o : Outcome} {B' : Block NodeId} {starved wild : Prop}
    (refines : Refines L.profile L.marks s.numProcs r.block starved wild B r o B')
    (abs : Abs L R s σ r.block B)
    (fresh : ∀ i, s.numProcs ≤ i → ∀ b, (σ.cpus i).agents b = F.initial) :
    ∀ x ∈ o.sends, x.dest < s.numProcs := by
  intro x mem
  by_contra bound
  have far : s.numProcs ≤ x.dest := Nat.not_lt.mp bound
  obtain ⟨rest, idle⟩ := abs.unheard far (fresh _ far _)
  have moves := refines.moves x.dest
  have inv := refines.steps.inv abs.inv
  have want : (B'.slot x.dest).want = .nothing :=
    moves.want.trans ((abs.inv.slots _).rest.mpr rest)
  have rest' := (inv.slots _).rest.mp want
  have idle' := inv.outsiders x.dest fun mem => bound (refines.entry.members.bound _ mem)
  have downward := moves.downward
  simp only [down, rest, idle, rest', idle', downGrant, downOrder, List.nil_append] at downward
  have sent : (x.kind, x.dirty) ∈ addressed x.dest o.sent := by
    refine List.mem_filterMap.mpr ⟨(x.dest, x.kind, x.dirty), List.mem_map.mpr ⟨x, mem, rfl⟩, ?_⟩
    rw [if_pos rfl]
  rw [← downward] at sent
  cases sent

/-- The half of the tick that reads the queue. -/
theorem processQueue_addressed (net : Network s σ) (small : s.numProcs ≤ kMaxSharers)
    {lines : BlockId → Block NodeId} (abs : ∀ b, Abs L R s σ b (lines b))
    (fresh : ∀ i, s.numProcs ≤ i → ∀ b, (σ.cpus i).agents b = F.initial)
    (old : ∀ m ∈ σ.dir.ntwkOutNext, m.dst < s.numProcs) {d : DirectoryController}
    {st st' : CoherenceStats} (step : System.processQueue F s σ.dir st = .ok (d, st')) :
    ∀ m ∈ d.ntwkOutNext, m.dst < s.numProcs := by
  have carried (r : Message) (rest : List Message) (o : Outcome)
      (sends : ∀ x ∈ o.sends, x.dest < s.numProcs) :
      ∀ m ∈ (σ.dir.carryOut s st r rest o).1.ntwkOutNext, m.dst < s.numProcs := by
    intro m mem
    obtain ⟨-, -, -, out, -⟩ := carryOut_fields σ.dir s st r rest o
    rw [out] at mem
    rcases List.mem_append.mp mem with mem | mem
    · exact old m mem
    · obtain ⟨x, sent, rfl⟩ := List.mem_map.mp mem
      exact sends x sent
  unfold System.processQueue at step
  split at step
  · cases step
    exact old
  · next free =>
      have free : σ.dir.requestInProgress = false := by simpa using free
      split at step
      · cases step
        exact old
      · next r rest queue =>
          have meets := (abs r.block).meets net small free queue
          simp only at step
          split at step
          · next o written =>
              obtain ⟨B', refines⟩ : ∃ B', Refines L.profile L.marks s.numProcs r.block False False
                  (lines r.block) r o B' := meets.handleWriteback written
              have dir : (σ.dir.carryOut s st r rest o).1 = d := congrArg Prod.fst (Except.ok.inj step)
              rw [← dir]
              exact carried r rest o (refines.addressed_cpus (abs r.block) fresh)
          · split at step
            · cases step
            · next o handled =>
                obtain ⟨B', refines⟩ := L.refines meets handled
                have dir : (σ.dir.carryOut s st r rest o).1 = d :=
                  congrArg Prod.fst (Except.ok.inj step)
                rw [← dir]
                exact carried r rest o (refines.addressed_cpus (abs r.block) fresh)

/-- The half of the tick that answers from memory. -/
theorem respond_addressed {lines : BlockId → Block NodeId} (abs : ∀ b, Abs L R s σ b (lines b))
    (marked : σ.dir.requestInProgress = false → σ.dir.sendE = false)
    (fresh : ∀ i, s.numProcs ≤ i → ∀ b, (σ.cpus i).agents b = F.initial)
    (old : ∀ m ∈ σ.dir.ntwkOutNext, m.dst < s.numProcs) (st : CoherenceStats) :
    ∀ m ∈ (σ.dir.respond s F.usesE st).1.ntwkOutNext, m.dst < s.numProcs := by
  intro m mem
  rcases respond_fields (uses_sendE marked abs) s st with same | ⟨busy, answered⟩
  · rw [same] at mem
    exact old m mem
  · rw [answered] at mem
    rcases List.mem_append.mp mem with mem | mem
    · exact old m mem
    · rw [List.mem_singleton.mp mem]
      change σ.dir.targetNode < s.numProcs
      by_contra bound
      have far : s.numProcs ≤ σ.dir.targetNode := Nat.not_lt.mp bound
      have rest := ((abs σ.dir.tagToSend).unheard far (fresh _ far _)).1
      rw [owed_grant abs busy] at rest
      cases rest

theorem dirTick_addressed (net : Network s σ) (small : s.numProcs ≤ kMaxSharers)
    {lines : BlockId → Block NodeId} (abs : ∀ b, Abs L R s σ b (lines b))
    (fresh : ∀ i, s.numProcs ≤ i → ∀ b, (σ.cpus i).agents b = F.initial)
    (old : ∀ m ∈ σ.dir.ntwkOutNext, m.dst < s.numProcs) (step : σ.step s .dirTick = .ok σ') :
    ∀ m ∈ σ'.dir.ntwkOutNext, m.dst < s.numProcs := by
  simp only [System.step] at step
  split at step
  · split at step
    · cases step
    · next d st result =>
        cases step
        unfold System.tickDir at result
        split at result
        · cases result
        · next d' st' taken =>
            let clocked : System F π := { σ with dir := { σ.dir with currentClock := σ.clock } }
            have net' : Network s clocked :=
              ⟨net.out, net.sent, net.queued, net.ticked, net.tocked, net.sendE⟩
            have abs' : ∀ b, Abs L R s clocked b (lines b) := fun b =>
              (abs b).moved (fun _ => rfl) (fun _ _ _ => rfl) (fun _ _ => rfl) (fun _ => rfl) rfl
                (fun _ _ => id)
            obtain ⟨marked, lines', first⟩ := processQueue_advances net' small abs' taken
            have sent := processQueue_addressed net' small abs' fresh old taken
            have dir : d = (d'.respond s F.usesE st').1 :=
              (congrArg Prod.fst (Except.ok.inj result)).symm
            subst dir
            exact respond_addressed (σ := { clocked with dir := d' }) (fun b => (first b).1) marked
              fresh sent st'
  · cases step

/-- Nodes beyond the CPUs stay as they began, and messages go to CPUs. -/
structure Fenced (s : Settings) (σ : System F π) : Prop where
  fresh : ∀ i, s.numProcs ≤ i → ∀ b, (σ.cpus i).agents b = F.initial
  addressed : ∀ m ∈ σ.dir.ntwkOutNext, m.dst < s.numProcs

theorem Fenced.step (fenced : Fenced s σ) (net : Network s σ) (small : s.numProcs ≤ kMaxSharers)
    {lines : BlockId → Block NodeId} (abs : ∀ b, Abs L R s σ b (lines b)) {a : Action π}
    (step : σ.step s a = .ok σ') : Fenced s σ' := by
  obtain ⟨far, out⟩ := step_frame step
  refine ⟨fun i bound b => ?_, ?_⟩
  · rw [far i bound]
    exact fenced.fresh i bound b
  · rcases out with rfl | kept
    · exact dirTick_addressed net small abs fenced.fresh fenced.addressed step
    · exact fun m mem => fenced.addressed m (kept m mem)

end

/-- The slots the directory touches next exist, and what it sends goes to CPUs. -/
structure InBounds (s : Settings) {π : CpuPort} (σ : System s.protocol.fsm π) : Prop where
  slots : ∀ r, σ.TakesUp r →
    ∀ i ∈ s.protocol.slots s (σ.dir.directory r.block) r, i < kMaxSharers
  addressed : ∀ m ∈ σ.dir.ntwkOutNext, m.dst < s.numProcs

section

variable {s : Settings} {π : CpuPort} {σ : System s.protocol.fsm π}

/-- An entry in a transient state works for a requester. -/
theorem Meets.busy_requester {P : Profile} {marks : Prop} {n : Nat} {b : BlockId} {e : DirEntry}
    {B : Block NodeId} {r : Message} (m : Meets P marks n b e B r)
    (busy : e.state ∉ [.I, .S, .E, .M, .O, .F]) : ∃ i, B.mode.requester = some i := by
  have named := m.named rfl
  generalize e.state = d at busy named
  cases d <;> simp only [Named] at named <;> simp at busy
  case MM | EM | MS | ES | MO | OO | EF | FF =>
    obtain ⟨h, i, mode⟩ := named
    exact ⟨i, by simp [mode, Mode.requester]⟩
  case SM =>
    obtain ⟨i, mode⟩ := named
    exact ⟨i, by simp [mode, Mode.requester]⟩
  case OM | FM =>
    obtain ⟨o, i, recalled, mode⟩ := named
    exact ⟨i, by simp [mode, Mode.requester]⟩

/-- The slots of a message the line accounts for. -/
theorem Meets.slots_small {P : Profile} {marks : Prop} {b : BlockId} {e : DirEntry}
    {B : Block NodeId} {r : Message} (m : Meets P marks s.numProcs b e B r) (p : Protocol) :
    ∀ i ∈ p.slots s e r, i < kMaxSharers := by
  have small {i : NodeId} (bound : i < s.numProcs) : i < kMaxSharers :=
    Nat.lt_of_lt_of_le bound m.small
  refine slots_all p (small m.src) (fun i bound => small bound) (fun i bound => bound) ?_ ?_
  · intro busy
    obtain ⟨i, requester⟩ := m.busy_requester busy
    obtain ⟨eq, bound⟩ := m.entry.requester i requester
    exact small (eq ▸ bound)
  · intro owned
    obtain ⟨o, i, c, recalled, mode⟩ : ∃ o i c recalled, B.mode = .reclaim o i c recalled := by
      rcases owned with state | state
      · obtain ⟨o, i, recalled, mode⟩ := m.named state
        exact ⟨o, i, _, recalled, mode⟩
      · obtain ⟨o, i, recalled, mode⟩ := m.named state
        exact ⟨o, i, _, recalled, mode⟩
    have rights := m.inv.rights
    have mem : o ∈ B.members := by
      cases recalled <;> simp only [Block.ModeOk, mode] at rights <;> exact rights.1
    have owner := m.entry.owner o (by simp [mode, Mode.owner])
    rw [owner]
    exact small (m.entry.members.bound o mem)

/-- Any run of at most `kMaxSharers` CPUs, over any port that sends eviction notices only. -/
theorem inBounds_run (laws : PortLaws π fun _ _ => False) (small : s.numProcs ≤ kMaxSharers)
    {cpu : NodeId → π.State}
    (reached : (System.machine s.protocol.fsm π s).Reachable
      (System.initial s.protocol.fsm π s cpu) σ) : InBounds s σ := by
  obtain ⟨lines, shows, fenced⟩ := Shows.run (L := s.protocol.laws) (I := fun σ _ => Fenced s σ)
    laws small (fun _ _ _ => id) (fun σ _ a _ _ _ => tidy_of_none σ a)
    ⟨fun _ _ _ => rfl, nofun⟩
    (fun σ lines a σ' lines' shows fenced _ step _ _ => fenced.step shows.net small shows.abs step)
    reached
  refine ⟨fun r taken => ?_, fenced.addressed⟩
  obtain ⟨rest, free, queue⟩ := taken.queue
  exact ((shows.abs r.block).meets shows.net small free queue).slots_small s.protocol

end

end Coherence
