import MulticoreSim.Coherence.Directory

/-! # The five directories

What `MI_tick` … `MOESIF_tick` do with the message at the head of the queue, one
case for each branch of the source and in its order of states. Branches that
several protocols share are one definition.
-/

namespace Coherence

/-! ## Shared branches -/

namespace Outcome

/-- Memory answers the requester, who is the first or one more member. -/
def memoryGrant (e : DirEntry) (r : Message) (next : DirState) : Outcome :=
  { entry := { e with state := next }.addPresence r.src
    schedule := some (r.block, r.src) }

/-- As `memoryGrant` in E, with DATA_E to be sent. -/
def memoryGrantE (e : DirEntry) (r : Message) : Outcome :=
  { memoryGrant e r .E with sendE := true }

/-- A recall of the one holder on behalf of the requester. -/
def recallHolder (s : Settings) (e : DirEntry) (r : Message) (kind : MessageKind) (next : DirState) :
    Outcome :=
  { entry := { e with state := next, reqNodeInTransient := r.src }
    sends := [{ dest := e.lastPresent s.numProcs, tag := r.block, kind := kind }] }

/-- As `recallHolder`, and the holder is remembered as owner. -/
def recallToOwner (s : Settings) (e : DirEntry) (r : Message) (dirty : Bool) (next : DirState) :
    Outcome :=
  let target := e.lastPresent s.numProcs
  { entry :=
      { e with
        state := next
        reqNodeInTransient := r.src
        -- The loop writes `o_f_id` only where it finds a present CPU.
        oFId := if (List.range s.numProcs).any e.presence then target else e.oFId }
    sends := [{ dest := target, tag := r.block, kind := .recallGotoS, dirty := dirty }] }

def countTransfer (st : CoherenceStats) : CoherenceStats :=
  { st with c2cTransfers := st.c2cTransfers + 1 }

/-- The recalled data goes to the requester, the sender drops out. -/
def transfer (e : DirEntry) (r : Message) : Outcome :=
  { entry := { e.dropPresence r.src with state := .M }.addPresence e.reqNodeInTransient
    sends := [{ dest := e.reqNodeInTransient, tag := r.block, kind := .data }]
    stats := countTransfer }

/-- The recalled data goes to the requester, the sender stays. -/
def shareData (e : DirEntry) (r : Message) (next : DirState) : Outcome :=
  { entry := { e with state := next }.addPresence e.reqNodeInTransient
    sends := [{ dest := e.reqNodeInTransient, tag := r.block, kind := .data }]
    stats := countTransfer }

/-- REQ_INVALID to every listed CPU; the entry counts them and waits. -/
def invalidate (e : DirEntry) (r : Message) (targets : List NodeId) (next : DirState) : Outcome :=
  { entry := { e with state := next, reqNodeInTransient := r.src, invAckWaiting := targets.length }
    sends := targets.map fun i => { dest := i, tag := r.block, kind := .reqInvalid } }

/-- (SM, INVACK) of MESI, MOSI and MOESIF. -/
def invackSM (e : DirEntry) (r : Message) (tooMany : String) : Except String Outcome :=
  if 1 ≤ e.invAckWaiting then
    let e := { e.dropPresence r.src with invAckWaiting := e.invAckWaiting - 1 }
    if e.invAckWaiting = 0 then
      if e.presence e.reqNodeInTransient then
        .ok
          { entry := { e with state := .M }
            sends := [{ dest := e.reqNodeInTransient, tag := r.block, kind := .ack }] }
      else
        .ok
          { entry := { e with state := .M }.addPresence e.reqNodeInTransient
            schedule := some (r.block, e.reqNodeInTransient) }
    else .ok { entry := e }
  else .error tooMany

/-- (OM, INVACK) and (FM, INVACK). -/
def invackOwned (e : DirEntry) (r : Message) (tooMany : String) : Except String Outcome :=
  if 1 ≤ e.invAckWaiting then
    let e := { e.dropPresence r.src with invAckWaiting := e.invAckWaiting - 1 }
    if e.invAckWaiting = 0 then
      if e.activeSharers = 1 ∧ e.reqNodeInTransient = e.oFId then
        .ok
          { entry := { e with state := .M }
            sends := [{ dest := e.reqNodeInTransient, tag := r.block, kind := .ack }] }
      else
        .ok
          { entry := e
            sends := [{ dest := e.oFId, tag := r.block, kind := .recallGotoI }] }
    else .ok { entry := e }
  else .error tooMany

/-- (OM, DATA) and (FM, DATA). `always` counts the transfer also when the
    requester only needed the right. -/
def dataOwned (e : DirEntry) (r : Message) (always : Bool) : Outcome :=
  let e := e.dropPresence e.oFId
  if e.presence e.reqNodeInTransient then
    { entry := { e with state := .M, oFId := noNode }
      sends := [{ dest := e.reqNodeInTransient, tag := r.block, kind := .ack }]
      stats := if always then countTransfer else id }
  else
    { entry := { e with state := .M, oFId := noNode }.addPresence e.reqNodeInTransient
      sends := [{ dest := e.reqNodeInTransient, tag := r.block, kind := .data }]
      stats := countTransfer }

/-- (O, GETM) and (F, GETM): with no other sharer the owner is recalled at once. -/
def reclaim (s : Settings) (e : DirEntry) (r : Message) (next : DirState) : Outcome :=
  let targets := e.presentExcept s.numProcs fun i => i ≠ r.src && i ≠ e.oFId
  let o := invalidate e r targets next
  if targets.length = 0 then
    { o with sends := o.sends ++ [{ dest := e.oFId, tag := r.block, kind := .recallGotoI }] }
  else o

/-- (O, GETS) and (F, GETS). -/
def askOwner (e : DirEntry) (r : Message) (dirty : Bool) (next : DirState) (fromOwner : String) :
    Except String Outcome :=
  if e.oFId = r.src then .error fromOwner
  else .ok
    { entry := { e with state := next, reqNodeInTransient := r.src }
      sends := [{ dest := e.oFId, tag := r.block, kind := .recallGotoS, dirty := dirty }] }

/-- (E, GETX): the silent upgrade. -/
def silentUpgrade (e : DirEntry) (r : Message) : Outcome :=
  { entry := { e with state := .M }
    sends := [{ dest := r.src, tag := r.block, kind := .ack }]
    stats := fun st => { st with silentUpgrades := st.silentUpgrades + 1 } }

end Outcome

open Outcome

/-! ## The protocols -/

/-- `MI_tick`. -/
def miHandle (s : Settings) (e : DirEntry) (r : Message) : Except String Outcome :=
  match e.state, r.kind with
  | .I, .getm => .ok (memoryGrant e r .M)
  | .M, .getm => .ok (recallHolder s e r .recallGotoI .MM)
  | .MM, .data => .ok (transfer e r)
  | .MM, .getm => .ok (.cycle e)
  | _, _ => .error "MI dir: invalid (state, message) pair"

/-- (SM, INVACK) of MSI. -/
def msiInvack (e : DirEntry) (r : Message) : Except String Outcome :=
  let e := { e.dropPresence r.src with invAckWaiting := e.invAckWaiting - 1 }
  if e.invAckWaiting = 0 then
    if e.getMUpgrade then
      .ok
        { entry := { e with dirty := true, state := .M }
          sends := [{ dest := e.reqNodeInTransient, tag := e.blockId, kind := .ack }] }
    else
      .ok
        { entry := { e.addPresence e.reqNodeInTransient with state := .M, dirty := true }
          schedule := some (e.blockId, e.reqNodeInTransient) }
  else .ok { entry := e }

/-- `MSI_tick`. -/
def msiHandle (_ : Settings) (e : DirEntry) (r : Message) : Except String Outcome :=
  match e.state, r.kind with
  | .I, .getm =>
      .ok
        { entry := { e with state := .M, dirty := true, blockId := r.block }.ensurePresence r.src
          schedule := some (r.block, r.src) }
  | .I, .gets =>
      .ok
        { entry := { e with state := .S, dirty := false, blockId := r.block }.ensurePresence r.src
          schedule := some (r.block, r.src) }
  | .M, .getm =>
      .ok
        { entry := { e with state := .MM, reqNodeInTransient := r.src }
          sends := [{ dest := e.firstPresent.getD 0, tag := r.block, kind := .recallGotoI }] }
  | .M, .gets =>
      .ok
        { entry := { e with state := .MS, reqNodeInTransient := r.src }
          sends := [{ dest := e.firstPresent.getD 0, tag := r.block, kind := .recallGotoS }] }
  | .MM, .data =>
      let dropped := match e.firstPresent with
        | some i => e.dropPresence i
        | none => e
      .ok
        { entry := { dropped.addPresence e.reqNodeInTransient with dirty := true, state := .M }
          sends := [{ dest := e.reqNodeInTransient, tag := r.block, kind := .data }]
          stats := countTransfer }
  | .MS, .data =>
      .ok
        { entry := { e.addPresence e.reqNodeInTransient with state := .S, dirty := false }
          sends := [{ dest := e.reqNodeInTransient, tag := r.block, kind := .data }]
          stats := fun st =>
            { countTransfer st with memoryWrites := (countTransfer st).memoryWrites + 1 } }
  | .S, .getm =>
      let targets := e.presentExcept kMaxSharers fun i => i ≠ r.src
      if targets.length = 0 then
        .ok
          { entry := { e with dirty := true, state := .M }
            sends := [{ dest := r.src, tag := e.blockId, kind := .ack }] }
      else
        .ok
          { entry :=
              { e with
                reqNodeInTransient := r.src
                invAckWaiting := targets.length
                getMUpgrade := e.presence r.src
                state := .SM }
            sends := targets.map fun i => { dest := i, tag := e.blockId, kind := .reqInvalid } }
  | .S, .gets =>
      .ok { entry := { e with state := .S }.ensurePresence r.src, schedule := some (r.block, r.src) }
  | .SM, .invack => msiInvack e r
  | .SM, .getm | .SM, .gets | .MM, .getm | .MM, .gets | .MS, .getm | .MS, .gets => .ok (.cycle e)
  | _, _ => .error "MSI dir: invalid (state, message) pair"

/-- `MESI_tick`. -/
def mesiHandle (s : Settings) (e : DirEntry) (r : Message) : Except String Outcome :=
  match e.state, r.kind with
  | .I, .getm | .I, .getx => .ok (memoryGrant e r .M)
  | .I, .gets => .ok (memoryGrantE e r)
  | .M, .getm | .M, .getx => .ok (recallHolder s e r .recallGotoI .MM)
  | .M, .gets => .ok (recallHolder s e r .recallGotoS .MS)
  | .MM, .data => .ok (transfer e r)
  | .MS, .data =>
      .ok
        { shareData e r .S with
          stats := fun st =>
            { countTransfer st with memoryWrites := (countTransfer st).memoryWrites + 1 } }
  | .E, .getm => .ok (recallHolder s e r .recallGotoI .EM)
  | .E, .gets => .ok (recallHolder s e r .recallGotoS .ES)
  | .E, .getx => .ok (silentUpgrade e r)
  | .ES, .data => .ok (shareData e r .S)
  | .EM, .data => .ok (transfer e r)
  -- No case for a requester that is the only sharer: SM with nothing awaited.
  | .S, .getm | .S, .getx =>
      .ok (invalidate e r (e.presentExcept s.numProcs fun i => i ≠ r.src) .SM)
  | .S, .gets => .ok (memoryGrant e r .S)
  | .SM, .invack => invackSM e r "MESI dir: too many INVACKs"
  | .SM, .getm | .SM, .gets | .SM, .getx | .MM, .getm | .MM, .gets | .MM, .getx
  | .MS, .getm | .MS, .gets | .MS, .getx | .EM, .getm | .EM, .gets | .EM, .getx
  | .ES, .getm | .ES, .gets | .ES, .getx => .ok (.cycle e)
  | _, _ => .error "MESI dir: invalid (state, message) pair"

/-- `MOSI_tick`. -/
def mosiHandle (s : Settings) (e : DirEntry) (r : Message) : Except String Outcome :=
  match e.state, r.kind with
  | .I, .getm => .ok (memoryGrant e r .M)
  | .I, .gets => .ok (memoryGrant e r .S)
  | .M, .getm => .ok (recallHolder s e r .recallGotoI .MM)
  | .M, .gets => .ok (recallToOwner s e r true .MO)
  | .MO, .data => .ok (shareData e r .O)
  | .MM, .data => .ok (transfer e r)
  | .S, .getm =>
      let targets := e.presentExcept s.numProcs fun i => i ≠ r.src
      if targets.length = 0 then
        .ok
          { entry := { e with invAckWaiting := 0, state := .M }
            sends := [{ dest := r.src, tag := r.block, kind := .ack }] }
      else .ok (invalidate e r targets .SM)
  | .S, .gets => .ok (memoryGrant e r .S)
  | .SM, .invack => invackSM e r "MOSI dir: too many INVACKs (SM)"
  | .O, .getm => .ok (reclaim s e r .OM)
  | .O, .gets => askOwner e r true .OO "MOSI dir: saw GETS from proc already in O"
  | .OM, .invack => invackOwned e r "MOSI dir: too many INVACKs (OM)"
  | .OM, .data => .ok (dataOwned e r true)
  | .OO, .data => .ok (shareData e r .O)
  | .SM, .getm | .SM, .gets | .MM, .getm | .MM, .gets | .MO, .getm | .MO, .gets
  | .OM, .getm | .OM, .gets | .OO, .getm | .OO, .gets => .ok (.cycle e)
  | _, _ => .error "MOSI dir: invalid (state, message) pair"

/-- `MOESIF_tick`. -/
def moesifHandle (s : Settings) (e : DirEntry) (r : Message) : Except String Outcome :=
  match e.state, r.kind with
  | .I, .getm | .I, .getx => .ok (memoryGrant e r .M)
  | .I, .gets => .ok (memoryGrantE e r)
  | .S, .gets => .ok { entry := e.ensurePresence r.src, schedule := some (r.block, r.src) }
  | .S, .getm | .S, .getx =>
      let targets := e.presentExcept s.numProcs fun i => i ≠ r.src
      let o := invalidate e r targets .SM
      if targets.length = 0 then
        .ok
          { entry := { o.entry.ensurePresence r.src with state := .M, dirty := true }
            sends := [{ dest := r.src, tag := r.block, kind := .ack }] }
      else .ok o
  | .SM, .invack =>
      (invackSM e r "MOESIF dir: too many INVACKs (SM)").map fun o =>
        { o with entry := { o.entry with dirty := o.entry.dirty || o.entry.state == .M } }
  | .M, .getm | .M, .getx => .ok (recallHolder s e r .recallGotoI .MM)
  | .M, .gets => .ok (recallToOwner s e r true .MO)
  | .MM, .data => .ok (transfer e r)
  | .MO, .data => .ok (shareData e r .O)
  | .E, .getm => .ok (recallHolder s e r .recallGotoI .EM)
  | .E, .gets => .ok (recallToOwner s e r false .EF)
  | .E, .getx => .ok (silentUpgrade e r)
  | .EF, .data => .ok (shareData e r .F)
  | .EM, .data => .ok (transfer e r)
  | .F, .getm => .ok (reclaim s e r .FM)
  | .F, .gets => askOwner e r false .FF "MOESIF dir: saw GETS from proc already in F"
  -- The owner is invalidated as well.
  | .F, .getx => .ok (invalidate e r (e.presentExcept s.numProcs fun i => i ≠ r.src) .FM)
  | .FF, .data => .ok (shareData e r .F)
  | .FM, .invack => invackOwned e r "MOESIF dir: too many INVACKs (FM)"
  | .FM, .data => .ok (dataOwned e r true)
  | .O, .getm => .ok (reclaim s e r .OM)
  | .O, .gets => askOwner e r true .OO "MOESIF dir: saw GETS from proc already in O"
  -- No recall of the owner here, also when nobody else is left.
  | .O, .getx =>
      .ok (invalidate e r (e.presentExcept s.numProcs fun i => i ≠ r.src && i ≠ e.oFId) .OM)
  | .OM, .invack => invackOwned e r "MOESIF dir: too many INVACKs (OM)"
  | .OM, .data => .ok (dataOwned e r false)
  | .OO, .data => .ok (shareData e r .O)
  | .MM, .getm | .MM, .gets | .MM, .getx | .MO, .getm | .MO, .gets | .MO, .getx
  | .EM, .getm | .EM, .gets | .EM, .getx | .EF, .getm | .EF, .gets | .EF, .getx
  | .FM, .getm | .FM, .gets | .FM, .getx | .FF, .getm | .FF, .gets | .FF, .getx
  | .OM, .getm | .OM, .gets | .OM, .getx | .OO, .getm | .OO, .gets | .OO, .getx
  | .SM, .getm | .SM, .gets | .SM, .getx => .ok (.cycle e)
  | _, _ => .error "MOESIF dir: invalid (state, message) pair"

end Coherence
