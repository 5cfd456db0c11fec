import MulticoreSim.Ooo.Pipeline

/-! # Reading a multi-threaded trace

A trace file of one thread holds instruction, sync and lifecycle records. The
reader asks a sink before it goes past a gated sync record, and delivers the
records that the core is to see.
-/

namespace Sync

open Ooo (SyncKind SyncToken Record)

structure SyncRecord where
  kind : SyncKind
  syncObjectAddr : Nat := 0
  sequenceNo : Nat := 0
  extraArg : Nat := 0
  ip : Nat := 0
  deriving DecidableEq, Repr

/-- A record of a thread's file. -/
inductive TraceRecord where
  | instr (record : Record) (plain : record.syncToken = none)
  | sync (s : SyncRecord)
  | lifecycle
  /-- What the reader throws at. -/
  | malformed (what : String)
  deriving DecidableEq

/-- `SyncSink`. -/
structure Sink where
  State : Type
  tryConsumeSync : State → Nat → SyncRecord → Except String (Bool × State)
  notifyRetire : State → Nat → SyncRecord → Except String State
  onLifecycle : State → Nat → Except String State

/-- `sync_needs_gate`. -/
def needsGate : SyncKind → Bool
  | .lockAcquire | .barrierLeave | .atomicRMW | .atomicLoad | .atomicStore => true
  | _ => false

/-- `sync_surfaces_as_pseudo`. -/
def surfacesAsPseudo : SyncKind → Bool
  | .lockRelease | .barrierArrive | .atomicRMW | .atomicLoad | .atomicStore => true
  | _ => false

def SyncRecord.token (s : SyncRecord) : SyncToken :=
  { kind := s.kind, syncObjectAddr := s.syncObjectAddr, sequenceNo := s.sequenceNo
    extraArg := s.extraArg }

/-- `make_pseudo_record`. -/
def pseudoRecord (s : SyncRecord) : Record := { ip := s.ip, syncToken := some s.token }

/-- What a record of the file becomes for the core, if anything. -/
def deliverable : TraceRecord → Option Record
  | .instr record _ => some record
  | .sync s => if surfacesAsPseudo s.kind then some (pseudoRecord s) else none
  | .lifecycle | .malformed _ => none

def deliverables (records : List TraceRecord) : List Record := records.filterMap deliverable

/-- A reader of a file with a sink wired. -/
structure Reader where
  rest : List TraceRecord
  syncTid : Nat
  /-- Read off the file and not approved yet. -/
  pendingSync : Option SyncRecord := none
  recordsRead : Nat := 0

namespace Reader

variable {K : Sink}

/-- The loop of `next` past the held record. -/
def scan (r : Reader) (sink : K.State) :
    List TraceRecord → Except String (Option Record × Reader × K.State)
  | [] => .ok (none, { r with rest := [] }, sink)
  | .instr record _ :: rest => .ok (some record, { r with rest, recordsRead := r.recordsRead + 1 }, sink)
  | .sync s :: rest =>
      match (if needsGate s.kind then K.tryConsumeSync sink r.syncTid s else .ok (true, sink)) with
      | .error fault => .error fault
      | .ok (false, sink) => .ok (none, { r with rest, pendingSync := some s }, sink)
      | .ok (true, sink) =>
          if surfacesAsPseudo s.kind then
            .ok (some (pseudoRecord s), { r with rest, recordsRead := r.recordsRead + 1 }, sink)
          else scan r sink rest
  | .lifecycle :: rest =>
      match K.onLifecycle sink r.syncTid with
      | .error fault => .error fault
      | .ok sink => scan r sink rest
  | .malformed what :: _ => .error what

/-- `Reader::next`: a held record is polled again before anything is read. -/
def next (r : Reader) (sink : K.State) : Except String (Option Record × Reader × K.State) :=
  match r.pendingSync with
  | none => r.scan sink r.rest
  | some held =>
      match K.tryConsumeSync sink r.syncTid held with
      | .error fault => .error fault
      | .ok (false, sink) => .ok (none, r, sink)
      | .ok (true, sink) =>
          if surfacesAsPseudo held.kind then
            .ok (some (pseudoRecord held),
              { r with pendingSync := none, recordsRead := r.recordsRead + 1 }, sink)
          else { r with pendingSync := none }.scan sink r.rest

/-- The records that the reader has not gone past. -/
def ahead (r : Reader) : List TraceRecord := (r.pendingSync.map .sync).toList ++ r.rest

/-! ## What one call goes past -/

/-- The sink let the records through, one after the other, at the states it was in. -/
inductive Admits (K : Sink) (tid : Nat) : K.State → List TraceRecord → K.State → Prop where
  | nil {sink : K.State} : Admits K tid sink [] sink
  /-- The call ends at a gate that stays shut. -/
  | refused {sink sink' : K.State} {s : SyncRecord} (shut : K.tryConsumeSync sink tid s = .ok (false, sink')) :
      Admits K tid sink [] sink'
  | plain {sink sink' : K.State} {record : Record} {plain : record.syncToken = none}
      {passed : List TraceRecord} (tail : Admits K tid sink passed sink') :
      Admits K tid sink (.instr record plain :: passed) sink'
  | polled {sink mid sink' : K.State} {s : SyncRecord} {passed : List TraceRecord}
      (consumed : K.tryConsumeSync sink tid s = .ok (true, mid)) (tail : Admits K tid mid passed sink') : Admits K tid sink (.sync s :: passed) sink'
  | free {sink sink' : K.State} {s : SyncRecord} {passed : List TraceRecord}
      (gate : needsGate s.kind = false) (tail : Admits K tid sink passed sink') :
      Admits K tid sink (.sync s :: passed) sink'
  | lifecycle {sink mid sink' : K.State} {passed : List TraceRecord}
      (told : K.onLifecycle sink tid = .ok mid) (tail : Admits K tid mid passed sink') :
      Admits K tid sink (.lifecycle :: passed) sink'

/-- What a sink keeps at every call holds at the end, and what its open gates promise
    holds of the gated records it let through. -/
theorem Admits.gates {tid : Nat} {sink sink' : K.State} {passed : List TraceRecord}
    (admits : Admits K tid sink passed sink') {I : K.State → Prop} {G : SyncRecord → Prop}
    (consume : ∀ sink s passes sink', I sink → K.tryConsumeSync sink tid s = .ok (passes, sink') →
      I sink' ∧ (passes = true → G s))
    (told : ∀ sink sink', I sink → K.onLifecycle sink tid = .ok sink' → I sink') (start : I sink) :
    I sink' ∧ ∀ s, .sync s ∈ passed → needsGate s.kind = true → G s := by
  induction admits with
  | nil => exact ⟨start, fun s mem => nomatch mem⟩
  | @refused sink sink' s shut => exact ⟨(consume _ _ _ _ start shut).1, fun s mem => nomatch mem⟩
  | @plain sink sink' record plain passed tail ih =>
      obtain ⟨kept, gates⟩ := ih start
      refine ⟨kept, fun s mem gated => gates s ?_ gated⟩
      simpa using mem
  | @polled sink mid sink' s passed consumed tail ih =>
      obtain ⟨next, opens⟩ := consume _ _ _ _ start consumed
      obtain ⟨kept, gates⟩ := ih next
      refine ⟨kept, fun s' mem gated => ?_⟩
      rcases List.mem_cons.mp mem with same | mem
      · cases same
        exact opens rfl
      · exact gates s' mem gated
  | @free sink sink' s passed gate tail ih =>
      obtain ⟨kept, gates⟩ := ih start
      refine ⟨kept, fun s' mem gated => ?_⟩
      rcases List.mem_cons.mp mem with same | mem
      · cases same
        simp [gate] at gated
      · exact gates s' mem gated
  | @lifecycle sink mid sink' passed lifecycle tail ih =>
      obtain ⟨kept, gates⟩ := ih (told _ _ start lifecycle)
      refine ⟨kept, fun s mem gated => gates s ?_ gated⟩
      simpa using mem

/-- What one call did: it went past some records, of which it delivered the last one
    that the core is to see, if it delivered any. -/
structure Passes (r : Reader) (sink : K.State) (out : Option Record) (r' : Reader) (sink' : K.State)
    (passed : List TraceRecord) : Prop where
  ahead : r.ahead = passed ++ r'.ahead
  delivered : deliverables passed = out.toList
  admits : Admits K r.syncTid sink passed sink'
  tid : r'.syncTid = r.syncTid

theorem scan_spec {r r' : Reader} {sink sink' : K.State} {out : Option Record} {rest : List TraceRecord}
    (none : r.pendingSync = none) (ran : r.scan sink rest = .ok (out, r', sink')) :
    ∃ passed, { r with rest }.Passes sink out r' sink' passed := by
  induction rest generalizing sink with
  | nil =>
      cases ran
      exact ⟨[], rfl, rfl, .nil, rfl⟩
  | cons record rest ih =>
      cases record with
      | instr record plain =>
          cases ran
          exact ⟨[.instr record plain], by simp [ahead, none], rfl, .plain .nil, rfl⟩
      | lifecycle =>
          simp only [scan] at ran
          split at ran
          · cases ran
          · next told =>
              obtain ⟨passed, ahead, delivered, admits, tid⟩ := ih ran
              refine ⟨.lifecycle :: passed, ?_, delivered, .lifecycle told admits, tid⟩
              simpa [Reader.ahead, none] using ahead
      | malformed what => cases ran
      | sync s =>
          have past : ∀ mid, (∀ passed, Admits K r.syncTid mid passed sink' →
                Admits K r.syncTid sink (.sync s :: passed) sink') →
              (if surfacesAsPseudo s.kind then
                .ok (some (pseudoRecord s), { r with rest, recordsRead := r.recordsRead + 1 }, mid)
                else r.scan mid rest) = .ok (out, r', sink') →
              ∃ passed, { r with rest := .sync s :: rest }.Passes sink out r' sink' passed := by
            intro mid opens ran
            split at ran
            · next surfaces =>
                cases ran
                refine ⟨[.sync s], by simp [ahead, none], ?_, opens [] .nil, rfl⟩
                simp [deliverables, deliverable, surfaces]
            · next hidden =>
                obtain ⟨passed, ahead, delivered, admits, tid⟩ := ih ran
                refine ⟨.sync s :: passed, ?_, ?_, opens passed admits, tid⟩
                · simpa [Reader.ahead, none] using ahead
                · simpa [deliverables, deliverable, hidden] using delivered
          simp only [scan] at ran
          cases gate : needsGate s.kind with
          | false =>
              simp only [gate, Bool.false_eq_true, if_false] at ran
              exact past sink (fun _ => .free gate) ran
          | true =>
              simp only [gate, if_true] at ran
              split at ran
              · cases ran
              · next refused =>
                  cases ran
                  exact ⟨[], by simp [ahead, none], rfl, .refused refused, rfl⟩
              · next mid consumed => exact past mid (fun _ => .polled consumed) ran

theorem next_spec {r r' : Reader} {sink sink' : K.State} {out : Option Record}
    (ran : r.next sink = .ok (out, r', sink')) : ∃ passed, r.Passes sink out r' sink' passed := by
  simp only [next] at ran
  split at ran
  · next none => exact scan_spec none ran
  · next s pending =>
      split at ran
      · cases ran
      · next refused =>
          cases ran
          exact ⟨[], rfl, rfl, .refused refused, rfl⟩
      · next mid consumed =>
          split at ran
          · next surfaces =>
              cases ran
              refine ⟨[.sync s], by simp [ahead, pending], ?_, .polled consumed .nil, rfl⟩
              simp [deliverables, deliverable, surfaces]
          · next hidden =>
              obtain ⟨passed, ahead, delivered, admits, tid⟩ := scan_spec rfl ran
              refine ⟨.sync s :: passed, ?_, ?_, .polled consumed admits, tid⟩
              · simpa [Reader.ahead, pending] using ahead
              · simpa [deliverables, deliverable, hidden] using delivered

end Reader

end Sync
