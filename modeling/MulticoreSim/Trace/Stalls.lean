import MulticoreSim.Sync.Reader
import MulticoreSim.Trace.Stream

/-! # Stalls and the delivered records

The reader of the core, over the bytes of a stream. A sink may refuse a sync
record as often as it likes: what the core is given in the end is the same.
-/

namespace Trace

open ByteStream
open Sync (Sink TraceRecord needsGate surfacesAsPseudo pseudoRecord deliverable deliverables)

/-! ## The records of a stream -/

/-- The record as the core takes it. -/
def Record.toOoo (r : Record) : Ooo.Record where
  ip := r.ip.toNat
  isBranch := r.isBranch
  branchTaken := r.branchTaken
  isMul := r.isMul
  destinationRegisters := r.destinationRegisters.toList.map BitVec.toFin
  sourceRegisters := r.sourceRegisters.toList.map BitVec.toFin
  destinationMemory := r.destinationMemory.toList.map BitVec.toNat
  sourceMemory := r.sourceMemory.toList.map BitVec.toNat

/-- The record as a sink takes it. -/
def SyncRecord.toSync (s : SyncRecord) : Sync.SyncRecord where
  kind := s.kind
  syncObjectAddr := s.syncObjectAddr.toNat
  sequenceNo := s.sequenceNo.toNat
  extraArg := s.extraArg.toNat
  ip := s.ip.toNat

@[simp] theorem SyncRecord.toSync_kind (s : SyncRecord) : s.toSync.kind = s.kind := rfl

def AnyRecord.toTrace : AnyRecord → TraceRecord
  | .instr r => .instr r.toOoo rfl
  | .sync s => .sync s.toSync
  | .lifecycle _ => .lifecycle

/-- One record off the front, or what the reader throws at; `none` at the end. -/
def readNext (bytes : List Byte) : Option (Except String AnyRecord × List Byte) :=
  match getU8 bytes with
  | none => none
  | some (tag, bytes) =>
      match (readPayload "v2 reader: unknown record type byte=" tag).run bytes with
      | .error what => some (.error what, if 2 < tag.toNat then bytes else [])
      | .ok (a, rest) => some (.ok a, rest)

theorem uses_u8 : GetUses getU8 1 := uses_word 1
theorem uses_u32 : GetUses getU32 4 := uses_word 4
theorem uses_u64 : GetUses getU64 8 := uses_word 8

theorem uses_payload (unknown : String) (tag : Byte) : Uses (readPayload unknown tag) 63 := by
  unfold readPayload
  split
  · refine Uses.map _ ?_
    exact (Uses.demand uses_u8 _).bind fun _ => (Uses.demand uses_u64 _).bind fun _ =>
      (Uses.demand (uses_many uses_u8 2) _).bind fun _ =>
      (Uses.demand (uses_many uses_u8 4) _).bind fun _ =>
      (Uses.demand (uses_many uses_u64 2) _).bind fun _ =>
      (Uses.demand (uses_many uses_u64 4) _).bind fun _ => Uses.pure _
  · split
    · refine Uses.map _ ?_
      exact (Uses.demand uses_u8 _).bind fun _ => (Uses.demand (uses_skip 6) _).bind fun _ =>
        (Uses.demand uses_u64 _).bind fun _ => (Uses.demand uses_u64 _).bind fun _ =>
        (Uses.demand uses_u64 _).bind fun _ => (Uses.demand uses_u64 _).bind fun _ =>
        (Uses.demand uses_u64 _).bind fun _ => (Uses.demand (uses_skip 16) _).bind fun _ =>
        Uses.pure _
    · split
      · refine Uses.map _ ?_
        exact (Uses.demand uses_u8 _).bind fun _ => (Uses.demand (uses_skip 2) _).bind fun _ =>
          (Uses.demand uses_u32 _).bind fun _ => (Uses.demand uses_u64 _).bind fun _ =>
          (Uses.demand (uses_skip 48) _).bind fun _ => Uses.pure _
      · exact Uses.throw _ _

/-- A record is 64 bytes. -/
theorem readNext_shorter {bytes rest : List Byte} {a : AnyRecord}
    (found : readNext bytes = some (.ok a, rest)) : bytes.length = 64 + rest.length := by
  unfold readNext at found
  split at found
  · cases found
  · next tag payload tagged =>
      split at found
      · cases found
      · next got =>
          cases found
          have used := uses_u8 _ _ _ tagged
          have used' := uses_payload _ _ _ _ _ got
          omega

/-- The records of a stream, up to what the reader throws at. -/
def decode (bytes : List Byte) : List TraceRecord :=
  match _found : readNext bytes with
  | none => []
  | some (.error what, _) => [.malformed what]
  | some (.ok a, rest) => a.toTrace :: decode rest
termination_by bytes.length
decreasing_by
  have shorter := readNext_shorter _found
  omega

theorem decode_nil {bytes : List Byte} (ended : readNext bytes = none) : decode bytes = [] := by
  rw [decode]
  split <;> simp_all

theorem decode_malformed {bytes rest : List Byte} {what : String}
    (found : readNext bytes = some (.error what, rest)) : decode bytes = [.malformed what] := by
  rw [decode]
  split <;> simp_all

theorem decode_cons {bytes rest : List Byte} {a : AnyRecord}
    (found : readNext bytes = some (.ok a, rest)) : decode bytes = a.toTrace :: decode rest := by
  rw [decode]
  split <;> simp_all

theorem readNext_record {a : AnyRecord} (valid : a.Valid) (rest : List Byte) :
    readNext (a.bytes ++ rest) = some (.ok a, rest) := by
  obtain ⟨tag, payload, eq, yields⟩ := a.yields valid "v2 reader: unknown record type byte="
  rw [readNext, eq, List.append_assoc, reads_u8 tag]
  simp only [yields rest]

/-- The records of what a writer wrote are the records it was given. -/
theorem decode_bytes {records : List AnyRecord} (valid : ∀ a ∈ records, a.Valid) :
    decode (records.flatMap AnyRecord.bytes) = records.map AnyRecord.toTrace := by
  induction records with
  | nil => exact decode_nil rfl
  | cons a rest ih =>
      rw [List.flatMap_cons, decode_cons (readNext_record (valid a List.mem_cons_self) _),
        ih fun b mem => valid b (List.mem_cons_of_mem a mem), List.map_cons]

/-! ## `next` on bytes -/

namespace Reader

variable {K : Sink}

/-- What a call returns or throws, and what it leaves. -/
abbrev Outcome (K : Sink) := Except String (Option Ooo.Record) × Reader × K.State

/-- `set_sync_sink` with a sink. -/
def setSyncSink (r : Reader) (tid : Nat) : Except String Reader :=
  if r.variant ≠ .casimV2 then .error "set_sync_sink() requires CasimV2 reader"
  else .ok { r with syncTid := tid }

def blocked (r : Reader) : Bool := r.pendingSync.isSome

/-- The loop of `next` past the held record. -/
def scan (r : Reader) (sink : K.State) (bytes : List Byte) : Outcome K :=
  match _found : readNext bytes with
  | none => (.ok none, { r with bytes := [] }, sink)
  | some (.error what, rest) => (.error what, { r with bytes := rest }, sink)
  | some (.ok (.instr i), rest) =>
      (.ok (some i.toOoo), { r with bytes := rest, recordsRead := r.recordsRead + 1 }, sink)
  | some (.ok (.sync s), rest) =>
      match (if needsGate s.kind then K.tryConsumeSync sink r.syncTid s.toSync
        else .ok (true, sink)) with
      | .error fault => (.error fault, { r with bytes := rest }, sink)
      | .ok (false, sink) => (.ok none, { r with bytes := rest, pendingSync := some s }, sink)
      | .ok (true, sink) =>
          if surfacesAsPseudo s.kind then
            (.ok (some (pseudoRecord s.toSync)),
              { r with bytes := rest, recordsRead := r.recordsRead + 1 }, sink)
          else scan r sink rest
  | some (.ok (.lifecycle _), rest) =>
      match K.onLifecycle sink r.syncTid with
      | .error fault => (.error fault, { r with bytes := rest }, sink)
      | .ok sink => scan r sink rest
termination_by bytes.length
decreasing_by
  all_goals
    have shorter := readNext_shorter _found
    omega

/-- `Reader::next`: a held record is polled again before anything is read. -/
def next (r : Reader) (sink : K.State) : Outcome K :=
  match r.variant with
  | .standard =>
      match readStandard r.bytes with
      | .error what => (.error what, { r with bytes := [] }, sink)
      | .ok none => (.ok none, { r with bytes := [] }, sink)
      | .ok (some (i, rest)) =>
          (.ok (some i.toOoo), { r with bytes := rest, recordsRead := r.recordsRead + 1 }, sink)
  | .casimV2 =>
      match r.pendingSync with
      | none => r.scan sink r.bytes
      | some held =>
          match K.tryConsumeSync sink r.syncTid held.toSync with
          | .error fault => (.error fault, r, sink)
          | .ok (false, sink) => (.ok none, r, sink)
          | .ok (true, sink) =>
              if surfacesAsPseudo held.kind then
                (.ok (some (pseudoRecord held.toSync)),
                  { r with pendingSync := none, recordsRead := r.recordsRead + 1 }, sink)
              else { r with pendingSync := none }.scan sink r.bytes

section

variable {r : Reader} {sink : K.State} {bytes rest : List Byte}

theorem scan_end (ended : readNext bytes = none) :
    r.scan sink bytes = (.ok none, { r with bytes := [] }, sink) := by
  rw [scan]
  split <;> simp_all

theorem scan_malformed {what : String} (found : readNext bytes = some (.error what, rest)) :
    r.scan sink bytes = (.error what, { r with bytes := rest }, sink) := by
  rw [scan]
  split <;> simp_all

theorem scan_instr {i : Record} (found : readNext bytes = some (.ok (.instr i), rest)) :
    r.scan sink bytes = (.ok (some i.toOoo),
      { r with bytes := rest, recordsRead := r.recordsRead + 1 }, sink) := by
  rw [scan]
  split <;> simp_all

theorem scan_lifecycle {l : LifecycleRecord}
    (found : readNext bytes = some (.ok (.lifecycle l), rest)) : r.scan sink bytes =
      match K.onLifecycle sink r.syncTid with
      | .error fault => (.error fault, { r with bytes := rest }, sink)
      | .ok sink => r.scan sink rest := by
  rw [scan]
  split <;> simp_all

theorem scan_sync {s : SyncRecord} (found : readNext bytes = some (.ok (.sync s), rest)) :
    r.scan sink bytes =
      match (if needsGate s.kind then K.tryConsumeSync sink r.syncTid s.toSync
        else .ok (true, sink)) with
      | .error fault => (.error fault, { r with bytes := rest }, sink)
      | .ok (false, sink) => (.ok none, { r with bytes := rest, pendingSync := some s }, sink)
      | .ok (true, sink) =>
          if surfacesAsPseudo s.kind then
            (.ok (some (pseudoRecord s.toSync)),
              { r with bytes := rest, recordsRead := r.recordsRead + 1 }, sink)
          else r.scan sink rest := by
  rw [scan]
  split <;> simp_all

end

/-! ### Addresses -/

/-- The addresses of a record of the file are of 64 bits. -/
theorem toOoo_addresses (r : Record) : ∀ a ∈ r.toOoo.addresses, a < 2 ^ 64 := by
  intro a mem
  rcases List.mem_append.mp mem with source | destination
  · obtain ⟨word, -, rfl⟩ := List.mem_map.mp source
    exact word.isLt
  · obtain ⟨word, -, rfl⟩ := List.mem_map.mp destination
    exact word.isLt

theorem scan_addresses {r r' : Reader} {sink sink' : K.State} {bytes : List Byte} {rec : Ooo.Record}
    (given : r.scan sink bytes = (.ok (some rec), r', sink')) : ∀ a ∈ rec.addresses, a < 2 ^ 64 := by
  induction size : bytes.length using Nat.strong_induction_on generalizing bytes sink with
  | _ size ih =>
      cases found : readNext bytes with
      | none =>
          rw [scan_end found] at given
          cases given
      | some front =>
          obtain ⟨a | a, rest⟩ := front
          · rw [scan_malformed found] at given
            cases given
          · have shorter := readNext_shorter found
            have later {sink : K.State} (given : r.scan sink rest = (.ok (some rec), r', sink')) :=
              ih rest.length (by omega) given rfl
            cases a with
            | instr i =>
                rw [scan_instr found] at given
                cases given
                exact toOoo_addresses i
            | lifecycle l =>
                rw [scan_lifecycle found] at given
                split at given
                · cases given
                · exact later given
            | sync s =>
                rw [scan_sync found] at given
                split at given
                · cases given
                · cases given
                · split at given
                  · cases given
                    exact fun _ mem => absurd mem List.not_mem_nil
                  · exact later given

/-- What `next` gives out is at addresses of 64 bits. -/
theorem next_addresses {r r' : Reader} {sink sink' : K.State} {rec : Ooo.Record}
    (given : r.next sink = (.ok (some rec), r', sink')) : ∀ a ∈ rec.addresses, a < 2 ^ 64 := by
  unfold next at given
  split at given
  · split at given
    · cases given
    · cases given
    · next i rest _ =>
        cases given
        exact toOoo_addresses i
  · split at given
    · exact scan_addresses given
    · split at given
      · cases given
      · cases given
      · split at given
        · cases given
          exact fun _ mem => absurd mem List.not_mem_nil
        · exact scan_addresses given

/-! ### The reader of records -/

/-- The reader of the records that the bytes are. -/
def toSync (r : Reader) : Sync.Reader where
  rest := decode r.bytes
  syncTid := r.syncTid
  pendingSync := r.pendingSync.map SyncRecord.toSync
  recordsRead := r.recordsRead

/-- The result of a call as the reader of records gives it. -/
def Outcome.toSync (o : Outcome K) : Except String (Option Ooo.Record × Sync.Reader × K.State) :=
  match o.1 with
  | .error what => .error what
  | .ok out => .ok (out, o.2.1.toSync, o.2.2)

theorem scan_refines (r : Reader) (sink : K.State) (bytes : List Byte) :
    Outcome.toSync (r.scan sink bytes) = r.toSync.scan sink (decode bytes) := by
  induction size : bytes.length using Nat.strong_induction_on generalizing bytes sink with
  | _ size ih =>
      cases found : readNext bytes with
      | none =>
          rw [scan_end found, decode_nil found]
          simp [Outcome.toSync, toSync, Sync.Reader.scan, show decode [] = [] from decode_nil rfl]
      | some front =>
          obtain ⟨a | a, rest⟩ := front
          · rw [scan_malformed found, decode_malformed found]
            rfl
          · have shorter := readNext_shorter found
            have later (sink : K.State) := ih rest.length (by omega) sink rest rfl
            rw [decode_cons found]
            cases a with
            | instr i =>
                rw [scan_instr found]
                rfl
            | lifecycle l =>
                rw [scan_lifecycle found]
                simp only [AnyRecord.toTrace, Sync.Reader.scan, toSync]
                cases K.onLifecycle sink r.syncTid with
                | error fault => rfl
                | ok sink => exact later sink
            | sync s =>
                rw [scan_sync found]
                have past (sink : K.State) : Outcome.toSync (if surfacesAsPseudo s.kind then
                      (.ok (some (pseudoRecord s.toSync)),
                        { r with bytes := rest, recordsRead := r.recordsRead + 1 }, sink)
                    else r.scan sink rest : Outcome K) =
                    if surfacesAsPseudo s.toSync.kind then
                      .ok (some (pseudoRecord s.toSync), { r.toSync with
                        rest := decode rest, recordsRead := r.toSync.recordsRead + 1 }, sink)
                    else r.toSync.scan sink (decode rest) := by
                  rw [SyncRecord.toSync_kind]
                  split
                  · rfl
                  · exact later sink
                have asked : (if needsGate s.toSync.kind then
                    K.tryConsumeSync sink r.toSync.syncTid s.toSync else .ok (true, sink)) =
                    if needsGate s.kind then K.tryConsumeSync sink r.syncTid s.toSync
                    else .ok (true, sink) := rfl
                rw [AnyRecord.toTrace, Sync.Reader.scan, asked]
                rcases (if needsGate s.kind then K.tryConsumeSync sink r.syncTid s.toSync
                  else .ok (true, sink)) with fault | ⟨_ | _, sink⟩
                · rfl
                · rfl
                · exact past sink

/-- Over the bytes of a CasimV2 stream the reader is the reader of its records. -/
theorem next_refines (r : Reader) (casim : r.variant = .casimV2) (sink : K.State) :
    Outcome.toSync (r.next sink) = r.toSync.next sink := by
  obtain ⟨variant, bytes, recordsRead, header, tid, pending⟩ := r
  cases casim
  cases pending with
  | none => exact scan_refines _ sink bytes
  | some s =>
      have polled : Sync.Reader.next (toSync ⟨.casimV2, bytes, recordsRead, header, tid, some s⟩) sink =
          match K.tryConsumeSync sink tid s.toSync with
          | .error fault => .error fault
          | .ok (false, sink) =>
              .ok (none, toSync ⟨.casimV2, bytes, recordsRead, header, tid, some s⟩, sink)
          | .ok (true, sink) =>
              if surfacesAsPseudo s.kind then
                .ok (some (pseudoRecord s.toSync),
                  toSync ⟨.casimV2, bytes, recordsRead + 1, header, tid, none⟩, sink)
              else (toSync ⟨.casimV2, bytes, recordsRead, header, tid, none⟩).scan sink
                (decode bytes) := rfl
      rw [polled, next]
      dsimp only
      rcases K.tryConsumeSync sink tid s.toSync with fault | ⟨_ | _, sink⟩
      · rfl
      · rfl
      · dsimp only
        split
        · rfl
        · exact scan_refines _ sink bytes

end Reader

/-! ## Patterns of approvals -/

variable {p : Nat → Bool}

/-- The records a sink is asked about. -/
def gated (records : List TraceRecord) : List Sync.SyncRecord :=
  records.filterMap fun
    | .sync s => if needsGate s.kind then some s else none
    | _ => none

/-- How often a sink was asked, and what it has approved. -/
structure Polls where
  count : Nat := 0
  approved : List Sync.SyncRecord := []

/-- A sink that gives its answers in a fixed order. -/
abbrev patternSink (p : Nat → Bool) : Sink where
  State := Polls
  tryConsumeSync sink _ s :=
    .ok (p sink.count, ⟨sink.count + 1, if p sink.count then sink.approved ++ [s] else sink.approved⟩)
  notifyRetire sink _ _ := .ok sink
  onLifecycle sink _ := .ok sink

/-- A reader that is called again and again, until it throws. -/
structure Feed where
  reader : Reader
  sink : Polls := {}
  /-- What the calls that returned true gave out. -/
  delivered : List Ooo.Record := []
  fault : Option String := none

def Feed.call (p : Nat → Bool) (f : Feed) : Feed :=
  match f.fault with
  | some _ => f
  | none =>
      match f.reader.next (K := patternSink p) f.sink with
      | (.ok out, reader, sink) => { reader, sink, delivered := f.delivered ++ out.toList }
      | (.error what, reader, sink) =>
          { reader, sink, delivered := f.delivered, fault := some what }

/-- After `n` calls. -/
def feed (p : Nat → Bool) (r : Reader) : Nat → Feed
  | 0 => { reader := r }
  | n + 1 => (feed p r n).call p

/-- What the reader has not gone past. -/
def Reader.ahead (r : Reader) : List TraceRecord :=
  (r.pendingSync.map (TraceRecord.sync ∘ SyncRecord.toSync)).toList ++ decode r.bytes

/-- What a call goes past, and what it asks for and gives out there. -/
structure Passes (before : List TraceRecord) (sink : Polls)
    (o : Reader.Outcome (patternSink p)) : Prop where
  casim : o.2.1.variant = .casimV2
  gate : ∀ s, o.2.1.pendingSync = some s → needsGate s.kind = true
  past : ∃ passed, o.2.2.approved = sink.approved ++ gated passed ∧
    match o.1 with
    | .ok out => before = passed ++ o.2.1.ahead ∧ deliverables passed = out.toList ∧
        (out = none → o.2.1.pendingSync = none → o.2.1.ahead = [])
    | .error _ => before = passed ∧ deliverables passed = [] ∧ o.2.1.pendingSync = none

@[simp] theorem gated_nil : gated [] = [] := rfl

@[simp] theorem deliverables_nil : deliverables [] = [] := rfl

theorem gated_append (xs ys : List TraceRecord) : gated (xs ++ ys) = gated xs ++ gated ys :=
  List.filterMap_append

theorem deliverables_append (xs ys : List TraceRecord) :
    deliverables (xs ++ ys) = deliverables xs ++ deliverables ys := List.filterMap_append

/-- Going past one more record that is not given out. -/
theorem Passes.cons {before : List TraceRecord} {sink mid : Polls}
    {o : Reader.Outcome (patternSink p)} (x : TraceRecord) (hidden : deliverable x = none)
    (log : mid.approved = sink.approved ++ gated [x]) (passes : Passes before mid o) :
    Passes (x :: before) sink o := by
  obtain ⟨casim, gate, passed, log', rest⟩ := passes
  have deliver : deliverables (x :: passed) = deliverables passed := by
    simp [deliverables, hidden]
  refine ⟨casim, gate, x :: passed, ?_, ?_⟩
  · rw [log', log, List.append_assoc, ← gated_append]
    rfl
  · split at rest
    · obtain ⟨whole, given, last⟩ := rest
      exact ⟨by rw [whole, List.cons_append], deliver.trans given, last⟩
    · obtain ⟨whole, given, free⟩ := rest
      exact ⟨by rw [whole], deliver.trans given, free⟩

theorem Reader.scan_passes (r : Reader) (casim : r.variant = .casimV2)
    (free : r.pendingSync = none) (sink : Polls) (bytes : List Byte) :
    Passes (decode bytes) sink (r.scan (K := patternSink p) sink bytes) := by
  induction size : bytes.length using Nat.strong_induction_on generalizing bytes sink with
  | _ size ih =>
      cases found : readNext bytes with
      | none =>
          rw [scan_end found, decode_nil found]
          have ended : decode [] = [] := decode_nil rfl
          exact ⟨casim, by simp [free], [], by simp,
            by simp [ahead, free, ended], rfl, fun _ _ => by simp [ahead, free, ended]⟩
      | some front =>
          obtain ⟨a | a, rest⟩ := front
          · rw [scan_malformed found, decode_malformed found]
            exact ⟨casim, by simp [free], [.malformed a], by simp [gated], rfl, rfl, free⟩
          · have shorter := readNext_shorter found
            have later (sink : Polls) := ih rest.length (by omega) sink rest rfl
            rw [decode_cons found]
            cases a with
            | instr i =>
                rw [scan_instr found]
                exact ⟨casim, by simp [free], [.instr i.toOoo rfl], by simp [gated],
                  by simp [ahead, free, AnyRecord.toTrace], rfl, by simp⟩
            | lifecycle l =>
                rw [scan_lifecycle found]
                exact (later sink).cons .lifecycle rfl (List.append_nil _).symm
            | sync s =>
                rw [scan_sync found]
                have opened (mid : Polls)
                    (log : mid.approved = sink.approved ++ gated [.sync s.toSync]) :
                    Passes ((AnyRecord.sync s).toTrace :: decode rest) sink
                      (if surfacesAsPseudo s.kind then
                        (.ok (some (pseudoRecord s.toSync)),
                          { r with bytes := rest, recordsRead := r.recordsRead + 1 }, mid)
                      else r.scan (K := patternSink p) mid rest) := by
                  split
                  · next surfaces =>
                      exact ⟨casim, by simp [free], [.sync s.toSync], log,
                        by simp [ahead, free, AnyRecord.toTrace],
                        by simp [deliverables, deliverable, surfaces], by simp⟩
                  · next hidden =>
                      exact (later mid).cons _ (by simp [AnyRecord.toTrace, deliverable, hidden]) log
                cases gate : needsGate s.kind with
                | false =>
                    simp only [Bool.false_eq_true, if_false]
                    exact opened sink (by simp [gated, gate])
                | true =>
                    cases answer : p sink.count with
                    | true =>
                        simp only [if_true, answer]
                        exact opened _ (by simp [gated, gate])
                    | false =>
                        simp only [if_true, answer]
                        refine ⟨casim, ?_, [], by simp, rfl, rfl, by simp⟩
                        rintro held ⟨⟩
                        exact gate

theorem Reader.next_passes (r : Reader) (casim : r.variant = .casimV2)
    (gate : ∀ s, r.pendingSync = some s → needsGate s.kind = true) (sink : Polls) :
    Passes r.ahead sink (r.next (K := patternSink p) sink) := by
  obtain ⟨variant, bytes, recordsRead, header, tid, pending⟩ := r
  cases casim
  cases pending with
  | none => exact scan_passes _ rfl rfl sink bytes
  | some s =>
      have asks : gated [.sync s.toSync] = [s.toSync] := by simp [gated, gate s rfl]
      rw [next]
      dsimp only
      cases answer : p sink.count with
      | false => exact ⟨rfl, gate, [], by simp, rfl, rfl, by simp⟩
      | true =>
          dsimp only
          split
          · next surfaces =>
              exact ⟨rfl, by simp, [.sync s.toSync], by simp [asks], rfl,
                by simp [deliverables, deliverable, surfaces], by simp⟩
          · next hidden =>
              refine (scan_passes _ rfl rfl _ bytes).cons (.sync s.toSync)
                (by simp [deliverable, hidden]) ?_
              simp [asks]

/-! ## Runs -/

/-- What is still to come. -/
def Feed.unread (f : Feed) : List TraceRecord := if f.fault = none then f.reader.ahead else []

/-- What the calls so far have gone past. -/
structure Fed (records : List TraceRecord) (f : Feed) : Prop where
  casim : f.reader.variant = .casimV2
  gate : ∀ s, f.reader.pendingSync = some s → needsGate s.kind = true
  thrown : f.fault ≠ none → f.reader.pendingSync = none
  past : ∃ passed, records = passed ++ f.unread ∧
    f.sink.approved = gated passed ∧ f.delivered = deliverables passed

/-- One call goes past some records, and gives out the one that the core is to see. Where it
    gives out none and no gate is left, it has come to the end. -/
structure Called (f f' : Feed) (passed : List TraceRecord) : Prop where
  unread : f.unread = passed ++ f'.unread
  approved : f'.sink.approved = f.sink.approved ++ gated passed
  delivered : f'.delivered = f.delivered ++ deliverables passed
  last : f.fault = none → deliverables passed = [] → gated f.unread = [] → f'.unread = []

theorem Feed.call_spec {f : Feed} (casim : f.reader.variant = .casimV2)
    (gate : ∀ s, f.reader.pendingSync = some s → needsGate s.kind = true)
    (thrown : f.fault ≠ none → f.reader.pendingSync = none) (p : Nat → Bool) :
    (f.call p).reader.variant = .casimV2 ∧
      (∀ s, (f.call p).reader.pendingSync = some s → needsGate s.kind = true) ∧
      ((f.call p).fault ≠ none → (f.call p).reader.pendingSync = none) ∧
      ∃ passed, Called f (f.call p) passed := by
  cases ran : f.fault with
  | some what =>
      have same : f.call p = f := by simp [Feed.call, ran]
      rw [same]
      exact ⟨casim, gate, thrown, [], rfl, by simp, by simp, by simp [ran]⟩
  | none =>
      obtain ⟨casim', gate', passed, log, rest⟩ := f.reader.next_passes casim gate f.sink (p := p)
      have before : f.unread = f.reader.ahead := if_pos ran
      have called : f.call p =
          match f.reader.next (K := patternSink p) f.sink with
          | (.ok out, reader, sink) => { reader, sink, delivered := f.delivered ++ out.toList }
          | (.error what, reader, sink) =>
              { reader, sink, delivered := f.delivered, fault := some what } := by
        simp only [Feed.call, ran]
      rcases result : f.reader.next (K := patternSink p) f.sink with ⟨out | out, reader, sink⟩
      · rw [result] at casim' gate' log rest called
        obtain ⟨front, given, free⟩ := rest
        rw [called]
        refine ⟨casim', gate', fun _ => free, passed, ?_, log, ?_, fun _ _ _ => rfl⟩
        · rw [before, front]
          exact (List.append_nil _).symm
        · rw [given, List.append_nil]
      · rw [result] at casim' gate' log rest called
        obtain ⟨front, given, last⟩ := rest
        rw [called]
        refine ⟨casim', gate', by simp, passed, before.trans front, log, by rw [given], ?_⟩
        intro _ silent shut
        have none : out = none := by simpa [silent] using given.symm
        refine last none ?_
        -- A held record is a gate that is left.
        cases held : reader.pendingSync with
        | none => rfl
        | some s =>
            rw [before, front, gated_append, List.append_eq_nil_iff] at shut
            have left := shut.2
            simp [Reader.ahead, held, gated, gate' s held] at left

theorem Fed.call {records : List TraceRecord} {f : Feed} (fed : Fed records f) (p : Nat → Bool) :
    Fed records (f.call p) := by
  obtain ⟨casim, gate, thrown, passed, whole, log, given⟩ := fed
  obtain ⟨casim', gate', thrown', more, called⟩ := f.call_spec casim gate thrown p
  refine ⟨casim', gate', thrown', passed ++ more, ?_, ?_, ?_⟩
  · rw [whole, called.unread, List.append_assoc]
  · rw [called.approved, log, gated_append]
  · rw [called.delivered, given, deliverables_append]

variable {r : Reader}

theorem fed_feed (casim : r.variant = .casimV2) (free : r.pendingSync = none) (p : Nat → Bool)
    (n : Nat) : Fed (decode r.bytes) (feed p r n) := by
  induction n with
  | zero =>
      refine ⟨casim, by simp [feed, free], by simp [feed], [], ?_, rfl, rfl⟩
      simp [feed, Feed.unread, Reader.ahead, free]
  | succ n ih => exact ih.call p

/-- Once all gates are open the reader comes to the end. -/
theorem feed_delivers (casim : r.variant = .casimV2) (free : r.pendingSync = none) (n : Nat)
    (all : (feed p r n).sink.approved = gated (decode r.bytes)) :
    ∃ m, (feed p r m).sink.approved = gated (decode r.bytes) ∧
      (feed p r m).delivered = deliverables (decode r.bytes) := by
  induction size : (deliverables (feed p r n).unread).length using Nat.strong_induction_on
    generalizing n with
  | _ len ih =>
      obtain ⟨casim', gate, thrown, passed, whole, log, given⟩ := fed_feed casim free p n
      have shut : gated (feed p r n).unread = [] := by
        rw [whole, gated_append, ← log] at all
        exact List.self_eq_append_right.mp all
      by_cases ended : deliverables (feed p r n).unread = []
      · exact ⟨n, all, by rw [given, whole, deliverables_append, ended, List.append_nil]⟩
      · have running : (feed p r n).fault = none := by
          by_contra faulted
          exact ended (by rw [Feed.unread, if_neg faulted]; rfl)
        obtain ⟨-, -, -, more, called⟩ := (feed p r n).call_spec casim' gate thrown p
        have parts := congrArg (List.length ∘ deliverables) called.unread
        simp only [Function.comp_apply, deliverables_append, List.length_append] at parts
        have open_gates : gated more = [] := by
          rw [called.unread, gated_append, List.append_eq_nil_iff] at shut
          exact shut.1
        refine ih _ ?_ (n + 1) ?_ rfl
        · have pos := List.length_pos_iff.mpr ended
          change (deliverables ((feed p r n).call p).unread).length < len
          by_cases silent : deliverables more = []
          · rw [called.last running silent shut, deliverables_nil, List.length_nil]
            omega
          · have some := List.length_pos_iff.mpr silent
            omega
        · change ((feed p r n).call p).sink.approved = _
          rw [called.approved, open_gates, List.append_nil, all]

/-- At the end the reader has given out everything, and stays there. -/
theorem feed_stays (casim : r.variant = .casimV2) (free : r.pendingSync = none) {n m : Nat}
    (all : (feed p r n).sink.approved = gated (decode r.bytes))
    (whole : (feed p r n).delivered = deliverables (decode r.bytes)) (later : n ≤ m) :
    (feed p r m).sink.approved = gated (decode r.bytes) ∧
      (feed p r m).delivered = deliverables (decode r.bytes) := by
  induction m, later using Nat.le_induction with
  | base => exact ⟨all, whole⟩
  | succ m _ ih =>
      obtain ⟨casim', gate, thrown, -⟩ := fed_feed casim free p m
      obtain ⟨-, -, -, more, called⟩ := (feed p r m).call_spec casim' gate thrown p
      obtain ⟨-, -, -, passed, eq, log, given⟩ := fed_feed casim free p (m + 1)
      have approved : gated (decode r.bytes) = (feed p r (m + 1)).sink.approved ++
          gated (feed p r (m + 1)).unread := by rw [log, ← gated_append, ← eq]
      have delivered : deliverables (decode r.bytes) = (feed p r (m + 1)).delivered ++
          deliverables (feed p r (m + 1)).unread := by rw [given, ← deliverables_append, ← eq]
      have approved' : (feed p r (m + 1)).sink.approved =
          (feed p r m).sink.approved ++ gated more := called.approved
      have delivered' : (feed p r (m + 1)).delivered =
          (feed p r m).delivered ++ deliverables more := called.delivered
      rw [approved', ih.1, List.append_assoc, List.self_eq_append_right,
        List.append_eq_nil_iff] at approved
      rw [delivered', ih.2, List.append_assoc, List.self_eq_append_right,
        List.append_eq_nil_iff] at delivered
      rw [approved', delivered', approved.1, delivered.1, List.append_nil, List.append_nil]
      exact ih

/-- As many approvals as there are gates are the approvals of just these, one each. -/
theorem feed_approved (casim : r.variant = .casimV2) (free : r.pendingSync = none) {n : Nat}
    (enough : (gated (decode r.bytes)).length ≤ (feed p r n).sink.approved.length) :
    (feed p r n).sink.approved = gated (decode r.bytes) := by
  obtain ⟨-, -, -, passed, whole, log, -⟩ := fed_feed casim free p n
  have upto : (feed p r n).sink.approved <+: gated (decode r.bytes) := by
    rw [whole, gated_append, ← log]
    exact List.prefix_append _ _
  exact upto.eq_of_length (Nat.le_antisymm upto.length_le enough)

/-- What has been read, and which of it is approved. -/
theorem feed_blocked (casim : r.variant = .casimV2) (free : r.pendingSync = none) (p : Nat → Bool)
    (n : Nat) : ∃ read, decode r.bytes = read ++
        (if (feed p r n).fault = none then decode (feed p r n).reader.bytes else []) ∧
      gated read = (feed p r n).sink.approved ++
        ((feed p r n).reader.pendingSync.map SyncRecord.toSync).toList ∧
      ((feed p r n).reader.blocked = true ↔ gated read ≠ (feed p r n).sink.approved) := by
  obtain ⟨-, gate, thrown, passed, whole, log, -⟩ := fed_feed casim free p n
  have blocked (held : List Sync.SyncRecord)
      (eq : held = ((feed p r n).reader.pendingSync.map SyncRecord.toSync).toList) :
      (feed p r n).reader.blocked = true ↔
        (feed p r n).sink.approved ++ held ≠ (feed p r n).sink.approved := by
    subst eq
    cases held : (feed p r n).reader.pendingSync <;> simp [Reader.blocked, held]
  by_cases running : (feed p r n).fault = none
  · have left : (feed p r n).unread = ((feed p r n).reader.pendingSync.map
        (TraceRecord.sync ∘ SyncRecord.toSync)).toList ++ decode (feed p r n).reader.bytes :=
      if_pos running
    have log' : gated (passed ++ ((feed p r n).reader.pendingSync.map
        (TraceRecord.sync ∘ SyncRecord.toSync)).toList) = (feed p r n).sink.approved ++
          ((feed p r n).reader.pendingSync.map SyncRecord.toSync).toList := by
      rw [gated_append, ← log]
      congr 1
      cases held : (feed p r n).reader.pendingSync with
      | none => rfl
      | some s => simp [gated, gate s held]
    refine ⟨_, ?_, log', ?_⟩
    · rw [if_pos running, whole, left, List.append_assoc]
    · rw [log']
      exact blocked _ rfl
  · have none := thrown running
    have left : (feed p r n).unread = [] := if_neg running
    refine ⟨passed, ?_, ?_, ?_⟩
    · rw [if_neg running, whole, left]
    · rw [← log, none]
      simp
    · rw [← log]
      simpa [none] using blocked [] (by simp [none])

theorem opened_fresh {bytes : List Byte} {tid : Nat}
    (opened : (Reader.stream bytes .casimV2 >>= fun r => r.setSyncSink tid) = .ok r) :
    r.variant = .casimV2 ∧ r.pendingSync = none := by
  simp only [Reader.stream, Reader.setSyncSink] at opened
  split at opened
  · cases opened
  · cases opened
  · cases opened
    exact ⟨rfl, rfl⟩

/-- However a sink stalls the reader of a stream, if in the end it approves as many records as have
    a gate, the reader gives out the same: the instructions and the sync pseudo-records in the
    order of the file. Each gated record is approved once, and a reader is blocked just when it
    has read a gated record that is not approved. -/
theorem stalls_invisible {bytes : List Byte} {tid : Nat} {r : Reader}
    (opened : (Reader.stream bytes .casimV2 >>= fun r => r.setSyncSink tid) = .ok r)
    (p q : Nat → Bool)
    (all_p : ∃ n, (gated (decode r.bytes)).length ≤ (feed p r n).sink.approved.length)
    (all_q : ∃ n, (gated (decode r.bytes)).length ≤ (feed q r n).sink.approved.length) :
    (∃ N, ∀ n ≥ N, ∀ m ≥ N, (feed p r n).delivered = (feed q r m).delivered ∧
      (feed p r n).delivered = deliverables (decode r.bytes) ∧
      (feed p r n).sink.approved = gated (decode r.bytes) ∧
      (feed q r m).sink.approved = gated (decode r.bytes)) ∧
      ∀ n, ∃ read, decode r.bytes = read ++
          (if (feed p r n).fault = none then decode (feed p r n).reader.bytes else []) ∧
        gated read = (feed p r n).sink.approved ++
          ((feed p r n).reader.pendingSync.map SyncRecord.toSync).toList ∧
        ((feed p r n).reader.blocked = true ↔ gated read ≠ (feed p r n).sink.approved) := by
  obtain ⟨casim, free⟩ := opened_fresh opened
  have ends (p : Nat → Bool)
      (all : ∃ n, (gated (decode r.bytes)).length ≤ (feed p r n).sink.approved.length) :
      ∃ N, ∀ n ≥ N, (feed p r n).sink.approved = gated (decode r.bytes) ∧
        (feed p r n).delivered = deliverables (decode r.bytes) := by
    obtain ⟨n, enough⟩ := all
    have approved := feed_approved casim free enough
    obtain ⟨m, approved, whole⟩ := feed_delivers casim free n approved
    exact ⟨m, fun _ later => feed_stays casim free approved whole later⟩
  obtain ⟨N, done⟩ := ends p all_p
  obtain ⟨M, done'⟩ := ends q all_q
  refine ⟨⟨max N M, fun n hn m hm => ?_⟩, feed_blocked casim free p⟩
  have at_n := done n (by omega)
  have at_m := done' m (by omega)
  exact ⟨at_n.2.trans at_m.2.symm, at_n.2, at_n.1, at_m.1⟩

private def lockAtomic : SyncRecord := { kind := .atomicRMW, ip := 8 }

private def lockRelease : SyncRecord := { kind := .lockRelease, ip := 12 }

/-- What follows the acquire: an instruction, and two sync records that surface. -/
private def lockRest : List AnyRecord := [.instr { ip := 4 }, .sync lockAtomic, .sync lockRelease]

/-- The reader of a stream with two gates, a lock acquire and an atomic. -/
private def lockReader : Reader :=
  { variant := .casimV2, bytes := (.sync {} :: lockRest).flatMap AnyRecord.bytes }

private theorem lock_valid : ∀ a ∈ .sync {} :: lockRest, a.Valid := by
  simp [lockRest, lockAtomic, lockRelease, AnyRecord.Valid]

private theorem lock_gated : (gated (decode lockReader.bytes)).length = 2 := by
  rw [lockReader, decode_bytes lock_valid]
  rfl

private theorem lock_opened :
    (Reader.stream (writeCasimv2Header {} ++ lockReader.bytes) .casimV2 >>=
      fun r => r.setSyncSink 0) = .ok lockReader := by
  simp only [Reader.stream, read_header (h := {}) rfl]
  rfl

section

variable (r : Reader) (sink : Polls)

private theorem lock_scan_acquire : r.scan (K := patternSink p) sink lockReader.bytes =
    if p sink.count then
      r.scan (K := patternSink p) ⟨sink.count + 1, sink.approved ++ [SyncRecord.toSync {}]⟩
        (lockRest.flatMap AnyRecord.bytes)
    else (.ok none, { r with bytes := lockRest.flatMap AnyRecord.bytes, pendingSync := some {} },
      ⟨sink.count + 1, sink.approved⟩) := by
  rw [lockReader, List.flatMap_cons, Reader.scan_sync (readNext_record (lock_valid _ List.mem_cons_self) _)]
  cases answer : p sink.count <;> simp only [needsGate, surfacesAsPseudo, if_true, answer] <;> rfl

private theorem lock_scan_instr : r.scan (K := patternSink p) sink (lockRest.flatMap AnyRecord.bytes) =
    (.ok (some (Record.toOoo { ip := 4 })),
      { r with bytes := [.sync lockAtomic, .sync lockRelease].flatMap AnyRecord.bytes
               recordsRead := r.recordsRead + 1 }, sink) :=
  Reader.scan_instr (readNext_record (a := .instr { ip := 4 }) trivial _)

private theorem lock_scan_atomic :
    r.scan (K := patternSink p) sink ([.sync lockAtomic, .sync lockRelease].flatMap AnyRecord.bytes) =
      if p sink.count then
        (.ok (some (pseudoRecord lockAtomic.toSync)),
          { r with bytes := [.sync lockRelease].flatMap AnyRecord.bytes
                   recordsRead := r.recordsRead + 1 },
          ⟨sink.count + 1, sink.approved ++ [lockAtomic.toSync]⟩)
      else (.ok none, { r with bytes := [.sync lockRelease].flatMap AnyRecord.bytes
                               pendingSync := some lockAtomic }, ⟨sink.count + 1, sink.approved⟩) := by
  refine (Reader.scan_sync (readNext_record (lock_valid _ (by simp [lockRest])) _)).trans ?_
  cases answer : p sink.count <;> simp [needsGate, surfacesAsPseudo, lockAtomic, answer]

end

/-- Both gates are refused once. -/
private theorem lock_refused : (feed (fun n => n % 2 = 1) lockReader 4).sink.approved.length = 2 := by
  have opening (sink : Polls) : lockReader.next (K := patternSink fun n => n % 2 = 1) sink =
      lockReader.scan sink lockReader.bytes := rfl
  have casim : lockReader.variant = .casimV2 := rfl
  simp only [feed, Feed.call, opening, lock_scan_acquire]
  simp [Reader.next, casim, surfacesAsPseudo, lock_scan_instr, lock_scan_atomic, -List.flatMap_cons]
  rfl

private theorem lock_passed : (feed (fun _ => true) lockReader 2).sink.approved.length = 2 := by
  have opening (sink : Polls) : lockReader.next (K := patternSink fun _ => true) sink =
      lockReader.scan sink lockReader.bytes := rfl
  have casim : lockReader.variant = .casimV2 := rfl
  have free : lockReader.pendingSync = none := rfl
  simp only [feed, Feed.call, opening, lock_scan_acquire, lock_scan_instr, if_true]
  simp [Reader.next, casim, free, lock_scan_atomic, -List.flatMap_cons]

theorem stalls_invisible_lock :
    let p : Nat → Bool := fun n => n % 2 = 1
    let q : Nat → Bool := fun _ => true
    (∃ N, ∀ n ≥ N, ∀ m ≥ N, (feed p lockReader n).delivered = (feed q lockReader m).delivered ∧
      (feed p lockReader n).delivered = deliverables (decode lockReader.bytes) ∧
      (feed p lockReader n).sink.approved = gated (decode lockReader.bytes) ∧
      (feed q lockReader m).sink.approved = gated (decode lockReader.bytes)) ∧
      ∀ n, ∃ read, decode lockReader.bytes = read ++
          (if (feed p lockReader n).fault = none then
            decode (feed p lockReader n).reader.bytes else []) ∧
        gated read = (feed p lockReader n).sink.approved ++
          ((feed p lockReader n).reader.pendingSync.map SyncRecord.toSync).toList ∧
        ((feed p lockReader n).reader.blocked = true ↔
          gated read ≠ (feed p lockReader n).sink.approved) :=
  stalls_invisible lock_opened _ _ ⟨4, by rw [lock_gated, lock_refused]⟩
    ⟨2, by rw [lock_gated, lock_passed]⟩

end Trace
