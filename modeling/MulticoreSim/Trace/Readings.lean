import MulticoreSim.Library.RecordStream
import MulticoreSim.Trace.Stalls

/-! # Reading to the end

Both layouts are streams of records of 64 bytes, and each way of reading one gives
out the records that are whole. They differ in what they make of the rest.
-/

namespace Trace

open ByteStream
open Sync (Sink needsGate surfacesAsPseudo pseudoRecord deliverable)

/-! ## Standard streams -/

/-- What the standard layout keeps of a record. -/
def Record.asStandard (r : Record) : Record := { r with isMul := false }

theorem flag_ne_zero (b : Bool) : decide (flag b ≠ 0) = b := by
  cases b <;> rfl

theorem yields_standardRest (r : Record) : ∃ payload,
    writeStandard r = putU64 r.ip ++ payload ∧ Yields (readStandardRest r.ip) payload r.asStandard := by
  refine ⟨_, rfl, ?_⟩
  refine (Yields.demand reads_u8 _ _).bind <| (Yields.demand reads_u8 _ _).bind <|
    (Yields.demand (reads_many reads_u8 2) _ _).bind <|
    (Yields.demand (reads_many reads_u8 4) _ _).bind <|
    (Yields.demand (reads_many reads_u64 2) _ _).bind <|
    (Yields.demand (reads_many reads_u64 4) _ _).bind ?_
  rw [flag_ne_zero, flag_ne_zero]
  exact Yields.pure _

theorem uses_standardRest (ip : BitVec 64) : Uses (readStandardRest ip) 56 :=
  (Uses.demand uses_u8 _).bind fun _ => (Uses.demand uses_u8 _).bind fun _ =>
    (Uses.demand (uses_many uses_u8 2) _).bind fun _ =>
    (Uses.demand (uses_many uses_u8 4) _).bind fun _ =>
    (Uses.demand (uses_many uses_u64 2) _).bind fun _ =>
    (Uses.demand (uses_many uses_u64 4) _).bind fun _ => Uses.pure _

theorem length_standard (r : Record) : (writeStandard r).length = 64 := by
  simp [writeStandard, length_putMany length_putU8, length_putMany length_putU64]

theorem readStandard_record (r : Record) (rest : List Byte) :
    readStandard (writeStandard r ++ rest) = .ok (some (r.asStandard, rest)) := by
  obtain ⟨payload, eq, yields⟩ := yields_standardRest r
  rw [readStandard, eq, List.append_assoc, reads_u64 r.ip]
  simp only [yields rest]
  rfl

/-! ## `next` without a sink -/

namespace Reader

/-- The loop of `next`, which drops sync and lifecycle records. -/
def scanUnwired (r : Reader) (bytes : List Byte) : Except String (Option Record × Reader) :=
  match _found : readNext bytes with
  | none => .ok (none, { r with bytes := [] })
  | some (.error what, _) => .error what
  | some (.ok (.instr i), rest) =>
      .ok (some i, { r with bytes := rest, recordsRead := r.recordsRead + 1 })
  | some (.ok (.sync _), rest) | some (.ok (.lifecycle _), rest) => scanUnwired r rest
termination_by bytes.length
decreasing_by
  all_goals
    have shorter := readNext_shorter _found
    omega

/-- `Reader::next` where no sink is wired. -/
def nextUnwired (r : Reader) : Except String (Option Record × Reader) :=
  match r.variant with
  | .standard =>
      match readStandard r.bytes with
      | .error what => .error what
      | .ok none => .ok (none, { r with bytes := [] })
      | .ok (some (i, rest)) =>
          .ok (some i, { r with bytes := rest, recordsRead := r.recordsRead + 1 })
  | .casimV2 =>
      match r.pendingSync with
      | some _ => .ok (none, r)
      | none => r.scanUnwired r.bytes

end Reader

section

variable {r : Reader} {bytes rest : List Byte}

theorem scanUnwired_end (ended : readNext bytes = none) :
    r.scanUnwired bytes = .ok (none, { r with bytes := [] }) := by
  rw [Reader.scanUnwired]
  split <;> simp_all

theorem scanUnwired_malformed {what : String} (found : readNext bytes = some (.error what, rest)) :
    r.scanUnwired bytes = .error what := by
  rw [Reader.scanUnwired]
  split <;> simp_all

theorem scanUnwired_instr {i : Record} (found : readNext bytes = some (.ok (.instr i), rest)) :
    r.scanUnwired bytes = .ok (some i, { r with bytes := rest, recordsRead := r.recordsRead + 1 }) := by
  rw [Reader.scanUnwired]
  split <;> simp_all

theorem scanUnwired_other {a : AnyRecord} (found : readNext bytes = some (.ok a, rest))
    (other : ∀ i, a ≠ .instr i) : r.scanUnwired bytes = r.scanUnwired rest := by
  cases a with
  | instr i => exact absurd rfl (other i)
  | sync | lifecycle =>
      rw [Reader.scanUnwired]
      split <;> simp_all

/-- The loop does not look at the bytes that the reader stood before. -/
theorem scanUnwired_bytes (r : Reader) (left bytes : List Byte) :
    Reader.scanUnwired { r with bytes := left } bytes = r.scanUnwired bytes := by
  induction size : bytes.length using Nat.strong_induction_on generalizing bytes with
  | _ size ih =>
      cases found : readNext bytes with
      | none => rw [scanUnwired_end found, scanUnwired_end found]
      | some front =>
          obtain ⟨what | a, rest⟩ := front
          · rw [scanUnwired_malformed found, scanUnwired_malformed found]
          · have shorter := readNext_shorter found
            cases a with
            | instr i => rw [scanUnwired_instr found, scanUnwired_instr found]
            | sync | lifecycle =>
                rw [scanUnwired_other found nofun, scanUnwired_other found nofun]
                exact ih rest.length (by omega) rest rfl

end

/-! ## Three ways to read -/

/-- Less than a record, and not nothing. -/
theorem readNext_partial {bytes : List Byte} (left : bytes ≠ []) (short : bytes.length < 64) :
    ∃ what rest, readNext bytes = some (.error what, rest) := by
  cases bytes with
  | nil => exact absurd rfl left
  | cons tag payload =>
      have tagged : getU8 (tag :: payload) = some (tag, payload) := reads_u8 tag payload
      unfold readNext
      rw [tagged]
      dsimp only
      cases got : (readPayload "v2 reader: unknown record type byte=" tag).run payload with
      | error what => exact ⟨what, _, rfl⟩
      | ok found =>
          have used := uses_payload _ _ _ _ _ got
          rw [List.length_cons] at short
          omega

/-- A CasimV2 reader with nothing held, before some bytes. -/
structure Before (r : Reader) (bytes : List Byte) : Prop where
  casim : r.variant = .casimV2
  free : r.pendingSync = none
  bytes : r.bytes = bytes

theorem nextAny_reads : ReadsRecords Reader.nextAny Before AnyRecord.bytes some 64 (· = 0)
    AnyRecord.Valid where
  size := AnyRecord.length_bytes
  whole r a rest valid before :=
    ⟨{ r with bytes := rest, recordsRead := r.recordsRead + 1 }, ⟨before.casim, before.free, rfl⟩,
      Reader.nextAny_record valid before.casim before.bytes⟩
  part r bytes before short := by
    cases bytes with
    | nil =>
        have ended : r.nextAny = .ok (none, r) := by
          rw [Reader.nextAny, if_neg (not_not.mpr before.casim), before.bytes]
          rfl
        exact ⟨.clean, .ends ended, iff_of_true rfl rfl⟩
    | cons tag payload =>
        have tagged : getU8 (tag :: payload) = some (tag, payload) := reads_u8 tag payload
        cases got : (readPayload "v2 next_any: unknown record type byte=" tag).run payload with
        | error what =>
            refine ⟨.threw what, .throws ?_, iff_of_false (by simp) (by simp)⟩
            rw [Reader.nextAny, if_neg (not_not.mpr before.casim), before.bytes, tagged]
            simp only [got]
        | ok found =>
            have used := uses_payload _ _ _ _ _ got
            rw [List.length_cons] at short
            omega

/-- What `next` without a sink gives out of a record. -/
def AnyRecord.instr? : AnyRecord → Option Record
  | .instr r => some r
  | .sync _ | .lifecycle _ => none

theorem nextUnwired_eq {r : Reader} {bytes : List Byte} (before : Before r bytes) :
    r.nextUnwired = r.scanUnwired bytes := by
  rw [Reader.nextUnwired, before.casim]
  simp only [before.free, before.bytes]

theorem nextUnwired_reads : ReadsRecords Reader.nextUnwired Before AnyRecord.bytes AnyRecord.instr? 64
    (· = 0) AnyRecord.Valid where
  size := AnyRecord.length_bytes
  whole r a rest valid before := by
    have found := readNext_record valid rest
    have called := nextUnwired_eq before
    cases a with
    | instr i =>
        refine ⟨{ r with bytes := rest, recordsRead := r.recordsRead + 1 },
          ⟨before.casim, before.free, rfl⟩, ?_⟩
        exact called.trans (scanUnwired_instr found)
    | sync | lifecycle =>
        have next : Before { r with bytes := rest } rest := ⟨before.casim, before.free, rfl⟩
        refine ⟨{ r with bytes := rest }, next, ?_⟩
        change r.nextUnwired = Reader.nextUnwired { r with bytes := rest }
        rw [called, nextUnwired_eq next, scanUnwired_other found nofun]
        exact (scanUnwired_bytes r rest rest).symm
  part r bytes before short := by
    have called := nextUnwired_eq before
    by_cases empty : bytes = []
    · subst empty
      exact ⟨.clean, .ends (called.trans (scanUnwired_end rfl)), iff_of_true rfl rfl⟩
    · obtain ⟨what, rest, found⟩ := readNext_partial empty short
      refine ⟨.threw what, .throws (called.trans (scanUnwired_malformed found)), iff_of_false nofun ?_⟩
      simpa using empty

/-- A standard reader before some bytes. -/
structure BeforeStandard (r : Reader) (bytes : List Byte) : Prop where
  standard : r.variant = .standard
  bytes : r.bytes = bytes

/-- Fewer than the eight bytes of an address pass for the end of the stream. -/
theorem nextStandard_reads : ReadsRecords Reader.nextUnwired BeforeStandard writeStandard
    (fun r => some r.asStandard) 64 (· < 8) (fun _ => True) where
  size := length_standard
  whole r i rest _ before := by
    refine ⟨{ r with bytes := rest, recordsRead := r.recordsRead + 1 }, ⟨before.standard, rfl⟩, ?_⟩
    rw [Reader.nextUnwired, before.standard, before.bytes]
    simp only [readStandard_record]
  part r bytes before short := by
    cases address : getU64 bytes with
    | none =>
        have read : readStandard bytes = .ok none := by rw [readStandard, address]
        have ended : r.nextUnwired = .ok (none, { r with bytes := [] }) := by
          rw [Reader.nextUnwired, before.standard, before.bytes]
          simp only [read]
        exact ⟨.clean, .ends ended, iff_of_true rfl (getWord_none address)⟩
    | some found =>
        obtain ⟨ip, rest⟩ := found
        have used := uses_u64 _ _ _ address
        cases got : (readStandardRest ip).run rest with
        | error what =>
            have read : readStandard bytes = .error what := by
              simp only [readStandard, address, got]
              rfl
            refine ⟨.threw what, .throws ?_, iff_of_false nofun (by omega)⟩
            rw [Reader.nextUnwired, before.standard, before.bytes]
            simp only [read]
        | ok found =>
            have used' := uses_standardRest _ _ _ _ got
            omega

/-! ## With a sink that lets everything through -/

/-- No gate stays shut, and nothing throws. -/
structure Willing (K : Sink) : Prop where
  opens : ∀ sink tid s, ∃ sink', K.tryConsumeSync sink tid s = .ok (true, sink')
  listens : ∀ sink tid, ∃ sink', K.onLifecycle sink tid = .ok sink'

/-- `Reader::next` where a sink is wired, which the call may change. -/
def Reader.nextWired (K : Sink) (v : Reader × K.State) :
    Except String (Option Ooo.Record × Reader × K.State) :=
  match v.1.next v.2 with
  | (.error what, _, _) => .error what
  | (.ok out, r, sink) => .ok (out, r, sink)

theorem nextWired_eq {K : Sink} {r : Reader} {bytes : List Byte} (before : Before r bytes)
    (sink : K.State) : Reader.nextWired K (r, sink) =
      match r.scan sink bytes with
      | (.error what, _, _) => .error what
      | (.ok out, r, sink) => .ok (out, r, sink) := by
  have same : r.next sink = r.scan sink bytes := by
    rw [Reader.next, before.casim]
    simp only [before.free, before.bytes]
  rw [Reader.nextWired, same]

/-- As `scanUnwired_bytes`. -/
theorem scan_bytes {K : Sink} (r : Reader) (left bytes : List Byte) (sink : K.State) :
    Reader.scan { r with bytes := left } sink bytes = r.scan sink bytes := by
  induction size : bytes.length using Nat.strong_induction_on generalizing bytes sink with
  | _ size ih =>
      cases found : readNext bytes with
      | none => rw [Reader.scan_end found, Reader.scan_end found]
      | some front =>
          obtain ⟨what | a, rest⟩ := front
          · rw [Reader.scan_malformed found, Reader.scan_malformed found]
          · have shorter := readNext_shorter found
            have later (sink : K.State) := ih rest.length (by omega) rest sink rfl
            cases a with
            | instr i => rw [Reader.scan_instr found, Reader.scan_instr found]
            | lifecycle l =>
                rw [Reader.scan_lifecycle found, Reader.scan_lifecycle found]
                dsimp only
                split
                · rfl
                · exact later _
            | sync s =>
                rw [Reader.scan_sync found, Reader.scan_sync found]
                dsimp only
                split
                · rfl
                · rfl
                · split
                  · rfl
                  · exact later _

theorem nextWired_reads {K : Sink} (willing : Willing K) : ReadsRecords (Reader.nextWired K)
    (fun v bytes => Before v.1 bytes) AnyRecord.bytes (fun a => deliverable a.toTrace) 64
    (· = 0) AnyRecord.Valid where
  size := AnyRecord.length_bytes
  whole v a rest valid before := by
    obtain ⟨r, sink⟩ := v
    have found := readNext_record valid rest
    have called := nextWired_eq before sink
    have next : Before { r with bytes := rest } rest := ⟨before.casim, before.free, rfl⟩
    have past : ∀ mid, r.scan sink (a.bytes ++ rest) = r.scan mid rest →
        Reader.nextWired K (r, sink) = Reader.nextWired K ({ r with bytes := rest }, mid) := by
      intro mid same
      have same' : Reader.scan { r with bytes := rest } mid rest = r.scan mid rest :=
        scan_bytes r rest rest mid
      rw [called, nextWired_eq next, same', ← same]
    cases a with
    | instr i =>
        refine ⟨({ r with bytes := rest, recordsRead := r.recordsRead + 1 }, sink),
          ⟨before.casim, before.free, rfl⟩, ?_⟩
        rw [called, Reader.scan_instr found]
        rfl
    | lifecycle l =>
        obtain ⟨mid, told⟩ := willing.listens sink r.syncTid
        refine ⟨({ r with bytes := rest }, mid), next, past mid ?_⟩
        rw [Reader.scan_lifecycle found, told]
    | sync s =>
        obtain ⟨mid, opened⟩ : ∃ mid, (if needsGate s.kind then K.tryConsumeSync sink r.syncTid s.toSync
            else .ok (true, sink)) = .ok (true, mid) := by
          split
          · exact willing.opens sink r.syncTid s.toSync
          · exact ⟨sink, rfl⟩
        have scanned : r.scan sink _ = _ := Reader.scan_sync found
        rw [opened] at scanned
        dsimp only at scanned
        cases surfaces : surfacesAsPseudo s.kind with
        | true =>
            rw [if_pos surfaces] at scanned
            refine ⟨({ r with bytes := rest, recordsRead := r.recordsRead + 1 }, mid),
              ⟨before.casim, before.free, rfl⟩, ?_⟩
            simp only [AnyRecord.toTrace, deliverable, SyncRecord.toSync_kind, surfaces, if_true]
            rw [called, scanned]
        | false =>
            rw [if_neg (by simp [surfaces])] at scanned
            refine ⟨({ r with bytes := rest }, mid), next, ?_⟩
            simp only [AnyRecord.toTrace, deliverable, SyncRecord.toSync_kind, surfaces,
              Bool.false_eq_true, if_false]
            exact past mid scanned
  part v bytes before short := by
    obtain ⟨r, sink⟩ := v
    have called := nextWired_eq before sink
    by_cases empty : bytes = []
    · subst empty
      have ended : Reader.nextWired K (r, sink) = .ok (none, { r with bytes := [] }, sink) := by
        rw [called, Reader.scan_end rfl]
      exact ⟨.clean, .ends ended, iff_of_true rfl rfl⟩
    · obtain ⟨what, rest, found⟩ := readNext_partial empty short
      have thrown : Reader.nextWired K (r, sink) = .error what := by
        rw [called, Reader.scan_malformed found]
      refine ⟨.threw what, .throws thrown, iff_of_false (by simp) ?_⟩
      simpa using empty

end Trace
