import MulticoreSim.Trace.Format

/-! # Writing and reading a trace

What a writer puts in a CasimV2 stream, `next_any` reads back, and then it is at
the end of the stream.
-/

namespace Trace

open ByteStream

/-! ## Writer -/

structure Writer where
  variant : Variant
  out : List Byte := []
  recordsWritten : Nat := 0
  headerWritten : Bool := false

namespace Writer

def writeHeader (w : Writer) (h : FileHeader) : Except String Writer :=
  if w.variant ≠ .casimV2 then .error "write_header() requires CasimV2 writer"
  else if w.headerWritten then .error "write_header() called twice"
  else .ok { w with out := w.out ++ writeCasimv2Header h, headerWritten := true }

def append (w : Writer) (bytes : List Byte) : Writer :=
  { w with out := w.out ++ bytes, recordsWritten := w.recordsWritten + 1 }

def writeRecord (w : Writer) (r : Record) : Except String Writer :=
  match w.variant with
  | .standard => .ok (w.append (writeStandard r))
  | .casimV2 =>
      if w.headerWritten then .ok (w.append (writeCasimv2InstrPacked r))
      else .error "write_header() must precede write() on CasimV2"

/-- A record that only CasimV2 has. -/
def writeTagged (w : Writer) (what : String) (bytes : List Byte) : Except String Writer :=
  if w.variant ≠ .casimV2 then .error (what ++ " write requires CasimV2 writer")
  else if w.headerWritten then .ok (w.append bytes)
  else .error "write_header() must precede write() on CasimV2"

def writeSync (w : Writer) (s : SyncRecord) : Except String Writer :=
  w.writeTagged "SyncRecord" (writeCasimv2Sync s)

def writeLifecycle (w : Writer) (l : LifecycleRecord) : Except String Writer :=
  w.writeTagged "LifecycleRecord" (writeCasimv2Lifecycle l)

/-- `write`, by the kind of the record. -/
def write (w : Writer) : AnyRecord → Except String Writer
  | .instr r => w.writeRecord r
  | .sync s => w.writeSync s
  | .lifecycle l => w.writeLifecycle l

def writeAll (w : Writer) (records : List AnyRecord) : Except String Writer :=
  records.foldlM write w

end Writer

/-! ## Reader -/

structure Reader where
  variant : Variant
  bytes : List Byte
  recordsRead : Nat := 0
  header : FileHeader := {}
  syncTid : Nat := 0
  /-- Read off the stream and not approved yet. -/
  pendingSync : Option SyncRecord := none

/-- The payload that goes with a type tag. -/
def readPayload (unknown : String) (tag : Byte) : Read AnyRecord :=
  if tag = 0 then .instr <$> readCasimv2InstrPayload
  else if tag = 1 then .sync <$> readCasimv2SyncPayload
  else if tag = 2 then .lifecycle <$> readCasimv2LifecyclePayload
  else throw (unknown ++ toString tag.toNat)

namespace Reader

/-- The constructor. -/
def stream (bytes : List Byte) : Variant → Except String Reader
  | .standard => .ok { variant := .standard, bytes }
  | .casimV2 =>
      match readCasimv2Header bytes with
      | .error what => .error what
      | .ok none => .error "expected CasimV2 header but magic missing on stream"
      | .ok (some (header, bytes)) => .ok { variant := .casimV2, bytes, header }

/-- `next_any`, with `none` at the end of the stream. -/
def nextAny (r : Reader) : Except String (Option AnyRecord × Reader) :=
  if r.variant ≠ .casimV2 then .error "next_any() requires CasimV2 reader"
  else
    match getU8 r.bytes with
    | none => .ok (none, r)
    | some (tag, bytes) =>
        match (readPayload "v2 next_any: unknown record type byte=" tag).run bytes with
        | .error what => .error what
        | .ok (a, bytes) => .ok (some a, { r with bytes, recordsRead := r.recordsRead + 1 })

/-- What `calls` calls of `next_any` return. -/
def nextAnys (r : Reader) : Nat → Except String (List (Option AnyRecord) × Reader)
  | 0 => .ok ([], r)
  | calls + 1 => do
      let (a, r) ← r.nextAny
      let (rest, r) ← r.nextAnys calls
      return (a :: rest, r)

end Reader

/-! ## Round trip -/

/-- The bytes of a record. -/
def AnyRecord.bytes : AnyRecord → List Byte
  | .instr r => writeCasimv2InstrPacked r
  | .sync s => writeCasimv2Sync s
  | .lifecycle l => writeCasimv2Lifecycle l

theorem AnyRecord.length_bytes (a : AnyRecord) : a.bytes.length = 64 := by
  cases a with
  | instr r => exact length_instr r
  | sync s => exact length_sync s
  | lifecycle l => exact length_lifecycle l

/-- A record is a tag and the payload that goes with it. -/
theorem AnyRecord.yields (a : AnyRecord) (valid : a.Valid) (unknown : String) :
    ∃ tag payload, a.bytes = putU8 tag ++ payload ∧ Yields (readPayload unknown tag) payload a := by
  cases a with
  | instr r =>
      obtain ⟨payload, eq, yields⟩ := yields_instr r
      exact ⟨0, payload, eq, yields.map AnyRecord.instr⟩
  | sync s =>
      obtain ⟨payload, eq, yields⟩ := yields_sync s valid
      exact ⟨1, payload, eq, yields.map AnyRecord.sync⟩
  | lifecycle l =>
      obtain ⟨payload, eq, yields⟩ := yields_lifecycle l valid
      exact ⟨2, payload, eq, yields.map AnyRecord.lifecycle⟩

theorem Writer.writeAll_out {w : Writer} (casim : w.variant = .casimV2)
    (begun : w.headerWritten = true) (records : List AnyRecord) :
    ∃ w', w.writeAll records = .ok w' ∧ w'.out = w.out ++ records.flatMap AnyRecord.bytes ∧
      w'.recordsWritten = w.recordsWritten + records.length := by
  induction records generalizing w with
  | nil => exact ⟨w, rfl, by simp, rfl⟩
  | cons a rest ih =>
      have one : w.write a = .ok (w.append a.bytes) := by
        cases a <;> simp [write, writeRecord, writeSync, writeLifecycle, writeTagged, casim, begun,
          AnyRecord.bytes]
      obtain ⟨w', wrote, out, count⟩ := ih (w := w.append a.bytes) casim begun
      refine ⟨w', ?_, ?_, ?_⟩
      · rw [writeAll, List.foldlM_cons, one]
        exact wrote
      · rw [out, append, List.append_assoc, List.flatMap_cons]
      · rw [count, List.length_cons]
        exact Nat.add_right_comm ..

theorem Reader.nextAny_record {r : Reader} {a : AnyRecord} {rest : List Byte} (valid : a.Valid)
    (casim : r.variant = .casimV2) (front : r.bytes = a.bytes ++ rest) :
    r.nextAny = .ok (some a, { r with bytes := rest, recordsRead := r.recordsRead + 1 }) := by
  obtain ⟨tag, payload, eq, yields⟩ :=
    a.yields valid "v2 next_any: unknown record type byte="
  rw [nextAny, if_neg (not_not.mpr casim), front, eq, List.append_assoc, reads_u8 tag]
  simp only [yields rest]

theorem Reader.nextAnys_end {r : Reader} (casim : r.variant = .casimV2) (finished : r.bytes = [])
    (calls : Nat) : r.nextAnys calls = .ok (List.replicate calls none, r) := by
  have last : r.nextAny = .ok (none, r) := by
    rw [nextAny, if_neg (not_not.mpr casim), finished]
    rfl
  induction calls with
  | zero => rfl
  | succ calls ih =>
      rw [nextAnys, last]
      simp only [bind, Except.bind, ih]
      rfl

theorem Reader.nextAnys_records {r : Reader} {records : List AnyRecord}
    (valid : ∀ a ∈ records, a.Valid) (casim : r.variant = .casimV2)
    (whole : r.bytes = records.flatMap AnyRecord.bytes) (more : Nat) :
    ∃ r', r.nextAnys (records.length + more) =
      .ok (records.map some ++ List.replicate more none, r') := by
  induction records generalizing r with
  | nil =>
      refine ⟨r, ?_⟩
      rw [List.length_nil, Nat.zero_add]
      exact nextAnys_end casim whole more
  | cons a rest ih =>
      have first := nextAny_record (valid a List.mem_cons_self) casim
        (whole.trans List.flatMap_cons)
      obtain ⟨r', others⟩ := ih
        (r := { r with bytes := rest.flatMap AnyRecord.bytes, recordsRead := r.recordsRead + 1 })
        (fun a mem => valid a (List.mem_cons_of_mem _ mem)) casim rfl
      refine ⟨r', ?_⟩
      have count : (a :: rest).length + more = (rest.length + more) + 1 := by
        rw [List.length_cons]
        omega
      rw [count, nextAnys, first]
      simp only [bind, Except.bind, others]
      rfl

/-- What a writer puts in a stream is `32 + 64 n` bytes, and a reader of these bytes has the same
    header, returns the same records, and from then on the end of the stream. -/
theorem stream_round_trip (h : FileHeader) (size : h.headerSize = 32) (records : List AnyRecord)
    (valid : ∀ a ∈ records, a.Valid) :
    ∃ begun w r, Writer.writeHeader { variant := .casimV2 } h = .ok begun ∧
      begun.writeAll records = .ok w ∧ w.out.length = 32 + 64 * records.length ∧
      Reader.stream w.out .casimV2 = .ok r ∧ r.header = h ∧
      ∀ more, ∃ r', r.nextAnys (records.length + more) =
        .ok (records.map some ++ List.replicate more none, r') := by
  obtain ⟨w, wrote, out, -⟩ := Writer.writeAll_out
    (w := { variant := .casimV2, out := writeCasimv2Header h, headerWritten := true }) rfl rfl records
  refine ⟨_, w, ⟨.casimV2, records.flatMap AnyRecord.bytes, 0, h, 0, none⟩, rfl, wrote, ?_, ?_, rfl,
    fun more => Reader.nextAnys_records valid rfl rfl more⟩
  · have each : ∀ a ∈ records, a.bytes.length = 64 := fun a _ => a.length_bytes
    rw [out, List.length_append, length_header, List.length_flatMap, List.map_congr_left each,
      List.map_const', List.sum_replicate_nat, Nat.mul_comm]
  · simp only [Reader.stream, out, read_header size]

theorem stream_round_trip_two :
    let records : List AnyRecord :=
      [.instr { ip := 4096, isMul := true }, .sync { kind := .lockRelease, sequenceNo := 8 }]
    ∃ begun w r, Writer.writeHeader { variant := .casimV2 } { threadId := 2 } = .ok begun ∧
      begun.writeAll records = .ok w ∧ w.out.length = 32 + 64 * records.length ∧
      Reader.stream w.out .casimV2 = .ok r ∧ r.header = { threadId := 2 } ∧
      ∀ more, ∃ r', r.nextAnys (records.length + more) =
        .ok (records.map some ++ List.replicate more none, r') :=
  stream_round_trip { threadId := 2 } rfl _ (by simp [AnyRecord.Valid])

end Trace
