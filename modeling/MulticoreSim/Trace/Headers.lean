import MulticoreSim.Trace.Readings

/-! # Headers and variants

A writer's header is 32 bytes long whatever length it states, and a reader believes
what it states. A reader that is not told the variant takes a file for CasimV2 by
its first eight bytes alone.
-/

namespace Trace

open ByteStream

/-! ## What a writer writes -/

theorem Writer.writeAll_standard {w : Writer} (standard : w.variant = .standard) (records : List Record) :
    ∃ w', w.writeAll (records.map .instr) = .ok w' ∧
      w'.out = w.out ++ records.flatMap writeStandard := by
  induction records generalizing w with
  | nil => exact ⟨w, rfl, by simp⟩
  | cons r rest ih =>
      have one : w.write (.instr r) = .ok (w.append (writeStandard r)) := by
        simp [write, writeRecord, standard]
      obtain ⟨w', wrote, out⟩ := ih (w := w.append (writeStandard r)) standard
      refine ⟨w', ?_, ?_⟩
      · rw [List.map_cons, writeAll, List.foldlM_cons, one]
        exact wrote
      · rw [out, append, List.append_assoc, List.flatMap_cons]

/-- The bytes of a standard file. -/
theorem Writer.standard_out {records : List Record} {w : Writer}
    (wrote : Writer.writeAll { variant := .standard } (records.map .instr) = .ok w) :
    w.out = records.flatMap writeStandard := by
  obtain ⟨w', wrote', out⟩ := Writer.writeAll_standard (w := { variant := .standard }) rfl records
  cases wrote.symm.trans wrote'
  exact out

/-- The bytes of a CasimV2 file. -/
theorem Writer.casim_out {h : FileHeader} {records : List AnyRecord} {begun w : Writer}
    (began : Writer.writeHeader { variant := .casimV2 } h = .ok begun)
    (wrote : begun.writeAll records = .ok w) :
    w.out = writeCasimv2Header h ++ records.flatMap AnyRecord.bytes := by
  have started : begun = { variant := .casimV2, out := writeCasimv2Header h, headerWritten := true } := by
    cases began
    rfl
  subst started
  obtain ⟨w', wrote', out, -⟩ := Writer.writeAll_out
    (w := { variant := .casimV2, out := writeCasimv2Header h, headerWritten := true }) rfl rfl records
  cases wrote.symm.trans wrote'
  exact out

theorem length_records (records : List AnyRecord) :
    (records.flatMap AnyRecord.bytes).length = 64 * records.length :=
  nextAny_reads.length records

/-! ## The length of the header -/

/-- What is read as a header is as long as it states, and at least 32 bytes. -/
theorem headerRest_uses {bytes rest : List Byte} {h : FileHeader}
    (ran : readCasimv2HeaderRest.run bytes = .ok (h, rest)) :
    32 ≤ h.headerSize.toNat ∧ bytes.length + 8 = h.headerSize.toNat + rest.length := by
  obtain ⟨version, bytes₁, got₁, ran⟩ := run_bind_ok ran
  obtain ⟨size, bytes₂, got₂, ran⟩ := run_bind_ok ran
  obtain ⟨thread, bytes₃, got₃, ran⟩ := run_bind_ok ran
  obtain ⟨count, bytes₄, got₄, ran⟩ := run_bind_ok ran
  obtain ⟨uid, bytes₅, got₅, ran⟩ := run_bind_ok ran
  have used₁ := Uses.demand (uses_word 2) _ _ _ _ got₁
  have used₂ := Uses.demand (uses_word 2) _ _ _ _ got₂
  have used₃ := Uses.demand uses_u32 _ _ _ _ got₃
  have used₄ := Uses.demand uses_u32 _ _ _ _ got₄
  have used₅ := Uses.demand uses_u64 _ _ _ _ got₅
  by_cases short : size.toNat < 32
  · rw [if_pos short] at ran
    cases ran
  · rw [if_neg short] at ran
    obtain ⟨_, bytes₆, got₆, ran⟩ := run_bind_ok ran
    have used₆ := Uses.demand (uses_skip _) _ _ _ _ got₆
    cases ran
    dsimp only
    omega

theorem header_uses {bytes rest : List Byte} {h : FileHeader}
    (ran : readCasimv2Header bytes = .ok (some (h, rest))) :
    32 ≤ h.headerSize.toNat ∧ bytes.length = h.headerSize.toNat + rest.length := by
  unfold readCasimv2Header at ran
  split at ran
  · next magic =>
      have eight := congrArg List.length magic
      rw [List.length_take, show casimV2Magic.length = 8 from rfl] at eight
      cases got : readCasimv2HeaderRest.run (bytes.drop 8) with
      | error what =>
          rw [got] at ran
          cases ran
      | ok found =>
          rw [got] at ran
          cases ran
          have used := headerRest_uses got
          rw [List.length_drop] at used
          omega
  · cases ran

theorem nextAny_uses {r r' : Reader} {a : AnyRecord} (ran : r.nextAny = .ok (some a, r')) :
    64 + r'.bytes.length ≤ r.bytes.length := by
  unfold Reader.nextAny at ran
  split at ran
  · cases ran
  · split at ran
    · cases ran
    · next tagged =>
        split at ran
        · cases ran
        · next got =>
            cases ran
            have used := uses_u8 _ _ _ tagged
            have used' := uses_payload _ _ _ _ _ got
            dsimp only
            omega

/-- A stream of whole records behind the header, read to the end. -/
def Returns (bytes : List Byte) (h : FileHeader) (records : List AnyRecord) : Prop :=
  ∃ r, Reader.stream bytes .casimV2 = .ok r ∧ r.header = h ∧ ReadsTo Reader.nextAny r records .clean

/-- A header that states another length than it has takes bytes of the records along, or
    is not accepted. -/
theorem Returns.size {h : FileHeader} {records : List AnyRecord}
    (returns : Returns (writeCasimv2Header h ++ records.flatMap AnyRecord.bytes) h records) :
    h.headerSize = 32 := by
  obtain ⟨r, streamed, header, reads⟩ := returns
  simp only [Reader.stream] at streamed
  split at streamed
  · cases streamed
  · cases streamed
  · next found =>
      cases streamed
      subst header
      have used := header_uses found
      have left := reads.bounded (fun r => r.bytes.length) fun _ _ _ => nextAny_uses
      rw [List.length_append, length_header, length_records] at used
      dsimp only at left used
      apply BitVec.eq_of_toNat_eq
      have thirtyTwo : (32 : BitVec 16).toNat = 32 := rfl
      dsimp only
      omega

theorem returns_of_size {h : FileHeader} (size : h.headerSize = 32) {records : List AnyRecord}
    (valid : ∀ a ∈ records, a.Valid) :
    Returns (writeCasimv2Header h ++ records.flatMap AnyRecord.bytes) h records := by
  refine ⟨{ variant := .casimV2, bytes := records.flatMap AnyRecord.bytes, header := h }, ?_, rfl, ?_⟩
  · simp only [Reader.stream, read_header size]
  · have reads := nextAny_reads.all (by decide) rfl valid
      (s := { variant := .casimV2, bytes := records.flatMap AnyRecord.bytes, header := h }) ⟨rfl, rfl, rfl⟩
    rwa [List.filterMap_some] at reads

/-- What a writer wrote under a header comes back under it if and only if the header
    states the 32 bytes that it is written with. -/
theorem header_round_trip (h : FileHeader) (records : List AnyRecord) (valid : ∀ a ∈ records, a.Valid) :
    ∃ begun w, Writer.writeHeader { variant := .casimV2 } h = .ok begun ∧
      begun.writeAll records = .ok w ∧
      ((∃ r, Reader.stream w.out .casimV2 = .ok r ∧ r.header = h ∧
        ReadsTo Reader.nextAny r records .clean) ↔ h.headerSize = 32) := by
  obtain ⟨w, wrote, out, -⟩ := Writer.writeAll_out
    (w := { variant := .casimV2, out := writeCasimv2Header h, headerWritten := true }) rfl rfl records
  refine ⟨_, w, rfl, wrote, ?_⟩
  rw [out]
  exact ⟨Returns.size, fun size => returns_of_size size valid⟩

/-- A header with an extension of 32 bytes that the writer leaves out: of two records
    the reader finds one, in the middle. -/
theorem header_round_trip_longer :
    ∃ begun w, Writer.writeHeader { variant := .casimV2 } { headerSize := 64 } = .ok begun ∧
      begun.writeAll [.instr { ip := 4096 }, .instr { ip := 4100 }] = .ok w ∧
      ¬∃ r, Reader.stream w.out .casimV2 = .ok r ∧ r.header = { headerSize := 64 } ∧
        ReadsTo Reader.nextAny r [.instr { ip := 4096 }, .instr { ip := 4100 }] .clean := by
  let h : FileHeader := { headerSize := 64 }
  obtain ⟨w, wrote, out, -⟩ := Writer.writeAll_out
    (w := { variant := .casimV2, out := writeCasimv2Header h, headerWritten := true }) rfl rfl
    [.instr { ip := 4096 }, .instr { ip := 4100 }]
  refine ⟨_, w, rfl, wrote, fun returns => ?_⟩
  rw [out] at returns
  have size : h.headerSize = 32 := Returns.size returns
  exact absurd size (by decide)

theorem header_round_trip_two :
    let h : FileHeader := { threadId := 2, threadCount := 4 }
    let records : List AnyRecord := [.instr { ip := 4096, isMul := true }, .sync { kind := .lockRelease }]
    ∃ begun w, Writer.writeHeader { variant := .casimV2 } h = .ok begun ∧
      begun.writeAll records = .ok w ∧
      ((∃ r, Reader.stream w.out .casimV2 = .ok r ∧ r.header = h ∧
        ReadsTo Reader.nextAny r records .clean) ↔ h.headerSize = 32) :=
  header_round_trip { threadId := 2, threadCount := 4 } _ (by simp [AnyRecord.Valid])

/-! ## The variant -/

/-- `Reader::open_auto`: peek at the magic, and go back to the start. -/
def Reader.openAuto (path : String) (bytes : List Byte) : Except String Reader :=
  if bytes.take 8 = casimV2Magic then
    match readCasimv2Header bytes with
    | .error what => .error what
    | .ok none => .error ("v2 magic present but header parse failed: " ++ path)
    | .ok (some (header, bytes)) => .ok { variant := .casimV2, bytes, header }
  else .ok { variant := .standard, bytes }

/-- The magic as the address of an instruction. -/
def magicIp : BitVec 64 := 0x3252544D49534143

theorem putU64_magicIp : putU64 magicIp = casimV2Magic := by
  simp [putU64, putWord, magicIp, casimV2Magic]

/-- A standard file starts with the magic when its first address is it. -/
theorem take_standard (r : Record) (rest : List Byte) :
    (writeStandard r ++ rest).take 8 = casimV2Magic ↔ r.ip = magicIp := by
  obtain ⟨payload, eq, -⟩ := yields_standardRest r
  rw [eq, List.append_assoc, List.take_left' (length_putU64 r.ip), ← putU64_magicIp]
  constructor
  · intro same
    have first := reads_u64 r.ip []
    have second := reads_u64 magicIp []
    rw [same] at first
    exact congrArg Prod.fst (Option.some.inj (first.symm.trans second))
  · exact congrArg putU64

/-- A CasimV2 file is told by its magic. A standard file is told by the lack of it, which
    its first address decides, and comes back without what its layout does not keep. -/
theorem open_auto_agrees (path : String) :
    (∀ (h : FileHeader) (records : List AnyRecord) (begun w : Writer), h.headerSize = 32 →
      (∀ a ∈ records, a.Valid) → Writer.writeHeader { variant := .casimV2 } h = .ok begun →
      begun.writeAll records = .ok w →
      ∃ r, Reader.openAuto path w.out = .ok r ∧ r.variant = .casimV2 ∧ r.header = h ∧
        ReadsTo Reader.nextAny r records .clean ∧
        ReadsTo Reader.nextUnwired r (records.filterMap AnyRecord.instr?) .clean) ∧
    ∀ (records : List Record) (w : Writer), (∀ r ∈ records.head?, r.ip ≠ magicIp) →
      Writer.writeAll { variant := .standard } (records.map .instr) = .ok w →
      ∃ r, Reader.openAuto path w.out = .ok r ∧ r.variant = .standard ∧
        ReadsTo Reader.nextUnwired r (records.map Record.asStandard) .clean := by
  constructor
  · intro h records begun w size valid began wrote
    have out := Writer.casim_out began wrote
    have magic : (writeCasimv2Header h ++ records.flatMap AnyRecord.bytes).take 8 = casimV2Magic := by
      rw [writeCasimv2Header, List.flatten_cons, List.append_assoc]
      exact List.take_left' rfl
    let r : Reader := { variant := .casimV2, bytes := records.flatMap AnyRecord.bytes, header := h }
    have before : Before r (records.flatMap AnyRecord.bytes) := ⟨rfl, rfl, rfl⟩
    refine ⟨r, ?_, rfl, rfl, ?_, ?_⟩
    · rw [out, Reader.openAuto, if_pos magic, read_header size]
    · have reads := nextAny_reads.all (by decide) rfl valid before
      rwa [List.filterMap_some] at reads
    · exact nextUnwired_reads.all (by decide) rfl valid before
  · intro records w first wrote
    have out := Writer.standard_out wrote
    let r : Reader := { variant := .standard, bytes := records.flatMap writeStandard }
    refine ⟨r, ?_, rfl, ?_⟩
    · rw [out, Reader.openAuto, if_neg]
      cases records with
      | nil =>
          intro h
          cases h
      | cons i rest =>
          rw [List.flatMap_cons, take_standard]
          exact first i rfl
    · have before : BeforeStandard r (records.flatMap writeStandard) := ⟨rfl, rfl⟩
      have reads := nextStandard_reads.all (by decide) (by decide) (fun _ _ => trivial) before
      rwa [List.filterMap_eq_map'] at reads

/-- One instruction at the magic address, with the number 32 where the header's length
    would stand, is taken for a CasimV2 file. -/
theorem open_auto_mistakes : ∃ w r, Writer.writeAll { variant := .standard }
      ([{ ip := magicIp, destinationRegisters := 32 ::ᵥ 0 ::ᵥ .nil }].map .instr) = .ok w ∧
    Reader.openAuto "" w.out = .ok r ∧ r.variant = .casimV2 := by
  let i : Record := { ip := magicIp, destinationRegisters := 32 ::ᵥ 0 ::ᵥ .nil }
  obtain ⟨w, wrote, out⟩ := Writer.writeAll_standard (w := { variant := .standard }) rfl [i]
  have opened : ((Reader.openAuto "" ([i].flatMap writeStandard)).toOption.map (·.variant)) =
      some .casimV2 := by decide +kernel
  have out : w.out = [i].flatMap writeStandard := out
  rw [← out] at opened
  obtain ⟨r, ran, variant⟩ := exists_ok opened
  exact ⟨w, r, wrote, ran, variant⟩

/-- A file under a header, an empty file and one of a single instruction. -/
theorem open_auto_agrees_three :
    (∃ begun w r, Writer.writeHeader { variant := .casimV2 } { threadId := 1 } = .ok begun ∧
      begun.writeAll [.sync { kind := .lockRelease }, .instr { ip := 4096, isMul := true }] = .ok w ∧
      Reader.openAuto "trace.bin" w.out = .ok r ∧ r.variant = .casimV2 ∧ r.header.threadId = 1 ∧
      ReadsTo Reader.nextUnwired r [{ ip := 4096, isMul := true }] .clean) ∧
    ∀ records ∈ [[], [({ ip := 4096, isBranch := true } : Record)]], ∃ w r,
      Writer.writeAll { variant := .standard } (records.map .instr) = .ok w ∧
      Reader.openAuto "trace.bin" w.out = .ok r ∧ r.variant = .standard ∧
      ReadsTo Reader.nextUnwired r (records.map Record.asStandard) .clean := by
  constructor
  · let h : FileHeader := { threadId := 1 }
    let records : List AnyRecord := [.sync { kind := .lockRelease }, .instr { ip := 4096, isMul := true }]
    obtain ⟨w, wrote, -⟩ := Writer.writeAll_out
      (w := { variant := .casimV2, out := writeCasimv2Header h, headerWritten := true }) rfl rfl records
    obtain ⟨r, opened, variant, header, -, reads⟩ := (open_auto_agrees "trace.bin").1 h records _ w rfl
      (by simp [records, AnyRecord.Valid]) rfl wrote
    exact ⟨_, w, r, rfl, wrote, opened, variant, congrArg (·.threadId) header, reads⟩
  · intro records mem
    obtain ⟨w, wrote, -⟩ := Writer.writeAll_standard (w := { variant := .standard }) rfl records
    obtain ⟨r, opened, variant, reads⟩ := (open_auto_agrees "trace.bin").2 records w (by
      simp only [List.mem_cons, List.not_mem_nil, or_false] at mem
      rcases mem with rfl | rfl
      · simp
      · rintro r ⟨⟩
        decide) wrote
    exact ⟨w, r, wrote, opened, variant, reads⟩

end Trace
