import MulticoreSim.Trace.Headers

/-! # Cut files

A CasimV2 file that was cut off inside a record is told from a whole one, wherever the
cut is. A standard file is not where the cut leaves a part of an address.
-/

namespace Trace

open ByteStream
open Sync (Sink deliverable)

/-- Read to the end, a stream gives out `given`, and it ends cleanly on a record
    boundary and throws off one. -/
def Detects {σ α : Type} (call : σ → Except String (Option α × σ)) (s : σ) (given : List α)
    (boundary : Prop) : Prop :=
  ∃ ending, ReadsTo call s given ending ∧ (ending = .clean ↔ boundary)

/-! ## Standard -/

theorem standard_detects {r : Reader} {records : List Record} {n : Nat}
    (inside : n ≤ 64 * records.length)
    (before : BeforeStandard r ((records.flatMap writeStandard).take n)) :
    Detects Reader.nextUnwired r ((records.take (n / 64)).map Record.asStandard) (n % 64 = 0) ↔
      n % 64 = 0 ∨ 8 ≤ n % 64 := by
  obtain ⟨ending, reads, clean⟩ :=
    nextStandard_reads.cut (by decide) (fun _ _ => trivial) inside before
  rw [List.filterMap_eq_map'] at reads
  constructor
  · intro ⟨ending', reads', clean'⟩
    obtain ⟨-, same⟩ := reads'.unique reads
    rw [same, clean] at clean'
    omega
  · intro whole
    exact ⟨ending, reads, clean.trans (by omega)⟩

/-! ## CasimV2 -/

/-- Nothing shorter than a header is read as one. -/
theorem header_cut {bytes : List Byte} (short : bytes.length < 32) :
    ∃ what, Reader.stream bytes .casimV2 = .error what := by
  rw [Reader.stream]
  cases found : readCasimv2Header bytes with
  | error what => exact ⟨what, rfl⟩
  | ok front =>
      cases front with
      | none => exact ⟨_, rfl⟩
      | some got =>
          obtain ⟨h, rest⟩ := got
          have used := header_uses found
          omega

/-- A reader behind the header of a file that was cut off further on. -/
theorem stream_cut {h : FileHeader} (size : h.headerSize = 32) (records : List AnyRecord) (n : Nat) :
    ∃ r, Reader.stream ((writeCasimv2Header h ++ records.flatMap AnyRecord.bytes).take (32 + n))
        .casimV2 = .ok r ∧
      Before r ((records.flatMap AnyRecord.bytes).take n) := by
  rw [← length_header h, List.take_length_add_append, Reader.stream, read_header size]
  exact ⟨_, rfl, rfl, rfl, rfl⟩

/-! ## Both -/

/-- A cut is detected if and only if the file is CasimV2, or standard and the cut leaves
    no part or at least the address of a record. -/
theorem truncation_detected (w : Writer) (n : Nat) :
    (∀ records : List Record, n ≤ w.out.length →
      Writer.writeAll { variant := .standard } (records.map .instr) = .ok w →
      ∃ r, Reader.stream (w.out.take n) .standard = .ok r ∧
        (Detects Reader.nextUnwired r ((records.take (n / 64)).map Record.asStandard) (n % 64 = 0) ↔
          n % 64 = 0 ∨ 8 ≤ n % 64)) ∧
    ∀ (h : FileHeader) (records : List AnyRecord) (begun : Writer), h.headerSize = 32 →
      (∀ a ∈ records, a.Valid) → Writer.writeHeader { variant := .casimV2 } h = .ok begun →
      begun.writeAll records = .ok w →
      (n < 32 → ∃ what, Reader.stream (w.out.take n) .casimV2 = .error what) ∧
      (32 + n ≤ w.out.length → ∃ r, Reader.stream (w.out.take (32 + n)) .casimV2 = .ok r ∧
        Detects Reader.nextAny r (records.take (n / 64)) (n % 64 = 0) ∧
        Detects Reader.nextUnwired r ((records.take (n / 64)).filterMap AnyRecord.instr?) (n % 64 = 0) ∧
        ∀ K : Sink, Willing K → ∀ (sink : K.State) (tid : Nat),
          Detects (Reader.nextWired K) ({ r with syncTid := tid }, sink)
          ((records.take (n / 64)).filterMap fun a => deliverable a.toTrace) (n % 64 = 0)) := by
  constructor
  · intro records inside wrote
    have out := Writer.standard_out wrote
    refine ⟨{ variant := .standard, bytes := w.out.take n }, rfl, ?_⟩
    apply standard_detects
    · have length := nextStandard_reads.length records
      rw [← out] at length
      omega
    · exact ⟨rfl, by rw [out]⟩
  · intro h records begun size valid began wrote
    have out := Writer.casim_out began wrote
    constructor
    · intro short
      apply header_cut
      rw [List.length_take]
      omega
    · intro inside
      rw [out, List.length_append, length_header, length_records] at inside
      obtain ⟨r, streamed, before⟩ := stream_cut size records n
      refine ⟨r, ?_, ?_, ?_, ?_⟩
      · rw [out]
        exact streamed
      · have found := nextAny_reads.cut (by decide) valid (n := n) (by omega) before
        rwa [List.filterMap_some] at found
      · exact nextUnwired_reads.cut (by decide) valid (by omega) before
      · intro K willing sink tid
        have wired : Before { r with syncTid := tid } _ := ⟨before.casim, before.free, before.bytes⟩
        exact (nextWired_reads willing).cut (by decide) valid (s := (_, sink)) (by omega) wired

/-- Two records, the second one cut off after four bytes: one record and a clean end. -/
theorem truncation_undetected : ∃ w r,
    Writer.writeAll { variant := .standard } ([{ ip := 66 }, { ip := 66 }].map .instr) = .ok w ∧
    Reader.stream (w.out.take 68) .standard = .ok r ∧
    ReadsTo Reader.nextUnwired r [{ ip := 66 }] .clean ∧
    ¬Detects Reader.nextUnwired r [{ ip := 66 }] (68 % 64 = 0) := by
  obtain ⟨w, wrote, out⟩ :=
    Writer.writeAll_standard (w := { variant := .standard }) rfl [{ ip := 66 }, { ip := 66 }]
  let r : Reader := { variant := .standard, bytes := w.out.take 68 }
  have before : BeforeStandard r ((([{ ip := 66 }, { ip := 66 }] : List Record).flatMap writeStandard).take 68) :=
    ⟨rfl, congrArg (List.take 68) out⟩
  obtain ⟨ending, reads, clean⟩ :=
    nextStandard_reads.cut (by decide) (fun _ _ => trivial) (by decide) before
  have ended : ending = .clean := clean.mpr (by decide)
  subst ended
  refine ⟨w, r, wrote, rfl, reads, ?_⟩
  intro ⟨ending', reads', clean'⟩
  obtain ⟨-, same⟩ := reads'.unique reads
  exact absurd (clean'.mp same) (by decide)

/-- A standard file cut inside a record that kept its address, and a CasimV2 file cut
    after the tag of its second record. -/
theorem truncation_detected_twice :
    (∃ w r, Writer.writeAll { variant := .standard } ([{ ip := 66 }, { ip := 66 }].map .instr) = .ok w ∧
      Reader.stream (w.out.take 94) .standard = .ok r ∧
      Detects Reader.nextUnwired r [{ ip := 66 }] False) ∧
    ∃ begun w r, Writer.writeHeader { variant := .casimV2 } {} = .ok begun ∧
      begun.writeAll [.sync { kind := .lockRelease }, .instr { ip := 66 }] = .ok w ∧
      Reader.stream (w.out.take (32 + 65)) .casimV2 = .ok r ∧
      Detects Reader.nextAny r [.sync { kind := .lockRelease }] False ∧
      Detects (Reader.nextWired (patternSink fun _ => true)) ({ r with syncTid := 3 }, {})
        [Sync.pseudoRecord { kind := .lockRelease }] False := by
  constructor
  · obtain ⟨w, wrote, out⟩ :=
      Writer.writeAll_standard (w := { variant := .standard }) rfl [{ ip := 66 }, { ip := 66 }]
    have length := nextStandard_reads.length [{ ip := 66 }, { ip := 66 }]
    have inside : 94 ≤ w.out.length := by
      rw [out, List.nil_append, length]
      decide
    obtain ⟨r, streamed, detects⟩ := (truncation_detected w 94).1 _ inside wrote
    have found := detects.mpr (by decide)
    rw [show (94 % 64 = 0) = False from by decide] at found
    exact ⟨w, r, wrote, streamed, found⟩
  · let records : List AnyRecord := [.sync { kind := .lockRelease }, .instr { ip := 66 }]
    obtain ⟨w, wrote, out, -⟩ := Writer.writeAll_out
      (w := { variant := .casimV2, out := writeCasimv2Header {}, headerWritten := true }) rfl rfl records
    obtain ⟨-, detects⟩ := (truncation_detected w 65).2 {} records _ rfl (by simp [records, AnyRecord.Valid])
      rfl wrote
    have inside : 32 + 65 ≤ w.out.length := by
      rw [out, List.length_append, length_header, length_records]
      decide
    obtain ⟨r, streamed, any, -, wired⟩ := detects inside
    have willing : Willing (patternSink fun _ => true) :=
      ⟨fun _ _ _ => ⟨_, rfl⟩, fun sink _ => ⟨sink, rfl⟩⟩
    have found := wired _ willing ({} : Polls) 3
    rw [show (65 % 64 = 0) = False from by decide] at any found
    exact ⟨_, w, r, rfl, wrote, streamed, any, found⟩

end Trace
