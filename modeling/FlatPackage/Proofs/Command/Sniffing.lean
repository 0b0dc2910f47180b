/-
  FlatPackage.Proofs.Command.Sniffing — what makes a text a stream, asked in four ways.

  Four octets of magic are enough for `isStream`; a header has twelve, and reading it tests the length
  before the magic. Decoding reads the header first and nothing it does afterwards ends in a header's
  fault. A file is shown by both: what is no stream is said to be none, however short, so the only
  fault that is left to report is a stream that ends inside its header.

  Proved:
  (1) `opening`: what reading a header comes to.
  (2) `decode_eq_error_iff`: decoding ends in a header's fault exactly if reading the header does.
  (3) `info_of_foreign`, `info_of_header`, `info_of_short`: how a file is shown.
  (4) `sniffers_agree`: all of this of one text.
  Trace: a whole header, one that is cut short, and octets that are none (`three_files_sniffed`).
-/

import FlatPackage.Host.Setup
import FlatPackage.Proofs.Command.Performing
import FlatPackage.Proofs.Host.Finding
import FlatPackage.Proofs.Stream.Contents

namespace FlatPackage.Stream

open FlatPackage.Bytes (number)

variable {s : Bytes} {n : UInt64} {f : Fault}

/-! ## (1) Headers -/

/-- What reading a header comes to, by what the text is. -/
inductive Opening (s : Bytes) : Except Fault UInt64 → Prop
  | short : s.length < headerSize → Opening s (.error (.shortStream s.length))
  | foreign : headerSize ≤ s.length → isStream s = false → Opening s (.error .notAStream)
  | stream (n : UInt64) : headerSize ≤ s.length → isStream s = true → n.toNat = number ((s.drop 4).take 8) →
      Opening s (.ok n)

theorem opening (s : Bytes) : Opening s (readHeader s) := by
  by_cases hl : s.length < headerSize
  · rw [readHeader, if_pos hl]
    exact .short hl
  have hle : headerSize ≤ s.length := Nat.le_of_not_lt hl
  cases hm : isStream s with
  | false =>
    rw [readHeader, if_neg hl, hm, if_neg Bool.false_ne_true]
    exact .foreign hle hm
  | true =>
    rw [readHeader, if_neg hl, if_pos hm]
    refine .stream _ hle hm ?_
    -- eight octets spell no more than a word can say
    have hlt := Bytes.number_lt ((s.drop 4).take 8)
    have height : ((s.drop 4).take 8).length = 8 := by
      simp only [headerSize] at hle
      rw [List.length_take, List.length_drop]
      omega
    rw [height] at hlt
    rw [Bytes.toNat_ofBe64]
    exact Nat.mod_eq_of_lt hlt

theorem readHeader_eq_ok_iff : readHeader s = .ok n ↔
    isStream s = true ∧ headerSize ≤ s.length ∧ n.toNat = number ((s.drop 4).take 8) := by
  have hopening := opening s
  constructor
  · intro h
    rw [h] at hopening
    cases hopening with
    | stream _ hl hm hn => exact ⟨hm, hl, hn⟩
  · rintro ⟨hm, hl, hn⟩
    generalize readHeader s = r at hopening
    cases hopening with
    | short hshort => exact absurd hl (Nat.not_le_of_lt hshort)
    | foreign _ hforeign =>
      rw [hm] at hforeign
      cases hforeign
    | stream m _ _ hm' => rw [UInt64.toNat_inj.mp (hm'.trans hn.symm)]

theorem readHeader_eq_shortStream_iff : readHeader s = .error (.shortStream s.length) ↔ s.length < headerSize := by
  constructor
  · intro h
    have hopening := opening s
    rw [h] at hopening
    cases hopening with
    | short hl => exact hl
  · intro hl
    rw [readHeader, if_pos hl]

theorem readHeader_eq_notAStream_iff : readHeader s = .error .notAStream ↔ headerSize ≤ s.length ∧ isStream s = false := by
  constructor
  · intro h
    have hopening := opening s
    rw [h] at hopening
    cases hopening with
    | foreign hl hm => exact ⟨hl, hm⟩
  · rintro ⟨hl, hm⟩
    rw [readHeader, if_neg (Nat.not_lt_of_le hl), hm, if_neg Bool.false_ne_true]

theorem isStream_eq_true_iff : isStream s = true ↔ 4 ≤ s.length ∧ s.take 4 = magic := by
  rw [isStream, beq_iff_eq]
  refine ⟨fun h => ⟨?_, h⟩, fun h => h.2⟩
  have hl := congrArg List.length h
  rw [List.length_take] at hl
  show magic.length ≤ s.length
  omega

/-! ## (2) Decoding -/

/-- The faults of a header. -/
def IsHeaderFault (f : Fault) : Prop := f.kind? = some .tooShort ∨ f.kind? = some .badMagic

theorem isHeaderFault_of_readHeader (h : readHeader s = .error f) : IsHeaderFault f := by
  have hopening := opening s
  rw [h] at hopening
  cases hopening with
  | short => exact .inl rfl
  | foreign => exact .inr rfl

theorem decode_of_readHeader (codec : Codec) (h : readHeader s = .error f) : decode codec s = .error f := by
  rw [decode, h]
  rfl

/-- Behind the header decoding only finds chunks that are cut or refused. -/
theorem decode_eq_error_iff (codec : Codec) (s : Bytes) (f : Fault) :
    decode codec s = .error f ∧ IsHeaderFault f ↔ readHeader s = .error f := by
  refine ⟨fun ⟨hd, hf⟩ => ?_, fun h => ⟨decode_of_readHeader codec h, isHeaderFault_of_readHeader h⟩⟩
  cases hh : readHeader s with
  | error g =>
    rw [decode_of_readHeader codec hh] at hd
    rw [Except.error.inj hd]
  | ok n =>
    rcases decode_cases codec hh with ⟨cs, tail, parts, hs, hp⟩ | ⟨cs, r, parts, hcs, hp, rfl, hr, hl⟩ |
      ⟨before, c, r, parts, flaw, hb, hp, hfits, hc, rfl⟩
    · rw [decode_of_parses hs hp] at hd
      cases hd
    · rw [decode_of_cut n hcs hp hr hl] at hd
      cases hd
      rcases hf with hf | hf <;> cases hf
    · rw [decode_of_refused n hb hp hfits hc] at hd
      cases hd
      rcases hf with hf | hf <;> cases hf

/-- Decoding ends in a fault of one kind exactly if the header does. -/
theorem exists_decode_error_iff (codec : Codec) (s : Bytes) {k : Kind} (hk : k = .tooShort ∨ k = .badMagic) :
    (∃ f, decode codec s = .error f ∧ f.kind? = some k) ↔ ∃ f, readHeader s = .error f ∧ f.kind? = some k := by
  constructor
  · rintro ⟨f, hd, hf⟩
    have hheader : IsHeaderFault f := by
      rcases hk with rfl | rfl
      · exact .inl hf
      · exact .inr hf
    exact ⟨f, (decode_eq_error_iff codec s f).mp ⟨hd, hheader⟩, hf⟩
  · rintro ⟨f, hh, hf⟩
    exact ⟨f, decode_of_readHeader codec hh, hf⟩

theorem exists_tooShort_iff : (∃ f, readHeader s = .error f ∧ f.kind? = some .tooShort) ↔ s.length < 12 := by
  refine ⟨fun ⟨f, h, hf⟩ => ?_, fun hl => ⟨_, readHeader_eq_shortStream_iff.mpr hl, rfl⟩⟩
  have hopening := opening s
  rw [h] at hopening
  cases hopening with
  | short hl => exact hl
  | foreign => cases hf

theorem exists_badMagic_iff :
    (∃ f, readHeader s = .error f ∧ f.kind? = some .badMagic) ↔ 12 ≤ s.length ∧ isStream s = false := by
  refine ⟨fun ⟨f, h, hf⟩ => ?_, fun hm => ⟨_, readHeader_eq_notAStream_iff.mpr hm, rfl⟩⟩
  have hopening := opening s
  rw [h] at hopening
  cases hopening with
  | short => cases hf
  | foreign hl hm => exact ⟨hl, hm⟩

end FlatPackage.Stream

namespace FlatPackage.Command

open Container (Archive)
open Container.Session (bind_of_error bind_of_ok)
open FlatPackage.Bytes (number)
open FlatPackage.Stream (headerSize isStream readHeader)

variable {σ : Type} {A : Archive σ} {codec : Stream.Codec} {words : List String} {o : Options} {w : World σ} {s : Bytes}
  {n m : UInt64}

/-! ## (3) Showing a file -/

/-- What is printed of a file that is no stream. -/
def foreignLine (path : String) : String := path ++ ": not a pbzx stream\n"

/-- What is printed of a stream. -/
def streamLine (path : String) (chunkSize : UInt64) (size : Nat) : String :=
  path ++ ": pbzx stream, chunk size " ++ toString chunkSize.toNat ++ ", " ++ toString size ++ " bytes\n"

theorem foreignLine_ne_streamLine (path : String) (n : UInt64) (size : Nat) : foreignLine path ≠ streamLine path n size := by
  intro h
  simp only [foreignLine, streamLine, String.append_assoc, String.append_right_inj] at h
  have hchars := congrArg String.toList h
  rw [String.toList_append] at hchars
  cases hchars

/-- The line says which chunk size it is. -/
theorem streamLine_inj {path : String} {size : Nat} (h : streamLine path n size = streamLine path m size) : n = m := by
  simp only [streamLine, String.append_left_inj, String.append_right_inj, Nat.toString_eq_ofList_toDigits,
    String.ofList_inj] at h
  have hnumber : n.toNat = m.toNat := by
    rw [← Nat.ofDigitChars_ten_toDigits (n := n.toNat), h, Nat.ofDigitChars_ten_toDigits]
  exact UInt64.toNat_inj.mp hnumber

section Showing

variable (hload : w.host.load o.input = .ok s)

include hload

theorem info_of_foreign (hs : isStream s = false) :
    info o w = (.ok (), { w with out := w.out ++ foreignLine o.input }) := by
  have hlook : Run.look (Host.load o.input) w = (.ok s, w) := by rw [Run.look, hload]
  refine (bind_of_ok hlook).trans ?_
  rw [hs, if_neg Bool.false_ne_true]
  rfl

theorem info_of_header (hh : readHeader s = .ok n) :
    info o w = (.ok (), { w with out := w.out ++ streamLine o.input n s.length }) := by
  have hlook : Run.look (Host.load o.input) w = (.ok s, w) := by rw [Run.look, hload]
  refine (bind_of_ok hlook).trans ?_
  rw [if_pos (Stream.readHeader_eq_ok_iff.mp hh).1, hh]
  rfl

/-- A stream is not shown if its header is not all there. -/
theorem info_of_short (hs : isStream s = true) (hl : s.length < headerSize) :
    info o w = (.error (.shortStream s.length), w) := by
  have hlook : Run.look (Host.load o.input) w = (.ok s, w) := by rw [Run.look, hload]
  refine (bind_of_ok hlook).trans ?_
  rw [if_pos hs, Stream.readHeader_eq_shortStream_iff.mpr hl]
  rfl

end Showing

/-- How a file is shown, by what it holds. -/
inductive Shown (o : Options) (s : Bytes) (w : World σ) : Nat × World σ → Prop
  | foreign : isStream s = false → Shown o s w (0, { w with out := w.out ++ foreignLine o.input })
  | stream (n : UInt64) : readHeader s = .ok n → Shown o s w (0, { w with out := w.out ++ streamLine o.input n s.length })
  | short : isStream s = true → s.length < headerSize →
      Shown o s w (1, { w with err := w.err ++ (Fault.shortStream s.length).report })

theorem shown_run (hread : read words = .ok (.act .info o)) (hload : w.host.load o.input = .ok s) :
    Shown o s w (run A codec words w) := by
  cases hm : isStream s with
  | false =>
    rw [run_of_ok hread (info_of_foreign hload hm)]
    exact .foreign hm
  | true =>
    cases hh : readHeader s with
    | ok n =>
      rw [run_of_ok hread (info_of_header hload hh)]
      exact .stream n hh
    | error f =>
      have hl : s.length < headerSize := by
        by_contra hle
        rw [Stream.readHeader, if_neg hle, if_pos hm] at hh
        cases hh
      rw [run_of_error hread (info_of_short hload hm hl)]
      exact .short hm hl

namespace Shown

variable {r : Nat × World σ} (h : Shown o s w r)

include h

theorem eq_foreign_iff : r = (0, { w with out := w.out ++ foreignLine o.input }) ↔ isStream s = false := by
  cases h with
  | foreign hs => exact ⟨fun _ => hs, fun _ => rfl⟩
  | stream n hh =>
    constructor
    · intro he
      have hout := congrArg (fun r => r.2.out) he
      exact absurd ((String.append_right_inj _).mp hout).symm (foreignLine_ne_streamLine _ _ _)
    · intro hs
      rw [(Stream.readHeader_eq_ok_iff.mp hh).1] at hs
      cases hs
  | short hs _ =>
    constructor
    · intro he
      cases congrArg Prod.fst he
    · intro hno
      rw [hs] at hno
      cases hno

theorem eq_stream_iff :
    r = (0, { w with out := w.out ++ streamLine o.input n s.length }) ↔ readHeader s = .ok n := by
  cases h with
  | foreign hs =>
    constructor
    · intro he
      have hout := congrArg (fun r => r.2.out) he
      exact absurd ((String.append_right_inj _).mp hout) (foreignLine_ne_streamLine _ _ _)
    · intro hh
      rw [(Stream.readHeader_eq_ok_iff.mp hh).1] at hs
      cases hs
  | stream m hh =>
    constructor
    · intro he
      have hout := congrArg (fun r => r.2.out) he
      rw [hh, streamLine_inj ((String.append_right_inj _).mp hout)]
    · intro hn
      rw [hn] at hh
      cases hh
      rfl
  | short _ hl =>
    constructor
    · intro he
      cases congrArg Prod.fst he
    · intro hh
      exact absurd (Stream.readHeader_eq_ok_iff.mp hh).2.1 (Nat.not_le_of_lt hl)

theorem eq_short_iff : r = (1, { w with err := w.err ++ (Fault.shortStream s.length).report }) ↔
    isStream s = true ∧ s.length < headerSize := by
  cases h with
  | foreign hs =>
    constructor
    · intro he
      cases congrArg Prod.fst he
    · rintro ⟨hyes, -⟩
      rw [hs] at hyes
      cases hyes
  | stream n hh =>
    constructor
    · intro he
      cases congrArg Prod.fst he
    · rintro ⟨-, hl⟩
      exact absurd (Stream.readHeader_eq_ok_iff.mp hh).2.1 (Nat.not_le_of_lt hl)
  | short hs hl => exact ⟨fun _ => ⟨hs, hl⟩, fun _ => rfl⟩

end Shown

/-! ## (4) Agreement -/

/-- For every text. A header is read if and only if the text starts like a stream and has twelve octets, and it
    says the number that the fifth to the twelfth spell. Decoding ends in a header's fault exactly if
    reading the header ends in this very fault; it is a text of fewer than twelve octets, whichever they
    are, or a longer one that does not start like a stream. A file with this text is shown as no stream
    exactly if it does not start like one, as a stream of some chunk size exactly if the header is read
    and says so, and else it starts like a stream and ends inside the header, and is refused as too short. -/
theorem sniffers_agree (codec : Stream.Codec) (s : Bytes) :
    (isStream s = true ↔ 4 ≤ s.length ∧ s.take 4 = [0x70, 0x62, 0x7A, 0x78]) ∧
    (∀ n, readHeader s = .ok n ↔ isStream s = true ∧ 12 ≤ s.length ∧ n.toNat = number ((s.drop 4).take 8)) ∧
    (∀ f : Fault, Stream.decode codec s = .error f ∧ (f.kind? = some .tooShort ∨ f.kind? = some .badMagic) ↔
      readHeader s = .error f) ∧
    ((∃ f, Stream.decode codec s = .error f ∧ f.kind? = some .tooShort) ↔ s.length < 12) ∧
    ((∃ f, Stream.decode codec s = .error f ∧ f.kind? = some .badMagic) ↔ 12 ≤ s.length ∧ isStream s = false) ∧
    (∀ f, readHeader s = .error f → f.message =
      if s.length < 12 then "Data too short to be a pbzx stream: " ++ toString s.length ++ " bytes"
      else "Not a pbzx stream (missing magic header)") ∧
    ∀ {σ : Type} (A : Archive σ) (words : List String) (o : Options) (w : World σ), read words = .ok (.act .info o) →
      w.host.load o.input = .ok s →
        (run A codec words w = (0, { w with out := w.out ++ foreignLine o.input }) ↔ isStream s = false) ∧
        (∀ n, run A codec words w = (0, { w with out := w.out ++ streamLine o.input n s.length }) ↔
          readHeader s = .ok n) ∧
        (run A codec words w = (1, { w with err := w.err ++ (Fault.shortStream s.length).report }) ↔
          isStream s = true ∧ s.length < 12) := by
  refine ⟨Stream.isStream_eq_true_iff, fun n => Stream.readHeader_eq_ok_iff, Stream.decode_eq_error_iff codec s,
    (Stream.exists_decode_error_iff codec s (.inl rfl)).trans Stream.exists_tooShort_iff,
    (Stream.exists_decode_error_iff codec s (.inr rfl)).trans Stream.exists_badMagic_iff, fun f h => ?_,
    fun {σ} A words o w hread hload => ?_⟩
  · have hopening := Stream.opening s
    rw [h] at hopening
    cases hopening with
    | short hl =>
      have hlt : s.length < 12 := hl
      rw [if_pos hlt]
      rfl
    | foreign hl =>
      have hnlt : ¬ s.length < 12 := Nat.not_lt_of_le hl
      rw [if_neg hnlt]
      rfl
  · have hshown : Shown o s w (run A codec words w) := shown_run hread hload
    exact ⟨hshown.eq_foreign_iff, fun n => hshown.eq_stream_iff, hshown.eq_short_iff⟩

/-- A host with a stream of no chunks, the first five octets of one, and two octets that are none. -/
def threeFiles : Host :=
  Host.bare ["here"] ⟨0, 7⟩ |>.addFile "whole" (Stream.magic ++ Bytes.be64 6) 0o640
    |>.addFile "cut" (Stream.magic ++ [0]) 0o640 |>.addFile "notes" [7, 8] 0o640

/-- The first is shown with its chunk size, the second is refused and the third is no stream, although a
    header can be read from neither of the last two. -/
theorem three_files_sniffed :
    let codec : Stream.Codec := ⟨id, fun x => .ok x⟩
    let w : World Unit := ⟨threeFiles, (), "", ""⟩
    let A : Archive Unit := .absent "no library"
    let o (path : String) : Options := ⟨path, "", Stream.defaultChunkSize, false, false⟩
    (∀ path ∈ ["whole", "cut", "notes"], read ["info", "-i", path] = .ok (.act .info (o path))) ∧
      threeFiles.load "whole" = .ok (Stream.magic ++ Bytes.be64 6) ∧ threeFiles.load "cut" = .ok (Stream.magic ++ [0]) ∧
      threeFiles.load "notes" = .ok [7, 8] ∧
      run A codec ["info", "-i", "whole"] w = (0, { w with out := "" ++ streamLine "whole" 6 12 }) ∧
      run A codec ["info", "-i", "cut"] w = (1, { w with err := "" ++ (Fault.shortStream 5).report }) ∧
      run A codec ["info", "-i", "notes"] w = (0, { w with out := "" ++ foreignLine "notes" }) ∧
      ∃ f, readHeader [7, 8] = .error f ∧ f.message = "Data too short to be a pbzx stream: " ++ toString 2 ++ " bytes" := by
  intro codec w A o
  have hread : ∀ path ∈ ["whole", "cut", "notes"], read ["info", "-i", path] = .ok (.act .info (o path)) :=
    List.forall_mem_cons.mpr ⟨rfl, List.forall_mem_cons.mpr ⟨rfl, List.forall_mem_singleton.mpr rfl⟩⟩
  have hwhole : threeFiles.load "whole" = .ok (Stream.magic ++ Bytes.be64 6) := by rfl
  have hcut : threeFiles.load "cut" = .ok (Stream.magic ++ [0]) := by rfl
  have hnotes : threeFiles.load "notes" = .ok [7, 8] := by rfl
  obtain ⟨-, -, -, -, -, -, hshown⟩ := sniffers_agree codec (Stream.magic ++ Bytes.be64 6)
  obtain ⟨-, -, -, -, -, -, hrefused⟩ := sniffers_agree codec (Stream.magic ++ [0])
  obtain ⟨-, -, -, -, -, hmessage, hforeign⟩ := sniffers_agree codec [7, 8]
  have hshort : readHeader [7, 8] = .error (.shortStream 2) := by rfl
  refine ⟨hread, hwhole, hcut, hnotes, ?_, ?_, ?_, _, hshort, hmessage _ hshort⟩
  · exact ((hshown A _ _ w (hread "whole" (by decide)) hwhole).2.1 6).mpr (by rfl)
  · exact (hrefused A _ _ w (hread "cut" (by decide)) hcut).2.2.mpr ⟨by rfl, by decide⟩
  · exact (hforeign A _ _ w (hread "notes" (by decide)) hnotes).1.mpr (by rfl)

end FlatPackage.Command
