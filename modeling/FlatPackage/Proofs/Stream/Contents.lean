/-
  FlatPackage.Proofs.Stream.Contents — what decoding makes of a stream, case by case.

  A chunk either stands for some octets (`Opens`) or is refused by the codec (`Refuses`). A
  stream with a header is chunks and a rest at which the cutting loop stops, so decoding
  ends in one of three ways: every chunk opens and the rest is a tail (`decode_of_parses`),
  every chunk opens and the rest is a chunk cut short (`decode_of_cut`), or some chunk is the
  first to be refused (`decode_of_refused`). `decode_cases` says that there is no fourth.

  Proved:
  (1) `decode_ok_iff`: the streams that decode are those of the grammar whose compressed
      chunks open, the contents are those of the chunks strung together, the grammar is
      unambiguous, and the chunk size that is announced does not matter.
-/

import FlatPackage.Proofs.Stream.Split
import Mathlib.Data.List.Forall2

namespace FlatPackage.Stream

variable (codec : Codec)

/-! ## One chunk -/

/-- What a chunk stands for: what the codec makes of its body if the flags say so, and the
    body itself whatever else they say. -/
inductive Opens (c : Chunk) : Bytes → Prop
  | packed {d : Bytes} : c.flags = xzFlags → codec.decompress c.body = .ok d → Opens c d
  | raw : c.flags ≠ xzFlags → Opens c c.body

/-- A chunk that is to be decompressed and cannot be. -/
def Refuses (c : Chunk) (flaw : Xz.Flaw) : Prop := c.flags = xzFlags ∧ codec.decompress c.body = .error flaw

variable {codec}

theorem Opens.contents_eq {c : Chunk} {d : Bytes} (h : Opens codec c d) : c.contents codec = .ok d := by
  cases h with
  | packed hf hd => simp [Chunk.contents, isCompressed, hf, hd, Except.mapError]
  | raw hf => simp [Chunk.contents, isCompressed, hf]

theorem Refuses.contents_eq {c : Chunk} {flaw : Xz.Flaw} (h : Refuses codec c flaw) :
    c.contents codec = .error (.codec flaw) := by
  obtain ⟨hf, hd⟩ := h
  simp [Chunk.contents, isCompressed, hf, hd, Except.mapError]

theorem opens_or_refuses (codec : Codec) (c : Chunk) : (∃ d, Opens codec c d) ∨ ∃ flaw, Refuses codec c flaw := by
  by_cases hf : c.flags = xzFlags
  · cases hd : codec.decompress c.body with
    | ok d => exact Or.inl ⟨d, .packed hf hd⟩
    | error flaw => exact Or.inr ⟨flaw, hf, hd⟩
  · exact Or.inl ⟨c.body, .raw hf⟩

/-! ## Chunks in order -/

/-- Every chunk of a list stands for the octets beside it. -/
abbrev OpenAll (codec : Codec) (cs : List Chunk) (parts : List Bytes) : Prop := List.Forall₂ (Opens codec) cs parts

theorem mapM_of_openAll {cs : List Chunk} {parts : List Bytes} (h : OpenAll codec cs parts) :
    cs.mapM (Chunk.contents codec) = .ok parts := by
  induction h with
  | nil => rfl
  | cons hc _ ih =>
    rw [List.mapM_cons, hc.contents_eq, ih]
    rfl

/-- The first chunk that is refused decides, whatever comes after it. -/
theorem mapM_of_refused {before : List Chunk} {parts : List Bytes} (h : OpenAll codec before parts) {c : Chunk}
    {flaw : Xz.Flaw} (hc : Refuses codec c flaw) (after : List Chunk) :
    (before ++ c :: after).mapM (Chunk.contents codec) = .error (.codec flaw) := by
  induction h with
  | nil =>
    rw [List.nil_append, List.mapM_cons, hc.contents_eq]
    rfl
  | cons hd _ ih =>
    rw [List.cons_append, List.mapM_cons, hd.contents_eq, ih]
    rfl

/-- Chunks open one by one until one is refused. -/
theorem openAll_or_refused (codec : Codec) (cs : List Chunk) :
    (∃ parts, OpenAll codec cs parts) ∨
      ∃ before c after parts flaw, cs = before ++ c :: after ∧ OpenAll codec before parts ∧ Refuses codec c flaw := by
  induction cs with
  | nil => exact Or.inl ⟨[], .nil⟩
  | cons c cs ih =>
    rcases opens_or_refuses codec c with ⟨d, hd⟩ | ⟨flaw, hc⟩
    · rcases ih with ⟨parts, h⟩ | ⟨before, x, after, parts, flaw, rfl, h, hx⟩
      · exact Or.inl ⟨d :: parts, .cons hd h⟩
      · exact Or.inr ⟨c :: before, x, after, d :: parts, flaw, rfl, .cons hd h, hx⟩
    · exact Or.inr ⟨[], c, cs, [], flaw, rfl, .nil, hc⟩

/-! ## A whole stream -/

/-- How decoding ends after all chunks are open. -/
def finish (parts : List Bytes) : Ending → Except Fault Bytes
  | .tail _ => .ok parts.flatten
  | .cut need offset remaining => .error (.cutChunk need offset remaining)

theorem decode_eq {s : Bytes} {n : UInt64} (hh : readHeader s = .ok n) {cs : List Chunk} {e : Ending}
    (hc : chunks s = (cs, e)) :
    decode codec s = (cs.mapM (Chunk.contents codec)).bind fun parts => finish parts e := by
  simp only [decode, hh, hc]
  cases e <;> rfl

theorem decode_of_stops (n : UInt64) {cs : List Chunk} (hcs : ∀ c ∈ cs, c.Fits) {parts : List Bytes}
    (hp : OpenAll codec cs parts) {r : Bytes} {e : Ending} (h : Stops (headerSize + (texts cs).length) r e) :
    decode codec (ofChunks n cs r) = finish parts e := by
  rw [decode_eq (readHeader_ofChunks n cs r) (chunks_of_stops n hcs h), mapM_of_openAll hp]
  rfl

theorem decode_of_parses {s : Bytes} {n : UInt64} {cs : List Chunk} {tail : Bytes} (h : Parses s n cs tail)
    {parts : List Bytes} (hp : OpenAll codec cs parts) : decode codec s = .ok parts.flatten := by
  rw [h.text]
  exact decode_of_stops n h.fits hp (.tail h.short)

theorem decode_of_cut (n : UInt64) {cs : List Chunk} (hcs : ∀ c ∈ cs, c.Fits) {parts : List Bytes}
    (hp : OpenAll codec cs parts) {r : Bytes} (hr : chunkHeaderSize ≤ r.length)
    (hn : r.length - chunkHeaderSize < (ChunkHeader.ofBytes r).length.toNat) :
    decode codec (ofChunks n cs r) = .error (.cutChunk (ChunkHeader.ofBytes r).length
      (headerSize + (texts cs).length + chunkHeaderSize) (r.length - chunkHeaderSize)) :=
  decode_of_stops n hcs hp (.cut hr hn)

/-- The first chunk that is refused is reported, whatever octets follow it: also if the stream is cut
    short after it. -/
theorem decode_of_refused (n : UInt64) {before : List Chunk} (hb : ∀ c ∈ before, c.Fits) {parts : List Bytes}
    (hp : OpenAll codec before parts) {c : Chunk} (hf : c.Fits) {flaw : Xz.Flaw} (hc : Refuses codec c flaw)
    (r : Bytes) : decode codec (ofChunks n before (c.bytes ++ r)) = .error (.codec flaw) := by
  have hs := split_chunk (headerSize + (texts before).length) hf r
  have hch := chunks_ofChunks n hb (c.bytes ++ r)
  rw [hs] at hch
  rw [decode_eq (readHeader_ofChunks n before _) hch, mapM_of_refused hp hc]
  rfl

/-- A stream with a header decodes, or is cut short behind chunks that open, or has a first chunk that
    is refused. -/
theorem decode_cases (codec : Codec) {s : Bytes} {n : UInt64} (h : readHeader s = .ok n) :
    (∃ cs tail parts, Parses s n cs tail ∧ OpenAll codec cs parts) ∨
    (∃ cs r parts, (∀ c ∈ cs, Chunk.Fits c) ∧ OpenAll codec cs parts ∧ s = ofChunks n cs r ∧
      chunkHeaderSize ≤ r.length ∧ r.length - chunkHeaderSize < (ChunkHeader.ofBytes r).length.toNat) ∨
    (∃ before c r parts flaw, (∀ d ∈ before, Chunk.Fits d) ∧ OpenAll codec before parts ∧ Chunk.Fits c ∧
      Refuses codec c flaw ∧ s = ofChunks n before (c.bytes ++ r)) := by
  obtain ⟨cs, r, e, hcs, hs, he⟩ := ofChunks_of_readHeader h
  rcases openAll_or_refused codec cs with ⟨parts, hp⟩ | ⟨before, c, after, parts, flaw, rfl, hp, hc⟩
  · cases he with
    | tail ht => exact Or.inl ⟨cs, r, parts, ⟨hs, hcs, ht⟩, hp⟩
    | cut hr hn => exact Or.inr (Or.inl ⟨cs, r, parts, hcs, hp, hs, hr, hn⟩)
  · refine Or.inr (Or.inr ⟨before, c, texts after ++ r, parts, flaw, ?_, hp, ?_, hc, ?_⟩)
    · exact fun d hd => hcs d (List.mem_append_left _ hd)
    · exact hcs c (List.mem_append_right _ List.mem_cons_self)
    · simp only [hs, ofChunks, List.flatMap_append, List.flatMap_cons, List.append_assoc]

theorem readHeader_of_decode {s o : Bytes} (h : decode codec s = .ok o) : ∃ n, readHeader s = .ok n := by
  cases hh : readHeader s with
  | ok n => exact ⟨n, rfl⟩
  | error f =>
    simp only [decode, hh] at h
    cases h

/-! ## (1) Decoding accepts exactly its grammar -/

theorem parses_of_decode {s o : Bytes} (h : decode codec s = .ok o) :
    ∃ n cs tail parts, Parses s n cs tail ∧ OpenAll codec cs parts ∧ o = parts.flatten := by
  obtain ⟨n, hn⟩ := readHeader_of_decode h
  rcases decode_cases codec hn with ⟨cs, tail, parts, hs, hp⟩ | ⟨cs, r, parts, hcs, hp, rfl, hr, hl⟩ |
    ⟨before, c, r, parts, flaw, hb, hp, hf, hc, rfl⟩
  · rw [decode_of_parses hs hp] at h
    injection h with h
    exact ⟨n, cs, tail, parts, hs, hp, h.symm⟩
  · rw [decode_of_cut n hcs hp hr hl] at h
    cases h
  · rw [decode_of_refused n hb hp hf hc] at h
    cases h

theorem decode_ofChunks_congr (codec : Codec) (n n' : UInt64) {cs : List Chunk} (hcs : ∀ c ∈ cs, c.Fits) (r : Bytes) :
    decode codec (ofChunks n cs r) = decode codec (ofChunks n' cs r) := by
  rw [decode_eq (readHeader_ofChunks n cs r) (chunks_ofChunks n hcs r),
    decode_eq (readHeader_ofChunks n' cs r) (chunks_ofChunks n' hcs r)]

/-- A stream decodes to `o` if and only if it is a header, chunks and a tail too short for another
    chunk, every chunk opens, and `o` is what they stand for in order. There is one such reading of
    it, and another chunk size in the header changes nothing. -/
theorem decode_ok_iff (codec : Codec) (s : Bytes) :
    (∀ o, decode codec s = .ok o ↔
      ∃ n cs tail parts, Parses s n cs tail ∧ OpenAll codec cs parts ∧ o = parts.flatten) ∧
    (∀ n cs tail n' cs' tail', Parses s n cs tail → Parses s n' cs' tail' → n = n' ∧ cs = cs' ∧ tail = tail') ∧
    (∀ n cs tail n', Parses s n cs tail → decode codec (ofChunks n' cs tail) = decode codec s) := by
  refine ⟨fun o => ⟨parses_of_decode, ?_⟩, ?_, ?_⟩
  · rintro ⟨n, cs, tail, parts, hs, hp, rfl⟩
    exact decode_of_parses hs hp
  · intro n cs tail n' cs' tail' h h'
    exact h.unique h'
  · intro n cs tail n' h
    rw [h.text]
    exact decode_ofChunks_congr codec n' n h.fits tail

end FlatPackage.Stream
