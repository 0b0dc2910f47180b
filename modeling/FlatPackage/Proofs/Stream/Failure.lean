/-
  FlatPackage.Proofs.Stream.Failure — where and how decoding fails.

  A stream with a header fails at one place: the first chunk that is not all there, or that is
  there and cannot be opened. Within a chunk the length is judged first, so a compressed
  chunk that is cut short is never handed to the codec. Across chunks the order is that of
  the stream, so a refused chunk is reported before any chunk cut short behind it.

  Proved:
  (1) `decode_error_iff`: a fault is reported if and only if it is the one of such a place, and
      its message carries what was declared, where the body would start, and what is there.
  Trace: a length word of all ones behind a raw chunk (`a_length_near_the_limit_is_cut`).
-/

import FlatPackage.Proofs.Stream.Contents

namespace FlatPackage.Stream

/-- Reading on at `r`, which is `offset` octets into the stream, fails with this fault. -/
inductive FailsAt (codec : Codec) (offset : Nat) (r : Bytes) : Fault → Prop
  /-- The length word asks for more than there is, whatever the flags. -/
  | cut (flags need : UInt64) : chunkHeaderSize ≤ r.length → ChunkHeader.ofBytes r = ⟨flags, need⟩ →
      r.length - chunkHeaderSize < need.toNat →
      FailsAt codec offset r (.cutChunk need (offset + chunkHeaderSize) (r.length - chunkHeaderSize))
  /-- The body is all there, is to be decompressed, and the codec does not take it. -/
  | refused (need : UInt64) (flaw : Xz.Flaw) : chunkHeaderSize ≤ r.length →
      ChunkHeader.ofBytes r = ⟨xzFlags, need⟩ → need.toNat ≤ r.length - chunkHeaderSize →
      codec.decompress ((r.drop chunkHeaderSize).take need.toNat) = .error flaw →
      FailsAt codec offset r (.codec flaw)

variable {codec : Codec}

/-- A failing place is a chunk cut short, or starts with a chunk that the codec refuses. -/
theorem FailsAt.cases {offset : Nat} {r : Bytes} {f : Fault} (h : FailsAt codec offset r f) :
    (chunkHeaderSize ≤ r.length ∧ r.length - chunkHeaderSize < (ChunkHeader.ofBytes r).length.toNat ∧
      f = .cutChunk (ChunkHeader.ofBytes r).length (offset + chunkHeaderSize) (r.length - chunkHeaderSize)) ∨
    (∃ c after flaw, Chunk.Fits c ∧ Refuses codec c flaw ∧ r = c.bytes ++ after ∧ f = .codec flaw) := by
  cases h with
  | cut flags need hr hw hn =>
    left
    rw [hw]
    exact ⟨hr, hn, rfl⟩
  | refused need flaw hr hw hn hd =>
    right
    rcases split_front hr with hcut | ⟨c, after, hf, rfl⟩
    · rw [hw] at hcut
      exact absurd hcut (Nat.not_lt.mpr hn)
    · rw [Chunk.ofBytes_bytes] at hw
      have hflags : c.flags = xzFlags := congrArg ChunkHeader.flags hw
      have hneed : c.body.length = need.toNat := by rw [← hf.toNat_length, hw]
      rw [Chunk.drop_bytes, ← hneed, List.take_left] at hd
      exact ⟨c, after, flaw, hf, ⟨hflags, hd⟩, rfl, rfl⟩

/-- A chunk that is refused is a failing place, whatever comes after it. -/
theorem FailsAt.of_refuses (offset : Nat) {c : Chunk} (hf : c.Fits) {flaw : Xz.Flaw} (hc : Refuses codec c flaw)
    (after : Bytes) : FailsAt codec offset (c.bytes ++ after) (.codec flaw) := by
  have hl : (c.bytes ++ after).length - chunkHeaderSize = c.body.length + after.length := by
    rw [List.length_append, Chunk.length_bytes]
    omega
  refine .refused c.header.length flaw ?_ ?_ ?_ ?_
  · rw [List.length_append, Chunk.length_bytes]
    omega
  · rw [Chunk.ofBytes_bytes, ← hc.1]
    rfl
  · rw [hl, hf.toNat_length]
    omega
  · rw [Chunk.drop_bytes, hf.toNat_length, List.take_left]
    exact hc.2

theorem decode_of_failsAt (n : UInt64) {cs : List Chunk} (hcs : ∀ c ∈ cs, c.Fits) {parts : List Bytes}
    (hp : OpenAll codec cs parts) {r : Bytes} {f : Fault} (h : FailsAt codec (headerSize + (texts cs).length) r f) :
    decode codec (ofChunks n cs r) = .error f := by
  rcases h.cases with ⟨hr, hn, rfl⟩ | ⟨c, after, flaw, hf, hc, rfl, rfl⟩
  · exact decode_of_cut n hcs hp hr hn
  · exact decode_of_refused n hcs hp hf hc after

theorem failsAt_of_decode {s : Bytes} {n : UInt64} (hs : readHeader s = .ok n) {f : Fault}
    (h : decode codec s = .error f) :
    ∃ cs parts r, (∀ c ∈ cs, Chunk.Fits c) ∧ OpenAll codec cs parts ∧ s = ofChunks n cs r ∧
      FailsAt codec (headerSize + (texts cs).length) r f := by
  rcases decode_cases codec hs with ⟨cs, tail, parts, ht, hp⟩ | ⟨cs, r, parts, hcs, hp, rfl, hr, hl⟩ |
    ⟨before, c, r, parts, flaw, hb, hp, hf, hc, rfl⟩
  · rw [decode_of_parses ht hp] at h
    cases h
  · rw [decode_of_cut n hcs hp hr hl] at h
    injection h with h
    subst h
    exact ⟨cs, parts, r, hcs, hp, rfl, .cut _ _ hr rfl hl⟩
  · rw [decode_of_refused n hb hp hf hc] at h
    injection h with h
    subst h
    exact ⟨before, parts, c.bytes ++ r, hb, hp, rfl, .of_refuses _ hf hc r⟩

/-! ## (1) The first failing chunk and the right fault -/

/-- Decoding a stream with a header fails with `f` if and only if chunks that open come first and
    behind them is a place that fails with `f`. What is told of a chunk cut short is its length
    word, the offset behind its header and the octets that remain there. -/
theorem decode_error_iff (codec : Codec) {s : Bytes} {n : UInt64} (hs : readHeader s = .ok n) (f : Fault) :
    (decode codec s = .error f ↔
      ∃ cs parts r, (∀ c ∈ cs, Chunk.Fits c) ∧ OpenAll codec cs parts ∧ s = ofChunks n cs r ∧
        FailsAt codec (headerSize + (texts cs).length) r f) ∧
    (∀ offset r, FailsAt codec offset r f →
      (∃ flags need, ChunkHeader.ofBytes r = ⟨flags, need⟩ ∧ r.length - chunkHeaderSize < need.toNat ∧
        f.kind? = some .truncatedChunk ∧
        f.message = "Chunk data truncated: need " ++ toString need.toNat ++ " bytes at offset "
          ++ toString (offset + chunkHeaderSize) ++ ", but only " ++ toString (r.length - chunkHeaderSize)
          ++ " bytes remain") ∨
      (∃ need flaw, ChunkHeader.ofBytes r = ⟨xzFlags, need⟩ ∧ need.toNat ≤ r.length - chunkHeaderSize ∧
        codec.decompress ((r.drop chunkHeaderSize).take need.toNat) = .error flaw ∧
        f.kind? = some .codec ∧ f.message = "Failed to decompress XZ chunk: " ++ flaw.message)) := by
  refine ⟨⟨failsAt_of_decode hs, ?_⟩, ?_⟩
  · rintro ⟨cs, parts, r, hcs, hp, rfl, h⟩
    exact decode_of_failsAt n hcs hp h
  · intro offset r h
    cases h with
    | cut flags need _ hw hn => exact Or.inl ⟨flags, need, hw, hn, rfl, rfl⟩
    | refused need flaw _ hw hn hd => exact Or.inr ⟨need, flaw, hw, hn, hd, rfl, rfl⟩

/-- A compressed chunk that declares 2^64 - 1 octets, behind a raw chunk: it is cut short where it
    stands, and no sum of offset and length is ever formed. -/
theorem a_length_near_the_limit_is_cut :
    let s := ofChunks 4 [⟨rawFlags, [7, 8]⟩] (Bytes.be64 xzFlags ++ Bytes.be64 0xFFFFFFFFFFFFFFFF ++ [1, 2, 3])
    readHeader s = .ok 4 ∧ decode Codec.xz s = .error (.cutChunk 0xFFFFFFFFFFFFFFFF 46 3) := by
  intro s
  have hs : readHeader s = .ok 4 := rfl
  refine ⟨hs, (decode_error_iff Codec.xz hs _).1.mpr ⟨[⟨rawFlags, [7, 8]⟩], [[7, 8]], _, ?_, ?_, rfl, ?_⟩⟩
  · simp [Chunk.Fits]
  · exact .cons (.raw (by decide)) .nil
  · exact .cut xzFlags 0xFFFFFFFFFFFFFFFF (by decide) rfl (by decide)

end FlatPackage.Stream
