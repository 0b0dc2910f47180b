/-
  FlatPackage.Proofs.Stream.RoundTrip — what was encoded decodes to itself.

  The encoder's loop and the decoder's never meet in one induction: the encoder writes one
  chunk for each slice (`packAll`), each chunk opens to the slice it was made from
  (`opens_pack`), and chunks written in order are read in order (`decode_of_parses`). Of the
  codec only this is asked, that it restores the slices at hand; how long its output is
  decides which of the two forms a chunk takes and nothing else.

  Proved:
  (1) `decode_encode`: a stream, with any octets behind it that are too few for a chunk,
      decodes to the contents it was made from and announces the chunk size it was made with.
  Trace: two slices with fifteen octets behind them (`two_slices_and_a_tail`).
-/

import FlatPackage.Proofs.Stream.Contents
import FlatPackage.Proofs.Stream.Layout
import FlatPackage.Proofs.Xz.Drain

namespace FlatPackage.Stream

/-- The codec gives back these octets. -/
def Codec.Restores (codec : Codec) (s : Bytes) : Prop := codec.decompress (codec.compress s) = .ok s

variable {codec : Codec}

/-! ## One slice -/

/-- Whichever form a slice takes, the chunk stands for the slice. -/
theorem opens_pack {x : Bytes} (h : codec.Restores x) : Opens codec (pack codec x) x := by
  by_cases hl : (codec.compress x).length < x.length
  · have hp : pack codec x = ⟨xzFlags, codec.compress x⟩ := if_pos hl
    rw [hp]
    exact .packed rfl h
  · have hp : pack codec x = ⟨rawFlags, x⟩ := if_neg hl
    rw [hp]
    exact .raw (show rawFlags ≠ xzFlags by decide)

/-! ## All slices -/

theorem openAll_map_pack {xs : List Bytes} (h : ∀ x ∈ xs, codec.Restores x) : OpenAll codec (xs.map (pack codec)) xs := by
  induction xs with
  | nil => exact .nil
  | cons x xs ih =>
    refine .cons (opens_pack (h x List.mem_cons_self)) (ih ?_)
    exact fun y hy => h y (List.mem_cons_of_mem _ hy)

/-- The slices strung together are the contents. -/
theorem decode_packAll {c : UInt64} (hc : c ≠ 0) {d : Bytes} (hd : ∀ x ∈ Bytes.slices c.toNat d, codec.Restores x)
    {t : Bytes} (ht : t.length < chunkHeaderSize) :
    decode codec (ofChunks c (packAll codec c d) [] ++ t) = .ok d := by
  rw [decode_of_parses (parses_packAll codec hc d ht) (openAll_map_pack hd), Bytes.flatten_slices]

/-- Contents written with the usual chunk size decode to themselves. -/
theorem decode_compress {d : Bytes} (hd : ∀ x ∈ Bytes.slices defaultChunkSize.toNat d, codec.Restores x) :
    decode codec (compress codec d) = .ok d := by
  have h := decode_packAll (t := []) (show defaultChunkSize ≠ 0 by decide) hd (by decide)
  rwa [List.append_nil] at h

/-! ## (1) Encoding and decoding -/

/-- For every chunk size, contents and tail too short for a chunk, with a codec that restores the
    slices of the contents: the stream that is written, and the tail after it, decode to the
    contents and announce the chunk size. -/
theorem decode_encode (codec : Codec) {c : UInt64} (hc : c ≠ 0) (d : Bytes)
    (hd : ∀ x ∈ Bytes.slices c.toNat d, codec.decompress (codec.compress x) = .ok x) {t : Bytes} (ht : t.length < 16) :
    ∃ s, encode codec c d = .ok s ∧ decode codec (s ++ t) = .ok d ∧ readHeader (s ++ t) = .ok c := by
  refine ⟨ofChunks c (packAll codec c d) [], encode_eq codec hc d, decode_packAll hc hd ht, ?_⟩
  rw [(parses_packAll codec hc d ht).text]
  exact readHeader_ofChunks c _ t

theorem two_slices_and_a_tail :
    let d : Bytes := [1, 2, 3, 1, 2, 3]
    let t : Bytes := Bytes.zeros 15
    (3 : UInt64) ≠ 0 ∧ t.length < 16 ∧
      ∃ s, encode Codec.xz 3 d = .ok s ∧ decode Codec.xz (s ++ t) = .ok d ∧ readHeader (s ++ t) = .ok 3 := by
  intro d t
  have hx : (Codec.xz.decompress (Codec.xz.compress [1, 2, 3])).toOption = some [1, 2, 3] := by
    show (Xz.decompress _).toOption = _
    rw [Xz.decompress_eq]
    decide +kernel
  have hd : ∀ x ∈ Bytes.slices (3 : UInt64).toNat d, Codec.xz.decompress (Codec.xz.compress x) = .ok x := by
    intro x hm
    have he : x = [1, 2, 3] := by simpa [d, Bytes.slices] using hm
    rw [he]
    cases h : Codec.xz.decompress (Codec.xz.compress [1, 2, 3]) with
    | ok y =>
      rw [h] at hx
      injection hx with hx
      rw [hx]
    | error _ =>
      rw [h] at hx
      cases hx
  exact ⟨by decide, by decide, decode_encode Codec.xz (by decide) d hd (by decide)⟩

end FlatPackage.Stream
