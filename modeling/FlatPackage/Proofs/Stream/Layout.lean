/-
  FlatPackage.Proofs.Stream.Layout — what the encoder writes, chunk by chunk.

  Nothing is asked of the codec here: it may make slices longer, or lose them. Each slice becomes
  one chunk whose body is the shorter of two texts (`length_body_pack`), so a stream is never
  longer than its contents by more than the headers.

  Proved:
  (1) `parses_packAll`: what is written is a stream of the grammar, with one chunk for each slice.
  (2) `standing_ofChunks`: where the words and the body of each chunk stand, octet for octet.
  (3) `encode_layout`: the number of chunks, each chunk by its number, and the length of the whole.
  Trace: three slices, one made shorter, one kept on a tie, one short (`three_slices_laid_out`).
-/

import FlatPackage.Proofs.Slices
import FlatPackage.Proofs.Stream.Split
import FlatPackage.Stream.Encode

namespace FlatPackage.Stream

/-! ## One slice -/

/-- A chunk's body is the shorter of the two forms. -/
theorem length_body_pack (codec : Codec) (x : Bytes) :
    (pack codec x).body.length = min x.length (codec.compress x).length := by
  by_cases hl : (codec.compress x).length < x.length
  · have hp : pack codec x = ⟨xzFlags, codec.compress x⟩ := if_pos hl
    rw [hp]
    exact (Nat.min_eq_right (Nat.le_of_lt hl)).symm
  · have hp : pack codec x = ⟨rawFlags, x⟩ := if_neg hl
    rw [hp]
    exact (Nat.min_eq_left (Nat.le_of_not_lt hl)).symm

/-! ## (1) All slices -/

theorem chunkSize_pos {c : UInt64} (hc : c ≠ 0) : 0 < c.toNat := by
  have h : c.toNat ≠ (0 : UInt64).toNat := fun e => hc (UInt64.toNat_inj.mp e)
  exact Nat.pos_of_ne_zero h

/-- A slice is at most a chunk size long, so every body's length is one that a header can tell. -/
theorem fits_packAll (codec : Codec) {c : UInt64} (hc : c ≠ 0) (d : Bytes) : ∀ x ∈ packAll codec c d, x.Fits := by
  intro x hx
  obtain ⟨y, hy, rfl⟩ := List.mem_map.mp hx
  have hlen := (Bytes.length_of_mem_slices (chunkSize_pos hc) hy).2
  have hword := c.toNat_lt
  show (pack codec y).body.length < _
  rw [length_body_pack]
  omega

theorem parses_packAll (codec : Codec) {c : UInt64} (hc : c ≠ 0) (d : Bytes) {t : Bytes}
    (ht : t.length < chunkHeaderSize) : Parses (ofChunks c (packAll codec c d) [] ++ t) c (packAll codec c d) t :=
  ⟨by rw [ofChunks, ofChunks, List.append_nil], fits_packAll codec hc d, ht⟩

theorem encode_eq (codec : Codec) {c : UInt64} (hc : c ≠ 0) (d : Bytes) :
    encode codec c d = .ok (ofChunks c (packAll codec c d) []) := if_neg hc

/-! ## (2) Places -/

theorem length_texts (cs : List Chunk) : (texts cs).length = (cs.map fun c => chunkHeaderSize + c.body.length).sum := by
  rw [texts, List.length_flatMap]
  exact congrArg List.sum (List.map_congr_left fun c _ => c.length_bytes)

theorem length_ofChunks (n : UInt64) (cs : List Chunk) (r : Bytes) :
    (ofChunks n cs r).length = headerSize + (cs.map fun c => chunkHeaderSize + c.body.length).sum + r.length := by
  rw [ofChunks, List.length_append, List.length_append, length_header, ← length_texts]

/-- The eight octets from a place on spell a number, most significant first. -/
def SpelledAt (s : Bytes) (place n : Nat) : Prop :=
  place + 8 ≤ s.length ∧ Bytes.number ((s.drop place).take 8) = n

/-- Where the chunk of this number starts. -/
def placeOf (cs : List Chunk) (i : Nat) : Nat := 12 + ((cs.take i).map fun c => 16 + c.body.length).sum

/-- In `s` stand the magic, a chunk size, and each chunk in its place: its flags, how long its body is,
    and the body. -/
structure Standing (s : Bytes) (n : UInt64) (cs : List Chunk) : Prop where
  magic : s.take 4 = [0x70, 0x62, 0x7A, 0x78]
  chunkSize : SpelledAt s 4 n.toNat
  flags : ∀ i (hi : i < cs.length), SpelledAt s (placeOf cs i) cs[i].flags.toNat
  length : ∀ i (hi : i < cs.length), SpelledAt s (placeOf cs i + 8) cs[i].body.length
  body : ∀ i (hi : i < cs.length), (s.drop (placeOf cs i + 16)).take cs[i].body.length = cs[i].body

theorem spelledAt_of_drop {s r : Bytes} {place : Nat} {v : UInt64} (h : s.drop place = Bytes.be64 v ++ r) :
    SpelledAt s place v.toNat := by
  have hl := congrArg List.length h
  rw [List.length_drop, List.length_append, Bytes.length_be64] at hl
  refine ⟨by omega, ?_⟩
  rw [h, List.take_left' (Bytes.length_be64 v), Bytes.number_be64]

theorem drop_placeOf (n : UInt64) (cs : List Chunk) (r : Bytes) (i : Nat) :
    (ofChunks n cs r).drop (placeOf cs i) = texts (cs.drop i) ++ r := by
  have hsplit : ofChunks n cs r = ofChunks n (cs.take i) [] ++ (texts (cs.drop i) ++ r) := by
    conv_lhs => rw [← List.take_append_drop i cs]
    simp only [ofChunks, List.flatMap_append, List.append_assoc, List.nil_append]
  rw [hsplit]
  exact List.drop_left' (length_ofChunks n (cs.take i) [])

theorem standing_ofChunks (n : UInt64) {cs : List Chunk} (hcs : ∀ c ∈ cs, c.Fits) (r : Bytes) :
    Standing (ofChunks n cs r) n cs := by
  have hfront : ofChunks n cs r = magic ++ (Bytes.be64 n ++ (texts cs ++ r)) := by
    rw [ofChunks, header, List.append_assoc, List.append_assoc]
  have hdrop : ∀ i (hi : i < cs.length), (ofChunks n cs r).drop (placeOf cs i) =
      Bytes.be64 cs[i].flags ++ (Bytes.be64 cs[i].header.length ++ (cs[i].body ++ (texts (cs.drop (i + 1)) ++ r))) := by
    intro i hi
    rw [drop_placeOf, List.drop_eq_getElem_cons hi, texts, List.flatMap_cons, Chunk.bytes, ChunkHeader.bytes]
    simp only [List.append_assoc]
    rfl
  have hwords : ∀ i (hi : i < cs.length), (ofChunks n cs r).drop (placeOf cs i + 8) =
      Bytes.be64 cs[i].header.length ++ (cs[i].body ++ (texts (cs.drop (i + 1)) ++ r)) := by
    intro i hi
    rw [← List.drop_drop, hdrop i hi]
    exact List.drop_left' (Bytes.length_be64 _)
  refine ⟨?_, spelledAt_of_drop (r := texts cs ++ r) ?_, fun i hi => spelledAt_of_drop (hdrop i hi), fun i hi => ?_,
    fun i hi => ?_⟩
  · rw [hfront]
    rfl
  · rw [hfront]
    rfl
  · have hl := spelledAt_of_drop (hwords i hi)
    rwa [(hcs _ (List.getElem_mem hi)).toNat_length] at hl
  · rw [show placeOf cs i + 16 = placeOf cs i + 8 + 8 from rfl, ← List.drop_drop, hwords i hi,
      List.drop_left' (Bytes.length_be64 _), List.take_left]

/-! ## (3) Lengths -/

theorem packAll_eq_map (codec : Codec) {c : UInt64} (hc : c ≠ 0) (d : Bytes) :
    packAll codec c d = (List.range (d.length ⌈/⌉ c.toNat)).map fun i => pack codec (Bytes.slice c.toNat d i) := by
  rw [packAll, Bytes.slices_eq_map (chunkSize_pos hc), List.map_map]
  rfl

/-- Chunks are longer than what they stand for by no more than their headers. -/
theorem sum_length_pack_le (codec : Codec) (xs : List Bytes) :
    (xs.map fun x => chunkHeaderSize + (pack codec x).body.length).sum ≤
      chunkHeaderSize * xs.length + xs.flatten.length := by
  induction xs with
  | nil => exact Nat.zero_le _
  | cons x xs ih =>
    have hx : (pack codec x).body.length ≤ x.length := by
      rw [length_body_pack]
      exact Nat.min_le_left _ _
    rw [List.map_cons, List.sum_cons, List.length_cons, List.flatten_cons, List.length_append, Nat.mul_succ]
    omega

theorem length_packAll_le (codec : Codec) {c : UInt64} (hc : c ≠ 0) (d : Bytes) :
    (ofChunks c (packAll codec c d) []).length ≤ headerSize + d.length + chunkHeaderSize * (d.length ⌈/⌉ c.toNat) := by
  have h := sum_length_pack_le codec (Bytes.slices c.toNat d)
  rw [Bytes.flatten_slices, Bytes.length_slices (chunkSize_pos hc)] at h
  rw [length_ofChunks, packAll, List.map_map, List.length_nil]
  show headerSize + ((Bytes.slices c.toNat d).map fun x => chunkHeaderSize + (pack codec x).body.length).sum + 0 ≤ _
  omega

/-- For every codec, every contents and every chunk size but zero, the stream that is written announces
    the chunk size and has as many chunks as slices fit in, the last one perhaps in part, with nothing
    before, between and behind them. Each chunk is its slice compressed if that is strictly
    shorter, and the slice as it is if not. The length follows, and is at most that of the
    contents and of the headers. -/
theorem encode_layout (codec : Codec) {c : UInt64} (hc : c ≠ 0) (d : Bytes) :
    ∃ s cs, encode codec c d = .ok s ∧ Parses s c cs [] ∧ readHeader s = .ok c ∧ Standing s c cs ∧
      cs.length = d.length ⌈/⌉ c.toNat ∧
      (∀ i (hi : i < cs.length), cs[i] =
        let slice := d.extract (i * c.toNat) (min ((i + 1) * c.toNat) d.length)
        if (codec.compress slice).length < slice.length then ⟨0x01000000, codec.compress slice⟩ else ⟨0, slice⟩) ∧
      s.length = 12 + ((List.range cs.length).map fun i =>
        let slice := d.extract (i * c.toNat) (min ((i + 1) * c.toNat) d.length)
        16 + min slice.length (codec.compress slice).length).sum ∧
      s.length ≤ 12 + d.length + 16 * cs.length := by
  have hp := parses_packAll codec hc d (t := []) (by decide)
  rw [List.append_nil] at hp
  have hcs := packAll_eq_map codec hc d
  have hn : (packAll codec c d).length = d.length ⌈/⌉ c.toNat := by
    rw [hcs, List.length_map, List.length_range]
  refine ⟨_, _, encode_eq codec hc d, hp, readHeader_ofChunks c _ [], standing_ofChunks c hp.fits [], hn, ?_, ?_, ?_⟩
  · intro i hi
    simp only [hcs, List.getElem_map, List.getElem_range]
    rfl
  · rw [length_ofChunks, hn, hcs, List.map_map, List.length_nil, Nat.add_zero]
    refine congrArg (headerSize + ·) (congrArg List.sum (List.map_congr_left fun i _ => ?_))
    exact congrArg (chunkHeaderSize + ·) (length_body_pack codec (Bytes.slice c.toNat d i))
  · rw [hn]
    exact length_packAll_le codec hc d

/-- A codec that turns runs of zeros into their length and lengthens everything else. -/
theorem three_slices_laid_out :
    let codec : Codec := ⟨fun x => if x.all (· == 0) then [x.length.toUInt8] else 0xFF :: x, fun _ => .ok []⟩
    let d : Bytes := [0, 0, 7, 8, 0]
    (2 : UInt64) ≠ 0 ∧ ∃ s cs, encode codec 2 d = .ok s ∧ Parses s 2 cs [] ∧ Standing s 2 cs ∧
      cs = [⟨0x01000000, [2]⟩, ⟨0, [7, 8]⟩, ⟨0, [0]⟩] ∧ s.length = 64 := by
  intro codec d
  obtain ⟨s, cs, hs, hp, -, hstanding, hn, hi, hl, -⟩ := encode_layout codec (c := 2) (by decide) d
  have hn : cs.length = 3 := hn.trans (by decide)
  refine ⟨by decide, s, cs, hs, hp, hstanding, ?_, ?_⟩
  · have h0 : cs[0] = ⟨0x01000000, [2]⟩ := (hi 0 (by omega)).trans rfl
    have h1 : cs[1] = ⟨0, [7, 8]⟩ := (hi 1 (by omega)).trans rfl
    have h2 : cs[2] = ⟨0, [0]⟩ := (hi 2 (by omega)).trans rfl
    obtain ⟨x, y, z, rfl⟩ := List.length_eq_three.mp hn
    exact congr (congrArg _ h0) (congr (congrArg _ h1) (congrArg (· :: []) h2))
  · rw [hl, hn]
    rfl

end FlatPackage.Stream
