/-
  FlatPackage.Proofs.Stream.Frame — headers and chunks, as they are written and as they are read.

  Proved:
  (1) `readHeader_ok_iff`: a chunk size is announced by exactly the texts that start with the
      header written for it.
  (2) `ofBytes_append` / `bytes_ofBytes`: the two words in front of a chunk read back as they were
      written, and sixteen octets are what is written for the words they read as.
  (3) `split_front`: any sixteen octets or more either declare more than follows them, or
      start with a chunk, and then with exactly one.
-/

import FlatPackage.Proofs.Words
import FlatPackage.Stream.Frame

namespace FlatPackage.Stream

/-! ## The stream's header -/

@[simp] theorem length_header (n : UInt64) : (header n).length = headerSize := rfl

theorem isStream_iff (s : Bytes) : isStream s = true ↔ ∃ r, s = magic ++ r := by
  simp only [isStream, beq_iff_eq]
  constructor
  · intro h
    exact ⟨s.drop 4, by rw [← h, List.take_append_drop]⟩
  · rintro ⟨r, rfl⟩
    rfl

theorem readHeader_append (n : UInt64) (r : Bytes) : readHeader (header n ++ r) = .ok n := by
  have hl : ¬ (header n ++ r).length < headerSize := by rw [List.length_append, length_header]; omega
  have hm : isStream (header n ++ r) = true :=
    (isStream_iff _).mpr ⟨Bytes.be64 n ++ r, by rw [header, List.append_assoc]⟩
  have hw : ((header n ++ r).drop 4).take 8 = Bytes.be64 n := rfl
  rw [readHeader, if_neg hl, if_pos hm, hw, Bytes.ofBe64_be64]

theorem readHeader_ok_iff (s : Bytes) (n : UInt64) : readHeader s = .ok n ↔ ∃ r, s = header n ++ r := by
  constructor
  · intro h
    unfold readHeader at h
    split at h
    · cases h
    rename_i hl
    split at h
    · rename_i hm
      injection h with h
      obtain ⟨r, rfl⟩ := (isStream_iff s).mp hm
      have hr : (r.take 8).length = 8 := by
        rw [List.length_take]
        rw [List.length_append] at hl
        simp only [headerSize, magic, List.length_cons, List.length_nil] at hl
        omega
      refine ⟨r.drop 8, ?_⟩
      have hw : ((magic ++ r).drop 4).take 8 = r.take 8 := rfl
      rw [hw] at h
      rw [header, ← h, Bytes.be64_ofBe64 hr, List.append_assoc, List.take_append_drop]
    · cases h
  · rintro ⟨r, rfl⟩
    exact readHeader_append n r

/-! ## The words in front of a chunk -/

namespace ChunkHeader

@[simp] theorem length_bytes (h : ChunkHeader) : h.bytes.length = chunkHeaderSize := rfl

theorem ofBytes_append (h : ChunkHeader) (r : Bytes) : ofBytes (h.bytes ++ r) = h := by
  have hf : (h.bytes ++ r).take 8 = Bytes.be64 h.flags := rfl
  have hn : ((h.bytes ++ r).drop 8).take 8 = Bytes.be64 h.length := rfl
  rw [ofBytes, hf, hn, Bytes.ofBe64_be64, Bytes.ofBe64_be64]

/-- Only the first sixteen octets are looked at. -/
theorem ofBytes_take {m : Nat} (h : chunkHeaderSize ≤ m) (s : Bytes) : ofBytes (s.take m) = ofBytes s := by
  simp only [chunkHeaderSize] at h
  have hf : (s.take m).take 8 = s.take 8 := by
    rw [List.take_take, Nat.min_eq_left (by omega)]
  have hn : ((s.take m).drop 8).take 8 = (s.drop 8).take 8 := by
    rw [List.drop_take, List.take_take, Nat.min_eq_left (by omega)]
  rw [ofBytes, ofBytes, hf, hn]

theorem bytes_ofBytes {s : Bytes} (h : chunkHeaderSize ≤ s.length) : (ofBytes s).bytes = s.take chunkHeaderSize := by
  simp only [chunkHeaderSize] at h ⊢
  have hf : (s.take 8).length = 8 := by rw [List.length_take]; omega
  have hn : ((s.drop 8).take 8).length = 8 := by rw [List.length_take, List.length_drop]; omega
  rw [bytes, ofBytes, Bytes.be64_ofBe64 hf, Bytes.be64_ofBe64 hn, ← List.take_add]

end ChunkHeader

/-! ## Chunks -/

namespace Chunk

/-- The length of the body is one that a header can tell. -/
def Fits (c : Chunk) : Prop := c.body.length < 2 ^ 64

@[simp] theorem length_bytes (c : Chunk) : c.bytes.length = chunkHeaderSize + c.body.length := by
  rw [bytes, List.length_append, ChunkHeader.length_bytes]

theorem Fits.toNat_length {c : Chunk} (h : c.Fits) : c.header.length.toNat = c.body.length := by
  show (UInt64.ofNat c.body.length).toNat = _
  rw [UInt64.toNat_ofNat', Nat.mod_eq_of_lt h]

theorem ofBytes_bytes (c : Chunk) (r : Bytes) : ChunkHeader.ofBytes (c.bytes ++ r) = c.header := by
  rw [bytes, List.append_assoc, ChunkHeader.ofBytes_append]

theorem drop_bytes (c : Chunk) (r : Bytes) : (c.bytes ++ r).drop chunkHeaderSize = c.body ++ r := by
  rw [bytes, List.append_assoc]
  exact List.drop_left' (ChunkHeader.length_bytes _)

end Chunk

/-- Octets that a chunk's header could be in front of declare too much, or start with a chunk. -/
theorem split_front {s : Bytes} (h : chunkHeaderSize ≤ s.length) :
    s.length - chunkHeaderSize < (ChunkHeader.ofBytes s).length.toNat ∨ ∃ c r, Chunk.Fits c ∧ s = c.bytes ++ r := by
  by_cases hn : s.length - chunkHeaderSize < (ChunkHeader.ofBytes s).length.toNat
  · exact Or.inl hn
  right
  have hw := (ChunkHeader.ofBytes s).length.toNat_lt
  let c : Chunk := ⟨(ChunkHeader.ofBytes s).flags, (s.drop chunkHeaderSize).take (ChunkHeader.ofBytes s).length.toNat⟩
  have hb : c.body.length = (ChunkHeader.ofBytes s).length.toNat := by
    show ((s.drop chunkHeaderSize).take _).length = _
    rw [List.length_take, List.length_drop]
    omega
  have hc : c.header = ChunkHeader.ofBytes s := by
    show (⟨(ChunkHeader.ofBytes s).flags, c.body.length.toUInt64⟩ : ChunkHeader) = _
    rw [hb]
    simp
  refine ⟨c, (s.drop chunkHeaderSize).drop (ChunkHeader.ofBytes s).length.toNat, ?_, ?_⟩
  · show c.body.length < _
    omega
  · rw [Chunk.bytes, hc, ChunkHeader.bytes_ofBytes h, List.append_assoc, List.take_append_drop,
      List.take_append_drop]

end FlatPackage.Stream
