/-
  FlatPackage.Proofs.Xz.Written — what is written is a file with the contents it was written for.

  Of the two files that may be written, the one of stored pieces is followed octet by octet; the proposed one is read
  back before it is taken, so that nothing has to be known of how it came about.

  Proved:
  (1) `toList_pushAll`: octets that are pushed are there, in order.
  (2) `Chunks.isChunk_storedChunk`, `isChunks_slices`: a stored piece is a chunk, and all of them are the chunks of the
      contents they were cut from.
  (3) `isFile_compress`: what is written is a file with the contents, if the format has sizes for its block; it has
      for contents of less than 2^62 octets (`Writer.storable_of_lt`).
-/

import FlatPackage.Proofs.Slices
import FlatPackage.Proofs.Xz.Files
import FlatPackage.Xz.Writer

namespace FlatPackage.Xz

variable {c : Chunks} {piece s : Bytes} {pieces : List Bytes} {records : List Record} {n : Nat}

/-! ## (1) Octets in an array -/

theorem toList_loop (a : ByteArray) (i : Nat) (sofar : Bytes) :
    ByteArray.toList.loop a i sofar = sofar.reverse ++ a.data.toList.drop i := by
  induction i, sofar using ByteArray.toList.loop.induct a with
  | case1 i sofar hlt ih =>
    have hi : i < a.data.toList.length := hlt
    have hget : a.get! i = a.data.toList[i] := by
      rw [Array.getElem_toList]
      exact getElem!_pos a.data i hlt
    rw [ByteArray.toList.loop, if_pos hlt, ih, List.drop_eq_getElem_cons hi, hget, List.reverse_cons, List.append_assoc]
    rfl
  | case2 i sofar hge =>
    have hi : a.data.toList.length ≤ i := Nat.not_lt.mp hge
    rw [ByteArray.toList.loop, if_neg hge, List.drop_eq_nil_of_le hi, List.append_nil]

theorem toList_eq_data (a : ByteArray) : a.toList = a.data.toList := by
  rw [ByteArray.toList, toList_loop]
  rfl

theorem toList_pushAll (a : ByteArray) (s : Bytes) : (Chunks.pushAll a s).toList = a.toList ++ s := by
  induction s generalizing a with
  | nil => exact (List.append_nil _).symm
  | cons b s ih =>
    have hpush : (a.push b).toList = a.toList ++ [b] := by
      rw [toList_eq_data, toList_eq_data, ByteArray.data_push, Array.toList_push]
    rw [Chunks.pushAll, List.foldl_cons, ← Chunks.pushAll, ih, hpush, List.append_assoc]
    rfl

theorem size_eq_length_toList (a : ByteArray) : a.size = a.toList.length := by
  rw [toList_eq_data]
  rfl

theorem pushAll_append (a : ByteArray) (s t : Bytes) :
    Chunks.pushAll a (s ++ t) = Chunks.pushAll (Chunks.pushAll a s) t := List.foldl_append

/-! ## (2) Stored pieces -/

namespace Chunks

theorem isSize_size16 (hpos : 0 < n) (hle : n ≤ Writer.pieceSize) : IsSize (Writer.size16 n) n := by
  have hsize : Writer.pieceSize = 65536 := rfl
  have hhigh := Varint.toNat_toUInt8 (n := (n - 1) / 256) (by omega)
  have hlow := Varint.toNat_toUInt8 (n := (n - 1) % 256) (by omega)
  refine ⟨_, _, rfl, ?_⟩
  rw [hhigh, hlow]
  omega

/-- A stored piece is a chunk that puts it behind what there is. -/
theorem isChunk_storedChunk {first : Bool} (hc : first = true ∨ c.needsDictionary = false) (hpos : 0 < piece.length)
    (hle : piece.length ≤ Writer.pieceSize) : ∃ d, IsChunk c (Writer.storedChunk first piece) piece.length d ∧
      d.needsDictionary = false ∧ d.memory.out = pushAll c.memory.out piece := by
  have hsize := isSize_size16 hpos hle
  cases first with
  | true => exact ⟨_, .renewing rfl (.stored (by decide) hsize), rfl, rfl⟩
  | false =>
    have hdict : c.needsDictionary = false := hc.resolve_left Bool.false_ne_true
    exact ⟨_, .going (by decide) rfl hdict (.stored (by decide) hsize), hdict, rfl⟩

/-- Stored pieces and the end mark are chunks for what they were cut from. -/
theorem isChunks_storedChunks {first : Bool} (hpieces : ∀ x ∈ pieces, 0 < x.length ∧ x.length ≤ Writer.pieceSize)
    (hc : first = true ∨ c.needsDictionary = false) :
    IsChunks c (Writer.storedChunks first pieces) (pushAll c.memory.out pieces.flatten) := by
  induction pieces generalizing first c with
  | nil => exact .ended
  | cons piece pieces ih =>
    obtain ⟨⟨hpos, hle⟩, hrest⟩ := List.forall_mem_cons.mp hpieces
    obtain ⟨d, hchunk, hdict, hout⟩ := isChunk_storedChunk hc hpos hle
    rw [Writer.storedChunks, List.flatten_cons, pushAll_append, ← hout]
    exact .chunk hchunk (ih hrest (.inr hdict))

end Chunks

/-- The contents as they are written come out of the chunks of their pieces. -/
theorem isChunks_slices (window : Nat) (s : Bytes) : Chunks.IsChunks (.start window none)
    (Writer.storedChunks true (Bytes.slices Writer.pieceSize s)) (Chunks.pushAll .empty s) := by
  have hpieces : ∀ x ∈ Bytes.slices Writer.pieceSize s, 0 < x.length ∧ x.length ≤ Writer.pieceSize :=
    fun x hx => Bytes.length_of_mem_slices (by decide) hx
  have hchunks := Chunks.isChunks_storedChunks (c := .start window none) hpieces (.inl rfl)
  rwa [Bytes.flatten_slices] at hchunks

/-! ## (3) Files of one block -/

namespace Writer

def header : BlockHeader := ⟨blockHeader.length, none, none, ⟨[], Chain.windowOf 22⟩⟩

theorem isHeader_blockHeader (check : Check) : BlockHeader.IsHeader check blockHeader header := by
  have hentry : Chain.IsEntry [0x21, 1, 22] (.lzma2 (Chain.windowOf 22)) := by
    refine ⟨0x21, [22], ?_, by decide, by decide, rfl⟩
    rw [Varint.write_of_lt (by decide), Varint.write_of_lt (by decide)]
    rfl
  exact ⟨2, [0, 0x21, 1, 22, 0, 0, 0], rfl, by decide, rfl, 0, [0x21, 1, 22], 3, rfl, rfl, rfl, rfl, rfl, rfl, rfl,
    _, .cons hentry .nil, rfl, rfl⟩

theorem isBlock_block {packed : Bytes} {out : ByteArray} (h : Chunks.IsChunks (.start (Chain.windowOf 22) none) packed out) :
    IsBlock Check.crc64 (block packed out.toList) (record packed out.toList, out.toList) := by
  refine ⟨header, blockHeader, packed, out, Check.tag out.toList, ?_, isHeader_blockHeader _, h, rfl, rfl, rfl, ?_, ?_⟩
  · simp only [block, List.append_assoc]
  · exact beq_self_eq_true _
  · rw [record, size_eq_length_toList]
    rfl

/-- The block of the stored pieces is not too large for the format, in which no size reaches 2^63. It never is for less
    than 2^62 octets (`storable_of_lt`). -/
def Storable (s : Bytes) : Prop := (record (storedChunks true (Bytes.slices pieceSize s)) s).unpadded ≤ unpaddedLimit

theorem length_storedChunks (first : Bool) (pieces : List Bytes) :
    (storedChunks first pieces).length = pieces.flatten.length + 3 * pieces.length + 1 := by
  induction pieces generalizing first with
  | nil => rfl
  | cons piece pieces ih =>
    rw [storedChunks, List.length_append, ih, storedChunk, List.length_cons, List.length_append, size16, List.flatten_cons,
      List.length_append, List.length_cons]
    simp only [List.length_cons, List.length_nil]
    omega

theorem unpadded_stored (s : Bytes) : (record (storedChunks true (Bytes.slices pieceSize s)) s).unpadded =
    s.length + 3 * (s.length ⌈/⌉ pieceSize) + 21 := by
  show 12 + (storedChunks true (Bytes.slices pieceSize s)).length + 8 = _
  rw [length_storedChunks, Bytes.flatten_slices, Bytes.length_slices (by decide)]
  omega

theorem storable_of_lt (h : s.length < Nat.pow 2 62) : Storable s := by
  have hsize : pieceSize = 65536 := rfl
  have hpow : Nat.pow 2 62 = 4611686018427387904 := by decide
  have hlimit : unpaddedLimit = 9223372036854775804 := by decide
  rw [Storable, unpadded_stored, Nat.ceilDiv_eq_add_pred_div, hsize]
  omega

theorem fits_stored (h : Storable s) : (record (storedChunks true (Bytes.slices pieceSize s)) s).Fits := by
  have hlimit : unpaddedLimit < sizeLimit := by decide
  have hunpadded := unpadded_stored s
  refine ⟨by omega, h, ?_⟩
  show s.length < sizeLimit
  rw [Storable] at h
  omega

end Writer

/-- Seven bits to an octet. -/
theorem Varint.length_write_le {k n : Nat} (h : n < Nat.pow 128 (k + 1)) : (Varint.write n).length ≤ k + 1 := by
  induction k generalizing n with
  | zero => rw [Varint.write_of_lt h, List.length_singleton]
  | succ k ih =>
    rw [Varint.write]
    split
    · exact Nat.succ_le_succ (Nat.zero_le _)
    · have hpow : Nat.pow 128 (k + 1 + 1) = Nat.pow 128 (k + 1) * 128 := rfl
      exact Nat.succ_le_succ (ih (by omega))

theorem Record.length_write_le {b : Record} (h : b.Fits) : b.write.length ≤ 18 := by
  have hlimit : sizeLimit = Nat.pow 128 9 := by decide
  have hunpadded : (Varint.write b.unpadded).length ≤ 9 :=
    Varint.length_write_le (hlimit ▸ Nat.lt_of_le_of_lt h.most (by decide))
  have hcontents : (Varint.write b.contents).length ≤ 9 := Varint.length_write_le (hlimit ▸ h.contents)
  rw [Record.write, List.length_append]
  omega

theorem Index.length_write_records_le (hfit : ∀ b ∈ records, b.Fits) :
    (records.flatMap Record.write).length ≤ 18 * records.length := by
  induction records with
  | nil => exact Nat.le_refl 0
  | cons b records ih =>
    obtain ⟨hb, hrest⟩ := List.forall_mem_cons.mp hfit
    have hwrite := Record.length_write_le hb
    have hsum := ih hrest
    rw [List.flatMap_cons, List.length_append, List.length_cons]
    omega

/-- A few blocks have a small index. -/
theorem Index.size_le (hfit : ∀ b ∈ records, b.Fits) (hlen : records.length < 128) :
    Index.size records ≤ 9 + 18 * records.length := by
  have hwrite := congrArg List.length (Index.write_eq records)
  have hsum := Index.length_write_records_le hfit
  have hpad : (Bytes.zeros (Bytes.padding4 (Index.listed records))).length ≤ 3 := by
    rw [Bytes.zeros, List.length_replicate, Bytes.padding4]
    omega
  rw [Index.write, List.length_append, List.length_cons, List.length_append, List.length_append, List.length_append,
    Varint.write_of_lt hlen, List.length_singleton, Bytes.length_le32] at hwrite
  rw [Index.size]
  omega

namespace Writer

theorem isFile_file {text : Bytes} {blocks : List (Record × Bytes)} (hb : Strung (IsBlock Check.crc64) text blocks)
    (hfit : ∀ b ∈ blocks, b.1.Fits) (hlen : blocks.length ≤ 1) :
    IsFile (file text (blocks.map Prod.fst)) (blocks.flatMap Prod.snd) := by
  refine ⟨Check.crc64, text, blocks, rfl, by decide, hb, Nat.lt_of_le_of_lt hlen (by decide), hfit, ?_, rfl⟩
  have hrecords : ∀ r ∈ blocks.map Prod.fst, r.Fits := by simpa using hfit
  have hsize := Index.size_le hrecords (by rw [List.length_map]; omega)
  rw [List.length_map] at hsize
  exact Nat.le_trans hsize (Nat.le_trans (Nat.add_le_add_left (Nat.mul_le_mul_left 18 hlen) 9) (by decide))

theorem isFile_storedFile (h : Storable s) : IsFile (storedFile s) s := by
  have hout : (Chunks.pushAll .empty s).toList = s := by
    rw [toList_pushAll, ByteArray.toList_empty, List.nil_append]
  have hblock := isBlock_block (isChunks_slices (Chain.windowOf 22) s)
  rw [hout] at hblock
  have hfile := isFile_file (.cons hblock .nil) (by simpa using fits_stored h) (Nat.le_refl 1)
  simpa [storedFile, blockFile] using hfile

theorem isFile_of_holds {file : Bytes} (h : holds file s = true) : IsFile file s := by
  unfold holds at h
  split at h
  · rename_i found hread
    obtain rfl := eq_of_beq h
    exact (File.accepts_read _ _ found).iff_whole.mpr hread
  · cases h

end Writer

/-- Whatever is written is a file with the contents it was written for. -/
theorem isFile_compress (h : Writer.Storable s) : IsFile (compress s) s := by
  unfold compress
  split
  · rename_i hs
    obtain rfl := List.isEmpty_iff.mp hs
    have hnone : Strung (IsBlock Check.crc64) [] [] := .nil
    have hfile := Writer.isFile_file hnone (by simp) (Nat.zero_le 1)
    exact hfile
  · split
    · exact Writer.isFile_storedFile h
    · simp only
      split
      · rename_i hholds
        exact Writer.isFile_of_holds hholds
      · exact Writer.isFile_storedFile h

end FlatPackage.Xz
