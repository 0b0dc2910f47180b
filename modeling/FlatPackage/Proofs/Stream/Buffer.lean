/-
  FlatPackage.Proofs.Stream.Buffer — what is pushed to a buffer is read back from it.

  The loop that pushes a word goes down from its top octet and the loop that reads one shifts what it has
  read up, so neither undoes the other turn by turn. What one turn pushes is one digit of the number that
  the word stands for (`number_lowest`); with all eight the loop has spelled the word, and by `Words`
  there is one way to spell it. A chunk's words say where it ends, so chunks that follow each other come
  apart again in one way (`texts_inj`).

  Proved:
  (1) `pushOctets_eq`, `pushWord_eq`: what the loop pushes.
  (2) `pushChunk_eq`, `pushChunks_eq`: the buffer stays, and the text of the chunks comes behind it.
  (3) `reads_back`: words and chunks that are pushed are read back, and one buffer is left by one list of
      chunks only.
  Trace: a chunk with a body and one without, behind another octet (`two_chunks_behind_an_octet`).
-/

import FlatPackage.Proofs.Stream.Split
import FlatPackage.Stream.Buffer

namespace FlatPackage.Stream

open FlatPackage.Bytes (number)

variable {k : Nat} {v : UInt64} {cs cs' : List Chunk}

/-! ## (1) Words -/

/-- The lowest octets of a word, the most significant of them first. -/
def lowest (v : UInt64) : Nat → Bytes
  | 0 => []
  | index + 1 => (v >>> (8 * index).toUInt64).toUInt8 :: lowest v index

theorem length_lowest (v : UInt64) (k : Nat) : (lowest v k).length = k := by
  induction k with
  | zero => rfl
  | succ k ih => rw [lowest, List.length_cons, ih]

theorem pushOctets_eq (v : UInt64) (k : Nat) (buffer : Bytes) : pushOctets v k buffer = buffer ++ lowest v k := by
  induction k generalizing buffer with
  | zero => exact (List.append_nil buffer).symm
  | succ k ih => rw [pushOctets, ih, lowest, List.append_assoc, List.singleton_append]

/-- The lowest octets spell what is left of the word without the others. -/
theorem number_lowest (hk : k ≤ 8) : number (lowest v k) = v.toNat % 256 ^ k := by
  induction k with
  | zero => simp [lowest, number, Nat.mod_one]
  | succ k ih =>
    have hshift : (8 * k).toUInt64.toNat = 8 * k := UInt64.toNat_ofNat_of_lt' (by show 8 * k < 2 ^ 64; omega)
    have hlt : (8 * k).toUInt64 < 64 := by
      rw [UInt64.lt_iff_toNat_lt, hshift]
      show 8 * k < 64
      omega
    have hpow : 2 ^ (8 * k) = 256 ^ k := Nat.pow_mul 2 8 k
    have hone : number [(v >>> (8 * k).toUInt64).toUInt8] = v.toNat / 256 ^ k % 256 := by
      have htop := Bytes.toNat_shiftRight_octet v hlt
      rw [hshift, hpow] at htop
      rw [← List.nil_append [_], Bytes.number_append_singleton, htop]
      simp [number]
    have hcut := Bytes.number_append [(v >>> (8 * k).toUInt64).toUInt8] (lowest v k)
    rw [List.singleton_append, hone, length_lowest, ih (by omega)] at hcut
    rw [lowest, hcut, Nat.mod_pow_succ, Nat.add_comm, Nat.mul_comm]

theorem pushWord_eq (v : UInt64) (buffer : Bytes) : pushWord v buffer = buffer ++ Bytes.be64 v := by
  have hv : v.toNat < 256 ^ 8 := v.toNat_lt
  have hnumber : number (lowest v 8) = number (Bytes.be64 v) := by
    rw [number_lowest (Nat.le_refl 8), Bytes.number_be64, Nat.mod_eq_of_lt hv]
  rw [pushWord, pushOctets_eq, Bytes.number_inj (length_lowest v 8) hnumber]

/-! ## (2) Chunks -/

theorem pushChunk_eq (buffer : Bytes) (c : Chunk) : pushChunk buffer c = buffer ++ c.bytes := by
  have hbody : ∀ b : Bytes, (if 0 < c.body.length then b ++ c.body else b) = b ++ c.body := by
    intro b
    split
    · rfl
    · rename_i hempty
      rw [List.length_eq_zero_iff.mp (Nat.eq_zero_of_not_pos hempty), List.append_nil]
  rw [pushChunk, hbody, pushWord_eq, pushWord_eq, Chunk.bytes, ChunkHeader.bytes]
  simp only [List.append_assoc]

theorem pushChunks_eq (buffer : Bytes) (cs : List Chunk) : pushChunks buffer cs = buffer ++ texts cs := by
  induction cs generalizing buffer with
  | nil => exact (List.append_nil buffer).symm
  | cons c cs ih =>
    have hrest : pushChunks buffer (c :: cs) = pushChunks (pushChunk buffer c) cs := rfl
    rw [hrest, ih, pushChunk_eq, texts, texts, List.flatMap_cons, List.append_assoc]

/-- A chunk's words are at the buffer's old end and its body behind them, whatever is pushed afterwards. -/
theorem chunk_at_end (buffer : Bytes) (c : Chunk) (after : Bytes) :
    ChunkHeader.ofBytes ((pushChunk buffer c ++ after).drop buffer.length) = c.header ∧
      (pushChunk buffer c ++ after).drop (buffer.length + chunkHeaderSize) = c.body ++ after := by
  have hend : (pushChunk buffer c ++ after).drop buffer.length = c.bytes ++ after := by
    rw [pushChunk_eq, List.append_assoc, List.drop_left]
  rw [← List.drop_drop, hend]
  exact ⟨c.ofBytes_bytes after, c.drop_bytes after⟩

/-- Chunks in a row can be told apart: with a header in front they are a stream. -/
theorem texts_inj (hcs : ∀ c ∈ cs, c.Fits) (hcs' : ∀ c ∈ cs', c.Fits) (h : texts cs = texts cs') : cs = cs' := by
  have hs : Parses (ofChunks 0 cs []) 0 cs [] := ⟨rfl, hcs, by decide⟩
  have hs' : Parses (ofChunks 0 cs []) 0 cs' [] := ⟨by rw [ofChunks, ofChunks, ← texts, h], hcs', by decide⟩
  exact (hs.unique hs').2.1

/-! ## (3) Reading back -/

/-- A word that is pushed is eight octets more, which read as the word; any eight octets are pushed for the word
    that they read as. A chunk whose length is one that a header can tell leaves the buffer as it was and
    is as many octets more as its header and its body have; its flags and its length are read at the
    buffer's old end and its body follows. Two lists of such chunks leave one buffer only if they are the
    same list. -/
theorem reads_back :
    (∀ v buffer, ∃ octets, pushWord v buffer = buffer ++ octets ∧ octets.length = 8 ∧ Bytes.ofBe64 octets = v) ∧
    (∀ octets buffer, octets.length = 8 → pushWord (Bytes.ofBe64 octets) buffer = buffer ++ octets) ∧
    (∀ buffer c, Chunk.Fits c →
      (∃ octets, pushChunk buffer c = buffer ++ octets ∧ octets.length = 16 + c.body.length) ∧
      ∀ after, ∃ length : UInt64, length.toNat = c.body.length ∧
        ChunkHeader.ofBytes ((pushChunk buffer c ++ after).drop buffer.length) = ⟨c.flags, length⟩ ∧
        (pushChunk buffer c ++ after).drop (buffer.length + 16) = c.body ++ after) ∧
    (∀ buffer cs cs', (∀ c ∈ cs, Chunk.Fits c) → (∀ c ∈ cs', Chunk.Fits c) →
      pushChunks buffer cs = pushChunks buffer cs' → cs = cs') := by
  refine ⟨fun v buffer => ⟨Bytes.be64 v, pushWord_eq v buffer, Bytes.length_be64 v, Bytes.ofBe64_be64 v⟩,
    fun octets buffer hl => ?_, fun buffer c hc => ⟨⟨c.bytes, pushChunk_eq buffer c, c.length_bytes⟩, fun after => ?_⟩,
    fun buffer cs cs' hcs hcs' h => ?_⟩
  · rw [pushWord_eq, Bytes.be64_ofBe64 hl]
  · obtain ⟨hwords, hbody⟩ := chunk_at_end buffer c after
    exact ⟨c.header.length, hc.toNat_length, hwords, hbody⟩
  · rw [pushChunks_eq, pushChunks_eq] at h
    exact texts_inj hcs hcs' (List.append_cancel_left h)

/-- Eight octets of ones, a chunk of two octets and an empty one behind an octet. No other two chunks leave the
    same buffer. -/
theorem two_chunks_behind_an_octet :
    let ones : Bytes := List.replicate 8 0xFF
    let c : Chunk := ⟨xzFlags, [7, 8]⟩
    let empty : Chunk := ⟨5, []⟩
    pushWord (Bytes.ofBe64 ones) [9] = 9 :: ones ∧ c.Fits ∧ empty.Fits ∧
      ChunkHeader.ofBytes ((pushChunk [9] c).drop 1) = ⟨xzFlags, 2⟩ ∧ (pushChunk [9] c).drop 17 = [7, 8] ∧
      ∀ d d' : Chunk, d.Fits → d'.Fits → pushChunks [9] [d, d'] = pushChunks [9] [c, empty] → d = c ∧ d' = empty := by
  intro ones c empty
  have hc : c.Fits := by
    show 2 < 2 ^ 64
    decide
  have hempty : empty.Fits := by
    show 0 < 2 ^ 64
    decide
  obtain ⟨-, hones, hchunk, hinj⟩ := reads_back
  obtain ⟨length, hlength, hwords, hbody⟩ := (hchunk [9] c hc).2 []
  rw [List.append_nil] at hwords hbody
  have htwo : length = 2 := UInt64.toNat_inj.mp hlength
  refine ⟨hones ones [9] rfl, hc, hempty, htwo ▸ hwords, hbody, fun d d' hd hd' h => ?_⟩
  have hlists := hinj [9] [d, d'] [c, empty] (by simp [hd, hd']) (by simp [hc, hempty]) h
  exact ⟨(List.cons.inj hlists).1, (List.cons.inj (List.cons.inj hlists).2).1⟩

end FlatPackage.Stream
