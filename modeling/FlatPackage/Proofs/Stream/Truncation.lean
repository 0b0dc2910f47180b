/-
  FlatPackage.Proofs.Stream.Truncation — what is left of a stream that was cut off.

  Chunks follow each other without gaps, so a place in a stream is either in its header or behind
  some number of whole chunks (`boundary`). Cut there, the stream has just these chunks and the
  front of what came next (`take_ofChunks`). If that front is too short for a chunk's header it
  is taken for a tail; otherwise it starts with the header of the next chunk, which now asks for
  more than there is. No chunk is opened that was not there as a whole.

  Proved:
  (1) `exists_last_boundary`: behind the header there is a last chunk that ends before the cut.
  (2) `decode_take_tail` / `decode_take_cut`: what decoding makes of the cut stream.
  (3) `decode_take`: this for every cut of every stream that decodes.
  Trace: a raw chunk, an empty one and a tail (`a_stream_cut_anywhere`).
-/

import FlatPackage.Proofs.Stream.Contents
import FlatPackage.Proofs.Stream.Layout
import Mathlib.Data.Nat.Find
import Mathlib.Order.Bounds.Basic

namespace FlatPackage.Stream

/-! ## (1) Boundaries -/

/-- Where the first `i` chunks end, counted from the start of the stream. -/
def boundary (cs : List Chunk) (i : Nat) : Nat := 12 + ((cs.take i).map fun c => 16 + c.body.length).sum

theorem boundary_eq (cs : List Chunk) (i : Nat) : boundary cs i = headerSize + (texts (cs.take i)).length := by
  rw [length_texts]
  rfl

/-- One chunk more takes its header and its body. -/
theorem boundary_succ {cs : List Chunk} {i : Nat} {c : Chunk} (h : cs[i]? = some c) :
    boundary cs (i + 1) = boundary cs i + (16 + c.body.length) := by
  rw [boundary, boundary, List.take_add_one, h, List.map_append, List.sum_append, Nat.add_assoc]
  rfl

/-- Behind the header a cut has a last chunk that is there as a whole. -/
theorem exists_last_boundary (cs : List Chunk) {k : Nat} (hk : 12 ≤ k) :
    ∃ i, IsGreatest {j | j ≤ cs.length ∧ boundary cs j ≤ k} i := by
  refine ⟨Nat.findGreatest (fun j => boundary cs j ≤ k) cs.length, ⟨Nat.findGreatest_le _, ?_⟩, ?_⟩
  · exact Nat.findGreatest_spec (P := fun j => boundary cs j ≤ k) (Nat.zero_le _) hk
  · intro j hj
    exact Nat.le_findGreatest hj.1 hj.2

theorem ofChunks_split (n : UInt64) (cs : List Chunk) (tail : Bytes) (i : Nat) :
    ofChunks n cs tail = (header n ++ texts (cs.take i)) ++ (texts (cs.drop i) ++ tail) := by
  have hcs : texts cs = texts (cs.take i) ++ texts (cs.drop i) := by
    rw [texts, texts, texts, ← List.flatMap_append, List.take_append_drop]
  rw [ofChunks, ← texts, hcs]
  simp only [List.append_assoc]

theorem length_front (n : UInt64) (cs : List Chunk) (i : Nat) :
    (header n ++ texts (cs.take i)).length = boundary cs i := by
  rw [List.length_append, length_header, boundary_eq]

/-- A cut behind the first `i` chunks leaves them and the front of the rest. -/
theorem take_ofChunks (n : UInt64) {cs : List Chunk} (tail : Bytes) {i k : Nat} (h : boundary cs i ≤ k) :
    (ofChunks n cs tail).take k =
      ofChunks n (cs.take i) ((texts (cs.drop i) ++ tail).take (k - boundary cs i)) := by
  have hl := length_front n cs i
  rw [ofChunks_split n cs tail i, List.take_append, hl, List.take_of_length_le (by omega)]
  rfl

/-! ## (2) Decoding a cut stream -/

/-- What is left of a chunk that was cut behind its header asks for more than there is. -/
theorem stops_take_chunk (offset : Nat) {c : Chunk} (hc : c.Fits) (after : Bytes) {m : Nat} (hm : 16 ≤ m)
    (hl : m < 16 + c.body.length) :
    Stops offset ((c.bytes ++ after).take m) (.cut c.header.length (offset + 16) (m - 16)) := by
  have hlen : ((c.bytes ++ after).take m).length = m := by
    refine List.length_take_of_le ?_
    rw [List.length_append, Chunk.length_bytes, chunkHeaderSize]
    omega
  have hword : ChunkHeader.ofBytes ((c.bytes ++ after).take m) = c.header := by
    rw [ChunkHeader.ofBytes_take hm, Chunk.ofBytes_bytes]
  have h : Stops offset ((c.bytes ++ after).take m) _ := .cut (by rw [hlen]; exact hm) ?_
  · rwa [hlen, hword] at h
  · rw [hlen, hword, hc.toNat_length, chunkHeaderSize]
    omega

theorem decode_take_short (codec : Codec) {s : Bytes} {k : Nat} (hl : k ≤ s.length) (hk : k < 12) :
    decode codec (s.take k) = .error (.shortStream k) := by
  have hlen : (s.take k).length = k := List.length_take_of_le hl
  have hh : readHeader (s.take k) = .error (.shortStream k) := by
    rw [readHeader, hlen]
    exact if_pos hk
  rw [decode, hh]
  rfl

variable {codec : Codec} {s tail : Bytes} {n : UInt64} {cs : List Chunk} {parts : List Bytes}

theorem Parses.fits_take (hs : Parses s n cs tail) (i : Nat) : ∀ c ∈ cs.take i, c.Fits :=
  fun c hc => hs.fits c (List.mem_of_mem_take hc)

/-- The cut is behind a chunk, or in the header of the next one. -/
theorem decode_take_tail (hs : Parses s n cs tail) (hp : OpenAll codec cs parts) {i k : Nat}
    (hb : boundary cs i ≤ k) (hk : k - boundary cs i < 16) : decode codec (s.take k) = .ok (parts.take i).flatten := by
  have hshort : ((texts (cs.drop i) ++ tail).take (k - boundary cs i)).length < chunkHeaderSize :=
    Nat.lt_of_le_of_lt (List.length_take_le _ _) hk
  rw [hs.text, take_ofChunks n tail hb]
  exact decode_of_parses ⟨rfl, hs.fits_take i, hshort⟩ (List.forall₂_take i hp)

/-- With a header's length or more behind the last whole chunk there is another chunk, and the cut
    goes through it. -/
theorem chunk_at_cut (hs : Parses s n cs tail) {i k : Nat} (hi : IsGreatest {j | j ≤ cs.length ∧ boundary cs j ≤ k} i)
    (hl : k ≤ s.length) (hk : 16 ≤ k - boundary cs i) :
    ∃ c after, cs[i]? = some c ∧ texts (cs.drop i) ++ tail = c.bytes ++ after ∧
      k - boundary cs i < 16 + c.body.length := by
  have hlen : s.length = boundary cs i + (texts (cs.drop i) ++ tail).length := by
    rw [hs.text, ofChunks_split n cs tail i, List.length_append, length_front]
  have hlt : i < cs.length := by
    by_contra hge
    have ht := hs.short
    rw [List.drop_eq_nil_of_le (Nat.le_of_not_lt hge), texts, List.flatMap_nil, List.nil_append] at hlen
    simp only [chunkHeaderSize] at ht
    omega
  have hget : cs[i]? = some cs[i] := List.getElem?_eq_getElem hlt
  refine ⟨cs[i], texts (cs.drop (i + 1)) ++ tail, hget, ?_, ?_⟩
  · rw [List.drop_eq_getElem_cons hlt, texts, List.flatMap_cons, List.append_assoc]
  · have hnext : k < boundary cs (i + 1) := by
      by_contra hge
      have hle : i + 1 ≤ i := hi.2 ⟨hlt, Nat.le_of_not_lt hge⟩
      omega
    rw [boundary_succ hget] at hnext
    omega

/-- The cut is behind the header of the next chunk and not behind its body. -/
theorem decode_take_cut (hs : Parses s n cs tail) (hp : OpenAll codec cs parts) {i k : Nat}
    (hi : IsGreatest {j | j ≤ cs.length ∧ boundary cs j ≤ k} i) (hl : k ≤ s.length) (hk : 16 ≤ k - boundary cs i) :
    ∃ c, cs[i]? = some c ∧
      decode codec (s.take k) = .error (.cutChunk c.header.length (boundary cs i + 16) (k - boundary cs i - 16)) := by
  obtain ⟨c, after, hget, hrest, hlt⟩ := chunk_at_cut hs hi hl hk
  have hfit : c.Fits := hs.fits c (List.mem_of_getElem? hget)
  refine ⟨c, hget, ?_⟩
  have hstop := stops_take_chunk (boundary cs i) hfit after hk hlt
  rw [← hrest] at hstop
  rw [boundary_eq] at hstop ⊢
  rw [hs.text, take_ofChunks n tail hi.1.2, boundary_eq]
  exact decode_of_stops n (hs.fits_take i) (List.forall₂_take i hp) hstop

/-! ## (3) Every cut of every stream -/

/-- What decoding makes of the first `k` octets of a stream that decodes: they are too short for a
    header, or they give what the whole chunks among them stand for, or they are cut short in the
    chunk behind these. Nothing else goes wrong, and what is given is the front of the contents up
    to the end of a chunk. -/
theorem decode_take (codec : Codec) {s o : Bytes} (h : decode codec s = .ok o) :
    ∃ n cs tail parts, Parses s n cs tail ∧ OpenAll codec cs parts ∧ o = parts.flatten ∧
      ∀ k ≤ s.length,
        (k < 12 → decode codec (s.take k) = .error (.shortStream k)) ∧
        (12 ≤ k → ∃ i, IsGreatest {j | j ≤ cs.length ∧ boundary cs j ≤ k} i ∧
          (k - boundary cs i < 16 → decode codec (s.take k) = .ok (parts.take i).flatten) ∧
          (16 ≤ k - boundary cs i → ∃ c, cs[i]? = some c ∧ decode codec (s.take k) =
            .error (.cutChunk c.header.length (boundary cs i + 16) (k - boundary cs i - 16)))) ∧
        (∀ f, decode codec (s.take k) = .error f → f.kind? = some .tooShort ∨ f.kind? = some .truncatedChunk) ∧
        (∀ o', decode codec (s.take k) = .ok o' → ∃ i ≤ cs.length, o' = (parts.take i).flatten ∧ o' <+: o) := by
  obtain ⟨n, cs, tail, parts, hs, hp, rfl⟩ := parses_of_decode h
  refine ⟨n, cs, tail, parts, hs, hp, rfl, ?_⟩
  intro k hl
  by_cases hk : k < 12
  · have hd := decode_take_short codec hl hk
    refine ⟨fun _ => hd, fun h => absurd h (Nat.not_le_of_lt hk), ?_, ?_⟩
    · intro f hf
      rw [hd] at hf
      cases hf
      exact Or.inl rfl
    · intro o' ho
      rw [hd] at ho
      cases ho
  · obtain ⟨i, hi⟩ := exists_last_boundary cs (Nat.le_of_not_lt hk)
    have htail := decode_take_tail hs hp (k := k) hi.1.2
    have hcut := decode_take_cut hs hp hi hl
    refine ⟨fun h => absurd h hk, fun _ => ⟨i, hi, htail, hcut⟩, ?_, ?_⟩
    · intro f hf
      rcases Nat.lt_or_ge (k - boundary cs i) 16 with hlt | hge
      · rw [htail hlt] at hf
        cases hf
      · obtain ⟨c, -, hd⟩ := hcut hge
        rw [hd] at hf
        cases hf
        exact Or.inr rfl
    · intro o' ho
      rcases Nat.lt_or_ge (k - boundary cs i) 16 with hlt | hge
      · rw [htail hlt] at ho
        cases ho
        have hfront : parts.take i <+: parts := List.take_prefix i parts
        exact ⟨i, hi.1.1, rfl, hfront.flatten⟩
      · obtain ⟨c, -, hd⟩ := hcut hge
        rw [hd] at ho
        cases ho

/-- A raw chunk, an empty one of flags that mean nothing, and three octets behind them: wherever the
    stream is cut, it gives nothing, both octets, or one of the two faults. -/
theorem a_stream_cut_anywhere :
    let s := ofChunks 4 [⟨rawFlags, [7, 8]⟩, ⟨5, []⟩] [1, 2, 3]
    decode Codec.xz s = .ok [7, 8] ∧ ∀ k ≤ s.length,
      (∃ o, decode Codec.xz (s.take k) = .ok o ∧ o <+: [7, 8]) ∨
        ∃ f, decode Codec.xz (s.take k) = .error f ∧ (f.kind? = some .tooShort ∨ f.kind? = some .truncatedChunk) := by
  intro s
  have hs : Parses s 4 [⟨rawFlags, [7, 8]⟩, ⟨5, []⟩] [1, 2, 3] := ⟨rfl, by simp [Chunk.Fits], by decide⟩
  have hp : OpenAll Codec.xz [⟨rawFlags, [7, 8]⟩, ⟨5, []⟩] [[7, 8], []] :=
    .cons (.raw (by decide)) (.cons (.raw (by decide)) .nil)
  have hd : decode Codec.xz s = .ok [7, 8] := decode_of_parses hs hp
  refine ⟨hd, ?_⟩
  obtain ⟨n, cs, tail, parts, -, -, -, h⟩ := decode_take Codec.xz hd
  intro k hk
  obtain ⟨-, -, herr, hok⟩ := h k hk
  cases hc : decode Codec.xz (s.take k) with
  | ok o =>
    obtain ⟨i, -, -, ho⟩ := hok o hc
    exact Or.inl ⟨o, rfl, ho⟩
  | error f => exact Or.inr ⟨f, rfl, herr f hc⟩

end FlatPackage.Stream
