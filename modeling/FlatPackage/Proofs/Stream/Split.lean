/-
  FlatPackage.Proofs.Stream.Split — a stream is cut into chunks in one way.

  The loop that cuts carries the place it has reached and the octets that are left. What it
  does with a text is one of three things: nothing is left that could be a chunk's header
  (`split_short`), a header asks for more than follows it (`split_cut`), or a chunk comes off
  the front and the loop goes on behind it (`split_chunk`). Every text is in one of the three
  cases (`split_front`), so the loop is known from them alone.

  Proved:
  (1) `split_chunks`: chunks written one after another come off again, whatever follows.
  (2) `split_spec`: every text is such chunks and a rest in one of the two last cases.
  (3) `Parses.unique`: a stream has one chunk size, one list of chunks and one tail.
-/

import FlatPackage.Proofs.Stream.Frame
import FlatPackage.Stream.Decode

namespace FlatPackage.Stream

/-! ## One turn of the loop -/

theorem split_short (offset : Nat) {s : Bytes} (h : s.length < chunkHeaderSize) :
    split offset s.length s = ([], .tail s) := by
  rw [split, if_pos h]

theorem split_cut (offset : Nat) {s : Bytes} (h : chunkHeaderSize ≤ s.length)
    (hn : s.length - chunkHeaderSize < (ChunkHeader.ofBytes s).length.toNat) :
    split offset s.length s = ([], .cut (ChunkHeader.ofBytes s).length (offset + chunkHeaderSize)
      (s.length - chunkHeaderSize)) := by
  rw [split, if_neg (by omega)]
  show (if s.length - chunkHeaderSize < (ChunkHeader.ofBytes s).length.toNat then _ else _) = _
  rw [if_pos hn]

theorem split_chunk (offset : Nat) {c : Chunk} (hc : c.Fits) (r : Bytes) :
    split offset (c.bytes ++ r).length (c.bytes ++ r) =
      (c :: (split (offset + c.bytes.length) r.length r).1, (split (offset + c.bytes.length) r.length r).2) := by
  have hl : (c.bytes ++ r).length = chunkHeaderSize + c.body.length + r.length := by
    rw [List.length_append, Chunk.length_bytes]
  have hn : c.header.length.toNat = c.body.length := hc.toNat_length
  rw [hl, split, if_neg (by omega)]
  simp only [Chunk.ofBytes_bytes, Chunk.drop_bytes, hn]
  rw [if_neg (by omega), List.take_left, List.drop_left, Chunk.length_bytes, Nat.add_assoc]
  rw [show chunkHeaderSize + c.body.length + r.length - chunkHeaderSize - c.body.length = r.length by omega]
  rfl

/-! ## The whole loop -/

/-- What a list of chunks is on paper. -/
abbrev texts (cs : List Chunk) : Bytes := cs.flatMap Chunk.bytes

/-- Chunks come off the front as they were written; the loop then stands behind them. -/
theorem split_chunks (offset : Nat) {cs : List Chunk} (hcs : ∀ c ∈ cs, c.Fits) (r : Bytes) :
    split offset (texts cs ++ r).length (texts cs ++ r) =
      (cs ++ (split (offset + (texts cs).length) r.length r).1, (split (offset + (texts cs).length) r.length r).2) := by
  induction cs generalizing offset with
  | nil => rfl
  | cons c cs ih =>
    have hc : c.Fits := hcs c List.mem_cons_self
    have htail : ∀ d ∈ cs, d.Fits := fun d hd => hcs d (List.mem_cons_of_mem _ hd)
    have ht : texts (c :: cs) ++ r = c.bytes ++ (texts cs ++ r) := by
      rw [texts, List.flatMap_cons, List.append_assoc]
    have ho : offset + c.bytes.length + (texts cs).length = offset + (texts (c :: cs)).length := by
      rw [texts, texts, List.flatMap_cons, List.length_append, Nat.add_assoc]
    rw [ht, split_chunk offset hc, ih (offset + c.bytes.length) htail, ho]
    rfl

/-- `r` is where the loop stops: `offset` octets into the stream it ends so. -/
inductive Stops (offset : Nat) (r : Bytes) : Ending → Prop
  | tail : r.length < chunkHeaderSize → Stops offset r (.tail r)
  | cut : chunkHeaderSize ≤ r.length → r.length - chunkHeaderSize < (ChunkHeader.ofBytes r).length.toNat →
      Stops offset r (.cut (ChunkHeader.ofBytes r).length (offset + chunkHeaderSize) (r.length - chunkHeaderSize))

theorem Stops.split_eq {offset : Nat} {r : Bytes} {e : Ending} (h : Stops offset r e) :
    split offset r.length r = ([], e) := by
  cases h with
  | tail h => exact split_short offset h
  | cut h hn => exact split_cut offset h hn

/-- Every text is chunks and a rest at which the loop stops. -/
theorem split_spec (offset : Nat) (s : Bytes) :
    ∃ cs r e, (∀ c ∈ cs, Chunk.Fits c) ∧ s = texts cs ++ r ∧ Stops (offset + (texts cs).length) r e := by
  -- on the length: what is left behind a chunk is shorter by at least its header
  induction hl : s.length using Nat.strongRecOn generalizing offset s with
  | ind n ih =>
    subst hl
    by_cases h : s.length < chunkHeaderSize
    · exact ⟨[], s, _, by simp, rfl, .tail h⟩
    rcases split_front (Nat.le_of_not_lt h) with hn | ⟨c, r, hc, rfl⟩
    · exact ⟨[], s, _, by simp, rfl, .cut (Nat.le_of_not_lt h) hn⟩
    · have hlt : r.length < (c.bytes ++ r).length := by
        rw [List.length_append, Chunk.length_bytes, chunkHeaderSize]
        omega
      obtain ⟨cs, r', e, hcs, hr, he⟩ := ih r.length hlt (offset + c.bytes.length) r rfl
      refine ⟨c :: cs, r', e, ?_, ?_, ?_⟩
      · intro d hd
        rcases List.mem_cons.mp hd with rfl | hd
        · exact hc
        · exact hcs d hd
      · rw [texts, List.flatMap_cons, List.append_assoc, ← texts, ← hr]
      · rw [texts, List.flatMap_cons, List.length_append, ← Nat.add_assoc]
        exact he

/-! ## The grammar -/

/-- `s` announces `n`, has the chunks `cs`, and ends in octets that are too few for a chunk. -/
structure Parses (s : Bytes) (n : UInt64) (cs : List Chunk) (tail : Bytes) : Prop where
  text : s = ofChunks n cs tail
  fits : ∀ c ∈ cs, c.Fits
  short : tail.length < chunkHeaderSize

theorem drop_ofChunks (n : UInt64) (cs : List Chunk) (r : Bytes) : (ofChunks n cs r).drop headerSize = texts cs ++ r := by
  rw [ofChunks, List.append_assoc]
  exact List.drop_left' (length_header n)

/-- The chunks of a stream of which only the front is known to be chunks. -/
theorem chunks_ofChunks (n : UInt64) {cs : List Chunk} (hcs : ∀ c ∈ cs, c.Fits) (r : Bytes) :
    chunks (ofChunks n cs r) =
      (cs ++ (split (headerSize + (texts cs).length) r.length r).1,
        (split (headerSize + (texts cs).length) r.length r).2) := by
  have hl : (ofChunks n cs r).length - headerSize = (texts cs ++ r).length := by
    rw [← drop_ofChunks n cs r, List.length_drop]
  rw [chunks, drop_ofChunks, hl, split_chunks headerSize hcs]

theorem chunks_of_stops (n : UInt64) {cs : List Chunk} (hcs : ∀ c ∈ cs, c.Fits) {r : Bytes} {e : Ending}
    (h : Stops (headerSize + (texts cs).length) r e) : chunks (ofChunks n cs r) = (cs, e) := by
  rw [chunks_ofChunks n hcs, h.split_eq, List.append_nil]

theorem readHeader_ofChunks (n : UInt64) (cs : List Chunk) (r : Bytes) : readHeader (ofChunks n cs r) = .ok n := by
  rw [ofChunks, List.append_assoc]
  exact readHeader_append n _

/-- Every text with a header is chunks and a rest at which the loop stops. -/
theorem ofChunks_of_readHeader {s : Bytes} {n : UInt64} (h : readHeader s = .ok n) :
    ∃ cs r e, (∀ c ∈ cs, Chunk.Fits c) ∧ s = ofChunks n cs r ∧ Stops (headerSize + (texts cs).length) r e := by
  obtain ⟨body, rfl⟩ := (readHeader_ok_iff s n).mp h
  obtain ⟨cs, r, e, hcs, rfl, he⟩ := split_spec headerSize body
  exact ⟨cs, r, e, hcs, by rw [ofChunks, List.append_assoc], he⟩

theorem Parses.chunks_eq {s : Bytes} {n : UInt64} {cs : List Chunk} {tail : Bytes} (h : Parses s n cs tail) :
    chunks s = (cs, .tail tail) := by
  rw [h.text]
  exact chunks_of_stops n h.fits (.tail h.short)

theorem Parses.unique {s : Bytes} {n n' : UInt64} {cs cs' : List Chunk} {tail tail' : Bytes}
    (h : Parses s n cs tail) (h' : Parses s n' cs' tail') : n = n' ∧ cs = cs' ∧ tail = tail' := by
  have hn : (.ok n : Except Fault UInt64) = .ok n' := by
    rw [← readHeader_ofChunks n cs tail, ← h.text, h'.text, readHeader_ofChunks]
  have hc := h.chunks_eq
  rw [h'.chunks_eq] at hc
  injection hn with hn
  injection hc with hcs ht
  injection ht with ht
  exact ⟨hn, hcs.symm, ht.symm⟩

end FlatPackage.Stream
