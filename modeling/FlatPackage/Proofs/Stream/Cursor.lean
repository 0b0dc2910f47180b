/-
  FlatPackage.Proofs.Stream.Cursor — words never wrap and nothing is read outside.

  There are fewer octets than a word can count. The decoding loop only moves its place behind what it
  has tested to be there, so the place stays inside, the octets behind it can be counted by a
  difference that does not wrap (`toNat_left`), and a length word that is too large is
  compared, never added. A turn is then what the loop over lists does with the octets from the place
  on: it ends (`decodeTurn_short`), it finds a chunk cut short (`decodeTurn_cut`), or it takes a
  chunk off (`decodeTurn_chunk`). The encoding loop takes a slice off in every turn (`encodeTurn_slice`).

  Proved:
  (1) `decodeTurn_short`, `decodeTurn_cut`, `decodeTurn_chunk`: what a turn of the decoding loop does.
  (2) `run_decodeTurn`, `decodeInPlace_eq`: from any place inside the decoding loop ends, with what is left
      decoded behind what it has put out; in place comes to the same as off the front of lists.
  (3) `run_encodeTurn`, `encodeInPlace_eq`: the same of encoding.
  (4) `inside_while_decoding`, `inside_while_encoding`: what holds before every turn.
  (5) `places_never_wrap`: all of this of one text.
  Trace: a length word of all ones behind a chunk (`a_length_that_would_wrap`).
-/

import FlatPackage.Proofs.Stream.Contents
import FlatPackage.Proofs.Stream.Layout
import FlatPackage.Stream.Cursor
import Mathlib.Logic.Relation

namespace FlatPackage.Stream

variable {codec : Codec} {s r : Bytes} {c c' : Cursor} {place k : UInt64}

/-! ## Memory -/

section Memory

variable (hs : s.length < 2 ^ 64)

include hs

theorem toNat_size : (size s).toNat = s.length := by
  rw [size, Nat.toUInt64, UInt64.toNat_ofNat', Nat.mod_eq_of_lt hs]

/-- The octets behind a place inside are counted by a difference that does not wrap. -/
theorem toNat_left (hp : place.toNat ≤ s.length) : (size s - place).toNat = s.length - place.toNat := by
  rw [UInt64.toNat_sub_of_le _ _ (UInt64.le_iff_toNat_le.mpr (by rwa [toNat_size hs])), toNat_size hs]

/-- A place that is moved to another one inside has not wrapped. -/
theorem toNat_moved (h : place.toNat + k.toNat ≤ s.length) : (place + k).toNat = place.toNat + k.toNat := by
  rw [UInt64.toNat_add, Nat.mod_eq_of_lt (by omega)]

end Memory

theorem octetsAt?_eq (h : place.toNat + k.toNat ≤ s.length) :
    octetsAt? s place k = some ((s.drop place.toNat).take k.toNat) :=
  if_pos h

theorem wordAt?_eq (h : place.toNat + 8 ≤ s.length) :
    wordAt? s place = some (Bytes.ofBe64 ((s.drop place.toNat).take 8)) := by
  rw [wordAt?, octetsAt?_eq (by exact h)]
  rfl

theorem chunkHeaderAt?_eq (hs : s.length < 2 ^ 64) (h : place.toNat + chunkHeaderSize ≤ s.length) :
    chunkHeaderAt? s place = some (ChunkHeader.ofBytes (s.drop place.toNat)) := by
  simp only [chunkHeaderSize] at h
  have hmoved : (place + 8).toNat = place.toNat + 8 := toNat_moved hs (k := 8) (by show _ + 8 ≤ _; omega)
  rw [chunkHeaderAt?, wordAt?_eq (by omega), wordAt?_eq (by omega), hmoved, ChunkHeader.ofBytes, List.drop_drop]
  rfl

/-! ## Loops -/

section Loops

variable {turn : Cursor → Turn} {result : Except Fault Bytes}

theorem acc_of_returns (h : turn c = .returns result) : Acc (Follows turn) c :=
  Acc.intro c fun c' h' => by
    rw [Follows, h] at h'
    cases h'

theorem acc_of_next (h : turn c = .next c') (hacc : Acc (Follows turn) c') : Acc (Follows turn) c :=
  Acc.intro c fun c'' h' => by
    rw [Follows, h] at h'
    cases h'
    exact hacc

theorem run_of_returns (h : turn c = .returns result) : run turn c = some result := by
  rw [run, WellFounded.partialExtrinsicFix_eq_apply_of_acc (acc_of_returns h)]
  split <;> rename_i heq <;> rw [h] at heq <;> cases heq
  rfl

theorem run_of_next (h : turn c = .next c') (hacc : Acc (Follows turn) c') : run turn c = run turn c' := by
  rw [run, WellFounded.partialExtrinsicFix_eq_apply_of_acc (acc_of_next h hacc)]
  split <;> rename_i heq <;> rw [h] at heq <;> cases heq
  rfl

/-- The loop can be between these two turns. -/
abbrev Reached (turn : Cursor → Turn) : Cursor → Cursor → Prop := Relation.ReflTransGen fun c c' => turn c = .next c'

end Loops

/-! ## (1) Turns of the decoding loop -/

section Decoding

variable (hs : s.length < 2 ^ 64) (hc : c.place.toNat ≤ s.length)

include hs hc

theorem decodeTurn_short (h : (s.drop c.place.toNat).length < chunkHeaderSize) :
    decodeTurn codec s c = .returns (.ok c.output) := by
  rw [List.length_drop] at h
  rw [decodeTurn, if_pos]
  rw [UInt64.lt_iff_toNat_lt, toNat_left hs hc]
  exact h

/-- Behind the words of a chunk the octets are counted from a place that is still inside. -/
theorem decodeTurn_words (codec : Codec) (h : chunkHeaderSize ≤ (s.drop c.place.toNat).length) :
    decodeTurn codec s c = bodyTurn codec s (ChunkHeader.ofBytes (s.drop c.place.toNat))
      ⟨c.place + chunkHeaderSize.toUInt64, c.output⟩ ∧
    (c.place + chunkHeaderSize.toUInt64).toNat = c.place.toNat + chunkHeaderSize ∧
    c.place.toNat + chunkHeaderSize ≤ s.length := by
  rw [List.length_drop] at h
  have hin : c.place.toNat + chunkHeaderSize ≤ s.length := by omega
  refine ⟨?_, toNat_moved hs hin, hin⟩
  rw [decodeTurn, if_neg, chunkHeaderAt?_eq hs hin]
  rw [UInt64.lt_iff_toNat_lt, toNat_left hs hc]
  exact Nat.not_lt.mpr h

theorem decodeTurn_cut (h : chunkHeaderSize ≤ (s.drop c.place.toNat).length)
    (hn : (s.drop c.place.toNat).length - chunkHeaderSize < (ChunkHeader.ofBytes (s.drop c.place.toNat)).length.toNat) :
    decodeTurn codec s c = .returns (.error (.cutChunk (ChunkHeader.ofBytes (s.drop c.place.toNat)).length
      (c.place.toNat + chunkHeaderSize) ((s.drop c.place.toNat).length - chunkHeaderSize))) := by
  obtain ⟨hturn, hmoved, hin⟩ := decodeTurn_words hs hc codec h
  have hleft : (size s - (c.place + chunkHeaderSize.toUInt64)).toNat = (s.drop c.place.toNat).length - chunkHeaderSize := by
    rw [toNat_left hs (by omega), hmoved, List.length_drop]
    omega
  rw [hturn, bodyTurn]
  dsimp only
  rw [if_pos, hmoved, hleft]
  rw [UInt64.lt_iff_toNat_lt, hleft]
  exact hn

/-- The place is moved behind a chunk that is all there, and what the chunk stands for is put out. -/
theorem decodeTurn_chunk (codec : Codec) {x : Chunk} (hx : x.Fits) (hr : s.drop c.place.toNat = x.bytes ++ r) :
    ∃ p : UInt64, p.toNat = c.place.toNat + x.bytes.length ∧ p.toNat ≤ s.length ∧ s.drop p.toNat = r ∧
      (∀ part, x.contents codec = .ok part → decodeTurn codec s c = .next ⟨p, c.output ++ part⟩) ∧
      (∀ f, x.contents codec = .error f → decodeTurn codec s c = .returns (.error f)) := by
  have hl := congrArg List.length hr
  rw [List.length_drop, List.length_append, Chunk.length_bytes] at hl
  have hsize : chunkHeaderSize ≤ (s.drop c.place.toNat).length := by
    rw [List.length_drop]
    omega
  obtain ⟨hturn, hmoved, hin⟩ := decodeTurn_words hs hc codec hsize
  rw [hr, Chunk.ofBytes_bytes] at hturn
  have hlen : x.header.length.toNat = x.body.length := hx.toNat_length
  generalize c.place + chunkHeaderSize.toUInt64 = q at hturn hmoved
  have hend : q.toNat + x.header.length.toNat ≤ s.length := by omega
  have hplace : (q + x.header.length).toNat = c.place.toNat + x.bytes.length := by
    rw [toNat_moved hs hend, Chunk.length_bytes]
    omega
  have hfits : ¬size s - q < x.header.length := by
    rw [UInt64.lt_iff_toNat_lt, toNat_left hs (by omega)]
    omega
  have hbody : octetsAt? s q x.header.length = some x.body := by
    rw [octetsAt?_eq hend, hmoved, ← List.drop_drop, hr, Chunk.drop_bytes, hlen, List.take_left]
  have hchunk : (⟨x.header.flags, x.body⟩ : Chunk) = x := rfl
  simp only [bodyTurn, if_neg hfits, hbody, hchunk] at hturn
  refine ⟨q + x.header.length, hplace, ?_, ?_, fun part hpart => ?_, fun f hf => ?_⟩
  · rw [hplace, Chunk.length_bytes]
    omega
  · rw [hplace, ← List.drop_drop, hr, List.drop_left]
  · rw [hturn, hpart]
  · rw [hturn, hf]

/-- All that a turn from a place inside can come to. -/
inductive DecodeTurn (codec : Codec) (s : Bytes) (c : Cursor) : Turn → Prop
  | stops (e : Ending) : Stops c.place.toNat (s.drop c.place.toNat) e →
      DecodeTurn codec s c (.returns (finish [c.output] e))
  | refused (x : Chunk) (r : Bytes) (f : Fault) : x.Fits → s.drop c.place.toNat = x.bytes ++ r →
      x.contents codec = .error f → DecodeTurn codec s c (.returns (.error f))
  | takes (x : Chunk) (part : Bytes) (p : UInt64) : x.Fits → s.drop c.place.toNat = x.bytes ++ s.drop p.toNat →
      x.contents codec = .ok part → p.toNat = c.place.toNat + x.bytes.length → p.toNat ≤ s.length →
      DecodeTurn codec s c (.next ⟨p, c.output ++ part⟩)

theorem decodeTurn_cases (codec : Codec) : DecodeTurn codec s c (decodeTurn codec s c) := by
  by_cases h : (s.drop c.place.toNat).length < chunkHeaderSize
  · have hfinish : finish [c.output] (.tail (s.drop c.place.toNat)) = .ok c.output := by simp [finish]
    rw [decodeTurn_short hs hc h, ← hfinish]
    exact .stops _ (.tail h)
  have h := Nat.le_of_not_lt h
  rcases split_front h with hn | ⟨x, r, hx, hr⟩
  · rw [decodeTurn_cut hs hc h hn]
    exact .stops _ (.cut h hn)
  · obtain ⟨p, hp, hle, hrest, hok, herror⟩ := decodeTurn_chunk hs hc codec hx hr
    cases hcontents : x.contents codec with
    | ok part =>
      rw [hok part hcontents]
      exact .takes x part p hx (hrest ▸ hr) hcontents hp hle
    | error f =>
      rw [herror f hcontents]
      exact .refused x r f hx hr hcontents

end Decoding

/-! ## (2) The decoding loop -/

/-- What comes of chunks and an ending when some contents are put out already. -/
def resume (codec : Codec) (output : Bytes) (r : List Chunk × Ending) : Except Fault Bytes :=
  (r.1.mapM (Chunk.contents codec)).bind fun parts => finish (output :: parts) r.2

theorem resume_of_error {x : Chunk} {f : Fault} (h : x.contents codec = .error f) (output : Bytes) (cs : List Chunk)
    (e : Ending) : resume codec output (x :: cs, e) = .error f := by
  rw [resume, List.mapM_cons, h]
  rfl

theorem resume_of_ok {x : Chunk} {part : Bytes} (h : x.contents codec = .ok part) (output : Bytes) (cs : List Chunk)
    (e : Ending) : resume codec output (x :: cs, e) = resume codec (output ++ part) (cs, e) := by
  rw [resume, resume, List.mapM_cons, h]
  cases cs.mapM (Chunk.contents codec) with
  | error f => rfl
  | ok parts =>
    show finish (output :: part :: parts) e = finish ((output ++ part) :: parts) e
    cases e <;> simp [finish]

theorem resume_nil (codec : Codec) (r : List Chunk × Ending) :
    resume codec [] r = (r.1.mapM (Chunk.contents codec)).bind fun parts => finish parts r.2 := by
  have hfinish : ∀ parts, finish ([] :: parts) r.2 = finish parts r.2 := by
    intro parts
    cases r.2 <;> rfl
  simp only [resume, hfinish]

/-- From any place inside the loop ends, with what the chunks from there on come to. -/
theorem run_decodeTurn (codec : Codec) (hs : s.length < 2 ^ 64) (hc : c.place.toNat ≤ s.length) :
    Acc (Follows (decodeTurn codec s)) c ∧
      run (decodeTurn codec s) c =
        some (resume codec c.output (split c.place.toNat (s.drop c.place.toNat).length (s.drop c.place.toNat))) := by
  -- on the octets behind the place, of which every turn but the last takes some
  induction hl : (s.drop c.place.toNat).length using Nat.strongRecOn generalizing c with
  | ind l ih =>
    subst hl
    generalize hturn : decodeTurn codec s c = turn
    have hcases := decodeTurn_cases hs hc codec
    rw [hturn] at hcases
    cases hcases with
    | stops e he =>
      refine ⟨acc_of_returns hturn, ?_⟩
      rw [run_of_returns hturn, he.split_eq]
      rfl
    | refused x r f hx hr hf =>
      refine ⟨acc_of_returns hturn, ?_⟩
      rw [run_of_returns hturn, hr, split_chunk _ hx, resume_of_error hf]
    | takes x part p hx hr hpart hp hle =>
      have hlt : (s.drop p.toNat).length < (s.drop c.place.toNat).length := by
        rw [hr, List.length_append, Chunk.length_bytes, chunkHeaderSize]
        omega
      obtain ⟨hacc, hrun⟩ := ih _ hlt (c := ⟨p, c.output ++ part⟩) hle rfl
      refine ⟨acc_of_next hturn hacc, ?_⟩
      rw [run_of_next hturn hacc, hrun, hr, split_chunk _ hx, resume_of_ok hpart, ← hp]

/-! ## Decoding in place -/

theorem headerInPlace_eq (hs : s.length < 2 ^ 64) : headerInPlace s = some (readHeader s) := by
  have hsize : size s < headerSize.toUInt64 ↔ s.length < headerSize := by
    rw [UInt64.lt_iff_toNat_lt, toNat_size hs]
    rfl
  rw [headerInPlace, readHeader, toNat_size hs]
  by_cases hl : s.length < headerSize
  · rw [if_pos (hsize.mpr hl), if_pos hl]
  · rw [if_neg (hsize.not.mpr hl), if_neg hl]
    simp only [headerSize] at hl
    have hmagic : octetsAt? s 0 magic.length.toUInt64 = some (s.take 4) := octetsAt?_eq (by show 0 + 4 ≤ _; omega)
    have hword : wordAt? s magic.length.toUInt64 = some (Bytes.ofBe64 ((s.drop 4).take 8)) :=
      wordAt?_eq (by show 4 + 8 ≤ _; omega)
    rw [hmagic, hword, isStream]
    by_cases hm : s.take 4 = magic
    · simp [hm]
    · simp [hm]

/-- A text with a header has octets up to where the first chunk would be. -/
theorem inside_decodeStart {n : UInt64} (hh : readHeader s = .ok n) : decodeStart.place.toNat ≤ s.length := by
  obtain ⟨body, rfl⟩ := (readHeader_ok_iff s n).mp hh
  rw [List.length_append, length_header]
  exact Nat.le_add_right _ _

theorem decodeInPlace_eq (codec : Codec) (hs : s.length < 2 ^ 64) : decodeInPlace codec s = some (decode codec s) := by
  rw [decodeInPlace, headerInPlace_eq hs]
  cases hh : readHeader s with
  | error f =>
    rw [decode, hh]
    rfl
  | ok n =>
    have hchunks : chunks s = split headerSize (s.drop headerSize).length (s.drop headerSize) := by
      rw [chunks, List.length_drop]
    obtain ⟨-, hrun⟩ := run_decodeTurn codec hs (inside_decodeStart hh)
    show run (decodeTurn codec s) decodeStart = _
    rw [hrun, decode_eq hh (Prod.mk.eta).symm, ← resume_nil, hchunks]
    rfl

/-! ## (3) The encoding loop -/

section Encoding

variable {n : UInt64} (hn : n ≠ 0) (hs : s.length < 2 ^ 64)

/-- The shorter form is chosen by sizes that are words. These are the lengths if a word can count them. -/
theorem pack_eq {x : Bytes} (hk : k.toNat = x.length) (hx : (codec.compress x).length < 2 ^ 64) :
    (if size (codec.compress x) < k then (⟨xzFlags, codec.compress x⟩ : Chunk) else ⟨rawFlags, x⟩) = pack codec x := by
  have hsize : size (codec.compress x) < k ↔ (codec.compress x).length < x.length := by
    rw [UInt64.lt_iff_toNat_lt, toNat_size hx, hk]
  simp only [hsize, pack]

include hs

theorem encodeTurn_ended (h : s.length ≤ c.place.toNat) : encodeTurn codec n s c = .returns (.ok c.output) := by
  rw [encodeTurn, if_neg]
  rw [UInt64.lt_iff_toNat_lt, toNat_size hs]
  exact Nat.not_lt.mpr h

include hn

/-- The place is moved behind a slice, or behind the last octet, and a chunk is put out for the slice. -/
theorem encodeTurn_slice (codec : Codec) (hc : c.place.toNat < s.length) :
    ∃ (p : UInt64) (x : Chunk), c.place.toNat < p.toNat ∧ p.toNat ≤ s.length ∧
      s.drop p.toNat = (s.drop c.place.toNat).drop n.toNat ∧
      encodeTurn codec n s c = .next ⟨p, c.output ++ x.bytes⟩ ∧
      ((codec.compress ((s.drop c.place.toNat).take n.toNat)).length < 2 ^ 64 →
        x = pack codec ((s.drop c.place.toNat).take n.toNat)) := by
  have hpos := chunkSize_pos hn
  have hleft := toNat_left hs (Nat.le_of_lt hc)
  have hlt : c.place < size s := by
    rw [UInt64.lt_iff_toNat_lt, toNat_size hs]
    exact hc
  obtain ⟨k, hk, hnat⟩ : ∃ k, (if size s - c.place < n then size s - c.place else n) = k ∧
      k.toNat = min n.toNat (s.length - c.place.toNat) := by
    refine ⟨_, rfl, ?_⟩
    split <;> rename_i h <;> rw [UInt64.lt_iff_toNat_lt, hleft] at h <;> omega
  have hend : c.place.toNat + k.toNat ≤ s.length := by omega
  have hplace : (c.place + k).toNat = c.place.toNat + k.toNat := toNat_moved hs hend
  have htake : (s.drop c.place.toNat).take k.toNat = (s.drop c.place.toNat).take n.toNat := by
    rw [hnat, ← List.length_drop, ← List.take_eq_take_min]
  have hlen : k.toNat = ((s.drop c.place.toNat).take n.toNat).length := by
    rw [List.length_take, List.length_drop, hnat]
  refine ⟨c.place + k, _, by omega, by omega, ?_, ?_, pack_eq hlen⟩
  · rw [hplace, ← List.drop_drop]
    by_cases h : n.toNat ≤ s.length - c.place.toNat
    · rw [hnat, Nat.min_eq_left h]
    · rw [List.drop_of_length_le (by rw [List.length_drop]; omega), List.drop_of_length_le (by rw [List.length_drop]; omega)]
  · simp only [encodeTurn, if_pos hlt, hk, octetsAt?_eq hend, htake]

/-- From any place inside the loop ends, with the chunks of what is left behind what was put out. -/
theorem run_encodeTurn (codec : Codec) (hc : c.place.toNat ≤ s.length) :
    Acc (Follows (encodeTurn codec n s)) c ∧
      ((∀ x ∈ Bytes.slices n.toNat (s.drop c.place.toNat), (codec.compress x).length < 2 ^ 64) →
        run (encodeTurn codec n s) c = some (.ok (c.output ++ texts (packAll codec n (s.drop c.place.toNat))))) := by
  -- on the octets behind the place, of which every turn but the last takes some
  induction hl : s.length - c.place.toNat using Nat.strongRecOn generalizing c with
  | ind l ih =>
    subst hl
    by_cases hlt : c.place.toNat < s.length
    · obtain ⟨p, x, hp, hle, hrest, hturn, hx⟩ := encodeTurn_slice hn hs codec hlt
      obtain ⟨hacc, hrun⟩ := ih (s.length - p.toNat) (by omega) (c := ⟨p, c.output ++ x.bytes⟩) hle rfl
      have hne : s.drop c.place.toNat ≠ [] := List.ne_nil_of_length_pos (by rw [List.length_drop]; omega)
      rw [Bytes.slices_of_ne_nil (chunkSize_pos hn) hne, List.forall_mem_cons]
      refine ⟨acc_of_next hturn hacc, fun ⟨hslice, hslices⟩ => ?_⟩
      rw [← hrest] at hslices
      rw [run_of_next hturn hacc, hrun hslices, hx hslice, packAll, packAll,
        Bytes.slices_of_ne_nil (chunkSize_pos hn) hne, hrest, List.map_cons, texts, texts, List.flatMap_cons,
        List.append_assoc]
    · have hturn : encodeTurn codec n s c = .returns (.ok c.output) := encodeTurn_ended hs (Nat.le_of_not_lt hlt)
      refine ⟨acc_of_returns hturn, fun _ => ?_⟩
      rw [run_of_returns hturn, List.drop_of_length_le (Nat.le_of_not_lt hlt), packAll, Bytes.slices_nil]
      simp

end Encoding

theorem encodeInPlace_eq (hs : s.length < 2 ^ 64) {n : UInt64}
    (hslices : ∀ x ∈ Bytes.slices n.toNat s, (codec.compress x).length < 2 ^ 64) :
    encodeInPlace codec n s = some (encode codec n s) := by
  by_cases hn : n = 0
  · rw [encodeInPlace, encode, if_pos hn, if_pos hn]
  · obtain ⟨-, hrun⟩ := run_encodeTurn hn hs codec (c := encodeStart n) (Nat.zero_le _)
    rw [encodeInPlace, if_neg hn, hrun hslices, encode_eq codec hn, ofChunks, List.append_nil]
    rfl

/-! ## (4) Before every turn -/

/-- The place is inside, at the first one or behind it. The octets behind it are counted by a difference
    that does not wrap, the turn asks for none that are not there, and if another turn follows, its
    place is further on by so many octets at least. -/
structure Inside (s : Bytes) (first step : Nat) (turn : Cursor → Turn) (c : Cursor) : Prop where
  first : first ≤ c.place.toNat
  within : c.place.toNat ≤ s.length
  left : (size s - c.place).toNat = s.length - c.place.toNat
  present : turn c ≠ .outside
  onward : ∀ c', turn c = .next c' → c.place.toNat + step ≤ c'.place.toNat

/-- A loop whose turns stay inside and move on is inside before every turn. -/
theorem inside_of_reached {turn : Cursor → Turn} {first step : Nat} {start : Cursor} (hs : s.length < 2 ^ 64)
    (hstart : first ≤ start.place.toNat ∧ start.place.toNat ≤ s.length)
    (hturn : ∀ c, c.place.toNat ≤ s.length → turn c ≠ .outside ∧
      ∀ c', turn c = .next c' → c.place.toNat + step ≤ c'.place.toNat ∧ c'.place.toNat ≤ s.length)
    (h : Reached turn start c) : Inside s first step turn c := by
  have hplace : first ≤ c.place.toNat ∧ c.place.toNat ≤ s.length := by
    induction h with
    | refl => exact hstart
    | tail _ hnext ih =>
      obtain ⟨hon, hle⟩ := (hturn _ ih.2).2 _ hnext
      exact ⟨by omega, hle⟩
  obtain ⟨hpresent, honward⟩ := hturn c hplace.2
  exact ⟨hplace.1, hplace.2, toNat_left hs hplace.2, hpresent, fun c' hnext => (honward c' hnext).1⟩

theorem inside_while_decoding (codec : Codec) (hs : s.length < 2 ^ 64) {n : UInt64} (hh : readHeader s = .ok n)
    (h : Reached (decodeTurn codec s) decodeStart c) : Inside s headerSize chunkHeaderSize (decodeTurn codec s) c := by
  refine inside_of_reached hs ⟨Nat.le_refl _, inside_decodeStart hh⟩ (fun b hb => ?_) h
  have hcases := decodeTurn_cases hs hb codec
  refine ⟨fun hturn => ?_, fun b' hturn => ?_⟩
  · rw [hturn] at hcases
    cases hcases
  · rw [hturn] at hcases
    cases hcases with
    | takes x _ p _ _ _ hp hle =>
      rw [Chunk.length_bytes] at hp
      exact ⟨by show _ ≤ p.toNat; omega, hle⟩

theorem inside_while_encoding (codec : Codec) (hs : s.length < 2 ^ 64) {n : UInt64} (hn : n ≠ 0)
    (h : Reached (encodeTurn codec n s) (encodeStart n) c) : Inside s 0 1 (encodeTurn codec n s) c := by
  refine inside_of_reached hs ⟨Nat.zero_le _, Nat.zero_le _⟩ (fun b _ => ?_) h
  by_cases hlt : b.place.toNat < s.length
  · obtain ⟨p, x, hp, hle, -, hslice, -⟩ := encodeTurn_slice hn hs codec hlt
    rw [hslice]
    refine ⟨by simp, fun b' hturn => ?_⟩
    cases hturn
    exact ⟨hp, hle⟩
  · rw [encodeTurn_ended hs (Nat.le_of_not_lt hlt)]
    exact ⟨by simp, fun b' hturn => by cases hturn⟩

/-! ## (5) Both loops -/

/-- For every codec and every text that has fewer octets than a word can count, whatever lengths are
    written in it. Decoding it in place comes to the same as taking chunks off the front of a list: the
    loop ends, and before every turn its place is inside and behind the header, no difference has
    wrapped, no octets are asked for that are not there, and the next place is further on by a
    chunk's header at least. So does the loop that encodes it in place, with any chunk size but zero:
    its place moves on in every turn. It comes to the same as cutting a list into slices, if what the
    codec makes of each slice can be counted by a word, too. -/
theorem places_never_wrap (codec : Codec) (hs : s.length < 2 ^ 64) :
    decodeInPlace codec s = some (decode codec s) ∧
    (∀ m, readHeader s = .ok m → Acc (Follows (decodeTurn codec s)) decodeStart ∧
      ∀ c, Reached (decodeTurn codec s) decodeStart c → Inside s 12 16 (decodeTurn codec s) c) ∧
    (∀ n : UInt64, (∀ x ∈ Bytes.slices n.toNat s, (codec.compress x).length < 2 ^ 64) →
      encodeInPlace codec n s = some (encode codec n s)) ∧
    ∀ n, n ≠ 0 → Acc (Follows (encodeTurn codec n s)) (encodeStart n) ∧
      ∀ c, Reached (encodeTurn codec n s) (encodeStart n) c → Inside s 0 1 (encodeTurn codec n s) c := by
  refine ⟨decodeInPlace_eq codec hs, fun m hm => ⟨?_, fun c hc => ?_⟩, fun n hslices => ?_, fun n hn => ⟨?_, fun c hc => ?_⟩⟩
  · exact (run_decodeTurn codec hs (inside_decodeStart hm)).1
  · exact inside_while_decoding codec hs hm hc
  · exact encodeInPlace_eq hs hslices
  · exact (run_encodeTurn hn hs codec (Nat.zero_le _)).1
  · exact inside_while_encoding codec hs hn hc

/-- A stream whose second chunk declares all the octets that a word can count. -/
def overdrawn : Bytes :=
  ofChunks 4 [⟨rawFlags, [7, 8]⟩] (Bytes.be64 xzFlags ++ Bytes.be64 0xFFFFFFFFFFFFFFFF ++ [1, 2, 3])

/-- A codec that puts an octet in front of everything, and takes it off again. -/
def marking : Codec := ⟨fun x => 0xFF :: x, fun x => .ok (x.drop 1)⟩

/-- Behind a chunk of two octets a chunk declares more than any place could be moved by: the place is
    behind the first chunk then, and the second is cut short. As contents the same octets are cut
    into slices in place, and nothing is lost of them. -/
theorem a_length_that_would_wrap :
    overdrawn.length < 2 ^ 64 ∧ readHeader overdrawn = .ok 4 ∧
      decodeInPlace marking overdrawn = some (.error (.cutChunk 0xFFFFFFFFFFFFFFFF 46 3)) ∧
      Reached (decodeTurn marking overdrawn) decodeStart ⟨30, [7, 8]⟩ ∧
      Inside overdrawn 12 16 (decodeTurn marking overdrawn) ⟨30, [7, 8]⟩ ∧
      (∀ x, marking.decompress (marking.compress x) = .ok x) ∧
      (∀ x ∈ Bytes.slices 20 overdrawn, (marking.compress x).length < 2 ^ 64) ∧ (20 : UInt64) ≠ 0 ∧
      encodeInPlace marking 20 overdrawn = some (encode marking 20 overdrawn) ∧
      Inside overdrawn 0 1 (encodeTurn marking 20 overdrawn) (encodeStart 20) := by
  have hs : overdrawn.length < 2 ^ 64 := by decide
  have hh : readHeader overdrawn = .ok 4 := by rfl
  have hslices : ∀ x ∈ Bytes.slices 20 overdrawn, (marking.compress x).length < 2 ^ 64 := by
    intro x hx
    have hlen := (Bytes.length_of_mem_slices (by decide) hx).2
    show x.length + 1 < _
    omega
  have hturn : decodeTurn marking overdrawn decodeStart = .next ⟨30, [7, 8]⟩ := by rfl
  have hcut : decode marking overdrawn = .error (.cutChunk 0xFFFFFFFFFFFFFFFF 46 3) :=
    decode_of_cut 4 (by simp [Chunk.Fits]) (.cons (.raw (by decide)) .nil) (by decide) (by decide)
  obtain ⟨hdecode, hdecoding, hencode, hencoding⟩ := places_never_wrap marking hs
  have hreached : Reached (decodeTurn marking overdrawn) decodeStart ⟨30, [7, 8]⟩ := .single hturn
  exact ⟨hs, hh, by rw [hdecode, hcut], hreached, (hdecoding 4 hh).2 _ hreached, fun _ => rfl, hslices, by decide,
    hencode 20 hslices, (hencoding 20 (by decide)).2 _ .refl⟩

end FlatPackage.Stream
