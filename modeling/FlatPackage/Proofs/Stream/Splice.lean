/-
  FlatPackage.Proofs.Stream.Splice — streams joined where a chunk ends.

  A reader carries the place it has reached and what it has read so far, and a writer the place
  in the contents. Neither matters to a chunk: read behind other chunks it opens, or fails, as it
  does alone, only that a chunk cut short is reported further on (`Fault.moved`); and a slice
  is packed from its own octets.

  Proved:
  (1) `decode_of_parses_append` / `decode_of_failsAt_append`: chunks that open, followed by the
      chunks of another stream, whatever size that announces.
  (2) `chunks_independent`: this, and the same of writing.
  Trace: streams of two chunk sizes, and contents cut between two slices
  (`two_chunk_sizes_spliced`).
-/

import FlatPackage.Proofs.Stream.Failure
import FlatPackage.Proofs.Stream.Layout

namespace FlatPackage

/-! ## (1) Reading -/

/-- The same fault, of a stream that starts so many octets earlier. -/
def Fault.moved (k : Nat) : Fault → Fault
  | .cutChunk need offset remaining => .cutChunk need (offset + k) remaining
  | f => f

theorem Fault.kind?_moved (k : Nat) (f : Fault) : (f.moved k).kind? = f.kind? := by
  cases f <;> rfl

namespace Stream

variable {codec : Codec}

theorem texts_append (cs ds : List Chunk) : texts (cs ++ ds) = texts cs ++ texts ds := List.flatMap_append

/-- A place further on fails in the same way. -/
theorem FailsAt.moved {offset : Nat} {r : Bytes} {f : Fault} (h : FailsAt codec offset r f) (k : Nat) :
    FailsAt codec (offset + k) r (f.moved k) := by
  cases h with
  | cut flags need hr hw hn =>
    have hoffset : offset + chunkHeaderSize + k = offset + k + chunkHeaderSize := Nat.add_right_comm _ _ _
    rw [Fault.moved, hoffset]
    exact .cut flags need hr hw hn
  | refused need flaw hr hw hn hd => exact .refused need flaw hr hw hn hd

/-- Without its header a stream goes on where another one ends. -/
theorem ofChunks_append_drop (n m : UInt64) (cs ds : List Chunk) (r : Bytes) :
    ofChunks n cs [] ++ (ofChunks m ds r).drop headerSize = ofChunks n (cs ++ ds) r := by
  rw [drop_ofChunks, ofChunks, ofChunks, ← texts, ← texts, texts_append]
  simp only [List.append_assoc, List.nil_append]

theorem fits_append {cs ds : List Chunk} (hcs : ∀ c ∈ cs, c.Fits) (hds : ∀ c ∈ ds, c.Fits) :
    ∀ c ∈ cs ++ ds, c.Fits := by
  intro c hc
  rcases List.mem_append.mp hc with hc | hc
  · exact hcs c hc
  · exact hds c hc

/-- Of a stream that decodes, the chunks are known to open. -/
theorem Parses.openAll {s o : Bytes} {n : UInt64} {cs : List Chunk} {tail : Bytes} (h : Parses s n cs tail)
    (hd : decode codec s = .ok o) : ∃ parts, OpenAll codec cs parts ∧ o = parts.flatten := by
  obtain ⟨n', cs', tail', parts, h', hp, ho⟩ := parses_of_decode hd
  obtain ⟨-, rfl, -⟩ := h.unique h'
  exact ⟨parts, hp, ho⟩

section

variable {n m : UInt64} {cs ds : List Chunk} {parts : List Bytes} (hcs : ∀ c ∈ cs, c.Fits)
  (hp : OpenAll codec cs parts)

include hcs hp

theorem decode_of_parses_append {s tail : Bytes} (hs : Parses s m ds tail) {more : List Bytes}
    (hm : OpenAll codec ds more) :
    decode codec (ofChunks n cs [] ++ s.drop headerSize) = .ok (parts.flatten ++ more.flatten) := by
  rw [hs.text, ofChunks_append_drop, ← List.flatten_append]
  exact decode_of_parses ⟨rfl, fits_append hcs hs.fits, hs.short⟩ (List.rel_append hp hm)

theorem decode_of_failsAt_append (hds : ∀ c ∈ ds, c.Fits) {more : List Bytes} (hm : OpenAll codec ds more)
    {r : Bytes} {f : Fault} (h : FailsAt codec (headerSize + (texts ds).length) r f) :
    decode codec (ofChunks n cs [] ++ (ofChunks m ds r).drop headerSize) = .error (f.moved (texts cs).length) := by
  have hl : headerSize + (texts (cs ++ ds)).length = headerSize + (texts ds).length + (texts cs).length := by
    rw [texts_append, List.length_append]
    omega
  have hmoved := h.moved (texts cs).length
  rw [← hl] at hmoved
  rw [ofChunks_append_drop]
  exact decode_of_failsAt n (fits_append hcs hds) (List.rel_append hp hm) hmoved

end

/-! ## (2) Reading and writing -/

/-- Slices of contents that are cut between two of them are packed as if apart. -/
theorem packAll_append (codec : Codec) {c : UInt64} (hc : c ≠ 0) {d : Bytes} (hd : c.toNat ∣ d.length) (e : Bytes) :
    packAll codec c (d ++ e) = packAll codec c d ++ packAll codec c e := by
  rw [packAll, Bytes.slices_append (chunkSize_pos hc) hd, List.map_append]
  rfl

/-- A stream that decodes and has no tail can be followed by the chunks of any other: it gives the
    contents of both if the other decodes, and fails as the other does if not, a chunk cut
    short being told of by its new place. And contents whose first part is whole slices are
    written as that part's chunks and then the other's. -/
theorem chunks_independent (codec : Codec) :
    (∀ s₁ n₁ cs₁ o₁ s₂ n₂, Parses s₁ n₁ cs₁ [] → decode codec s₁ = .ok o₁ → readHeader s₂ = .ok n₂ →
      (∀ o₂, decode codec s₂ = .ok o₂ → decode codec (s₁ ++ s₂.drop 12) = .ok (o₁ ++ o₂)) ∧
      (∀ f, decode codec s₂ = .error f →
        decode codec (s₁ ++ s₂.drop 12) = .error (f.moved (s₁.length - 12)) ∧
          (f.moved (s₁.length - 12)).kind? = f.kind?)) ∧
    (∀ (c : UInt64) (d₁ d₂ : Bytes), c ≠ 0 → c.toNat ∣ d₁.length →
      ∃ t t₁ t₂, encode codec c (d₁ ++ d₂) = .ok t ∧ encode codec c d₁ = .ok t₁ ∧ encode codec c d₂ = .ok t₂ ∧
        t.drop 12 = t₁.drop 12 ++ t₂.drop 12) := by
  constructor
  · intro s₁ n₁ cs₁ o₁ s₂ n₂ h₁ hd₁ h₂
    obtain ⟨parts, hp, rfl⟩ := h₁.openAll hd₁
    constructor
    · intro o₂ hd₂
      obtain ⟨m, cs₂, tail, more, hs₂, hm, rfl⟩ := parses_of_decode hd₂
      rw [h₁.text]
      exact decode_of_parses_append h₁.fits hp hs₂ hm
    · intro f hf
      obtain ⟨cs₂, more, r, hfits, hm, rfl, hr⟩ := failsAt_of_decode h₂ hf
      have hl : s₁.length - 12 = (texts cs₁).length := by
        rw [h₁.text, length_ofChunks, ← length_texts, List.length_nil, headerSize]
        omega
      refine ⟨?_, Fault.kind?_moved _ f⟩
      rw [hl, h₁.text]
      exact decode_of_failsAt_append h₁.fits hp hfits hm hr
  · intro c d₁ d₂ hc hd
    refine ⟨_, _, _, encode_eq codec hc _, encode_eq codec hc _, encode_eq codec hc _, ?_⟩
    rw [packAll_append codec hc hd]
    show (ofChunks c _ []).drop headerSize = (ofChunks c _ []).drop headerSize ++ (ofChunks c _ []).drop headerSize
    simp only [drop_ofChunks, texts_append, List.append_nil]

/-- A stream of chunk size three goes on with one of chunk size two and its tail, then with one that
    is cut short; and five octets in twos are two slices and one more. -/
theorem two_chunk_sizes_spliced :
    let s₁ := ofChunks 3 [⟨rawFlags, [1, 2, 3]⟩] []
    let s₂ := ofChunks 2 [⟨rawFlags, [4, 5]⟩, ⟨rawFlags, [6]⟩] [0]
    let s₃ := ofChunks 2 [⟨rawFlags, [4, 5]⟩] (Bytes.be64 0 ++ Bytes.be64 7)
    (Parses s₁ 3 [⟨rawFlags, [1, 2, 3]⟩] [] ∧ decode Codec.xz s₁ = .ok [1, 2, 3] ∧ readHeader s₂ = .ok 2 ∧
        decode Codec.xz (s₁ ++ s₂.drop 12) = .ok [1, 2, 3, 4, 5, 6]) ∧
      (readHeader s₃ = .ok 2 ∧ decode Codec.xz s₃ = .error (.cutChunk 7 46 0) ∧
        decode Codec.xz (s₁ ++ s₃.drop 12) = .error (.cutChunk 7 65 0)) ∧
      (2 : UInt64) ≠ 0 ∧ (2 : UInt64).toNat ∣ [1, 2, 3, 4].length ∧
        ∃ t t₁ t₂, encode Codec.xz 2 ([1, 2, 3, 4] ++ [5]) = .ok t ∧ encode Codec.xz 2 [1, 2, 3, 4] = .ok t₁ ∧
          encode Codec.xz 2 [5] = .ok t₂ ∧ t.drop 12 = t₁.drop 12 ++ t₂.drop 12 := by
  intro s₁ s₂ s₃
  have hs₁ : Parses s₁ 3 [⟨rawFlags, [1, 2, 3]⟩] [] := ⟨rfl, by simp [Chunk.Fits], by decide⟩
  have hs₂ : Parses s₂ 2 [⟨rawFlags, [4, 5]⟩, ⟨rawFlags, [6]⟩] [0] := ⟨rfl, by simp [Chunk.Fits], by decide⟩
  have hd₁ : decode Codec.xz s₁ = .ok [1, 2, 3] := decode_of_parses hs₁ (.cons (.raw (by decide)) .nil)
  have hd₂ : decode Codec.xz s₂ = .ok [4, 5, 6] :=
    decode_of_parses hs₂ (.cons (.raw (by decide)) (.cons (.raw (by decide)) .nil))
  have hd₃ : decode Codec.xz s₃ = .error (.cutChunk 7 46 0) :=
    decode_of_cut 2 (by simp [Chunk.Fits]) (.cons (.raw (by decide)) .nil) (by decide) (by decide)
  have h := chunks_independent Codec.xz
  have h₂ := (h.1 s₁ 3 _ _ s₂ 2 hs₁ hd₁ rfl).1 _ hd₂
  have h₃ := ((h.1 s₁ 3 _ _ s₃ 2 hs₁ hd₁ rfl).2 _ hd₃).1
  exact ⟨⟨hs₁, hd₁, rfl, h₂⟩, ⟨rfl, hd₃, h₃⟩, by decide, by decide, h.2 2 [1, 2, 3, 4] [5] (by decide) (by decide)⟩

end Stream

end FlatPackage
