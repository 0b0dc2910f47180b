/-
  FlatPackage.Proofs.Lzma.Symbols — how much output the symbols of a chunk make.

  A symbol makes at least one octet and a chunk is finished when its symbols have made as many as it stands for. A
  limit on output therefore changes nothing as long as the chunk stands for no more.

  Proved:
  (1) `reads_readSymbol`: reading a symbol makes nothing yet, and every symbol makes something.
  (2) `size_out_of_finished`, `readSymbols_of_room`: symbols that come to a good end have made what was left to be
      made, no more than the limit; a limit that leaves room for it changes nothing.
  (3) `size_out_of_decodeChunk`, `decodeChunk_finished_iff`: the same of a chunk.
-/

import FlatPackage.Lzma.Decoder

namespace FlatPackage.Lzma

variable {m m' : Memory} {d : RangeDecoder} {symbol : Symbol} {fuel left room size : Nat} {limit : Option Nat}
  {unused chunk : Bytes}

/-! ## (1) One symbol -/

theorem RangeDecoder.length_pos (base pos : Nat) (d : RangeDecoder) : 0 < (d.length base pos).1 := by
  unfold RangeDecoder.length
  dsimp only
  split
  · exact Nat.succ_pos _
  · split <;> exact Nat.succ_pos _

/-- Nothing is made yet, and if there is a symbol it will make something. -/
def Reads (m : Memory) (x : Option Symbol × Memory × RangeDecoder) : Prop :=
  x.2.1.out = m.out ∧ ∀ symbol, x.1 = some symbol → 0 < symbol.size

theorem reads_some (hout : m'.out = m.out) (hpos : 0 < symbol.size) : Reads m (some symbol, m', d) :=
  ⟨hout, fun _ h => Option.some.inj h ▸ hpos⟩

theorem reads_none (hout : m'.out = m.out) : Reads m (none, m', d) := by
  refine ⟨hout, fun _ h => ?_⟩
  cases h

theorem reads_readSymbol (m : Memory) (d : RangeDecoder) : Reads m (readSymbol m d) := by
  unfold readSymbol
  dsimp only
  split
  · exact reads_some rfl Nat.one_pos
  split
  · split
    · exact reads_some rfl (RangeDecoder.length_pos _ _ _)
    · exact reads_none rfl
  split
  · exact reads_none rfl
  split
  · split
    · exact reads_some rfl Nat.one_pos
    · exact reads_some rfl (RangeDecoder.length_pos _ _ _)
  split
  · exact reads_some rfl (RangeDecoder.length_pos _ _ _)
  · refine reads_some ?_ (RangeDecoder.length_pos _ _ _)
    split <;> rfl

theorem Memory.size_copy (dist n : Nat) (out : ByteArray) : (copy dist n out).size = out.size + n := by
  induction n generalizing out with
  | zero => rfl
  | succ n ih =>
    rw [copy, ih, ByteArray.size_push]
    omega

theorem Symbol.size_apply (m : Memory) (symbol : Symbol) : (symbol.apply m).out.size = m.out.size + symbol.size := by
  cases symbol with
  | literal b => exact ByteArray.size_push
  | copy n => exact Memory.size_copy m.rep0 n m.out

/-! ## (2) The symbols of a chunk -/

theorem settle_finished (h : settle m d = .finished m' unused) : m'.out = m.out := by
  unfold settle at h
  dsimp only at h
  split at h
  · cases h
  · split at h
    · cases h
      rfl
    · cases h

/-- One symbol and the others, or an end without octets that are left to be made. -/
theorem readSymbols_finished (hfuel : left ≤ fuel) (h : readSymbols fuel left limit m d = .finished m' unused) :
    left = 0 ∧ settle m d = .finished m' unused ∨
      ∃ fuel' symbol m₁ d₁, fuel = fuel' + 1 ∧ readSymbol m d = (some symbol, m₁, d₁) ∧ symbol.size ≤ left ∧
        limit.all (symbol.size ≤ ·) = true ∧
        readSymbols fuel' (left - symbol.size) (limit.map (· - symbol.size)) (symbol.apply m₁) d₁ = .finished m' unused := by
  cases fuel with
  | zero => exact .inl ⟨Nat.le_zero.mp hfuel, h⟩
  | succ fuel =>
    rw [readSymbols] at h
    split at h
    · rename_i hleft
      exact .inl ⟨hleft, h⟩
    · right
      rcases hread : readSymbol m d with ⟨symbol, m₁, d₁⟩
      simp only [hread] at h
      split at h
      · cases h
      · cases symbol with
        | none => cases h
        | some symbol =>
          simp only at h
          split at h
          · rename_i hfits
            exact ⟨fuel, symbol, m₁, d₁, rfl, rfl, hfits.1, hfits.2, h⟩
          · split at h <;> cases h

/-- Symbols that come to a good end have made the octets that were left to be made, and were given the room for them. -/
theorem size_out_of_finished (hfuel : left ≤ fuel) (h : readSymbols fuel left limit m d = .finished m' unused) :
    m'.out.size = m.out.size + left ∧ limit.all (left ≤ ·) = true := by
  induction fuel using Nat.strongRecOn generalizing left limit m d with
  | ind fuel ih =>
    rcases readSymbols_finished hfuel h with ⟨rfl, hend⟩ | ⟨fuel, symbol, m₁, d₁, rfl, hread, hle, hfits, hrest⟩
    · rw [settle_finished hend]
      exact ⟨rfl, by cases limit <;> simp⟩
    · have hreads := reads_readSymbol m d
      rw [hread] at hreads
      have hpos : 0 < symbol.size := hreads.2 symbol rfl
      obtain ⟨hsize, hroom⟩ := ih fuel (Nat.lt_succ_self fuel) (by omega) hrest
      rw [Symbol.size_apply, hreads.1] at hsize
      refine ⟨by omega, ?_⟩
      cases limit with
      | none => rfl
      | some room =>
        simp only [Option.map_some, Option.all_some, decide_eq_true_eq] at hfits hroom ⊢
        omega

/-- A limit that leaves room for all that is left to be made changes nothing. -/
theorem readSymbols_of_room (hroom : left ≤ room) : readSymbols fuel left (some room) m d = readSymbols fuel left none m d := by
  induction fuel generalizing left room m d with
  | zero => rfl
  | succ fuel ih =>
    rw [readSymbols, readSymbols]
    split
    · rfl
    · rcases readSymbol m d with ⟨_ | symbol, m₁, d₁⟩
      · rfl
      · simp only [Option.all_some, Option.all_none, Option.map_some, Option.map_none, decide_eq_true_eq, and_true, hroom,
          if_true]
        by_cases hle : symbol.size ≤ left
        · have hfits : symbol.size ≤ left ∧ symbol.size ≤ room := ⟨hle, by omega⟩
          rw [if_pos hfits, if_pos hle, ih (by omega)]
        · have hnot : ¬ (symbol.size ≤ left ∧ symbol.size ≤ room) := fun h => hle h.1
          rw [if_neg hnot, if_neg hle]

/-! ## (3) A chunk -/

/-- A chunk is its symbols, unless it does not even begin as one. -/
theorem decodeChunk_cases (m : Memory) (size : Nat) (chunk : Bytes) :
    (∀ limit m' unused, decodeChunk m size limit chunk ≠ .finished m' unused) ∨
      ∃ m₀ d₀, m₀.out = m.out ∧ ∀ limit, decodeChunk m size limit chunk = readSymbols size size limit m₀ d₀ := by
  rcases chunk with _ | ⟨first, r⟩
  · left
    intro limit m' unused h
    cases h
  · by_cases hfirst : first = 0
    · rcases r with _ | ⟨a, _ | ⟨b, _ | ⟨c, _ | ⟨e, r⟩⟩⟩⟩
      case cons.cons.cons.cons =>
        right
        refine ⟨{ m with table := #[] }, ⟨m.table, 0xFFFFFFFF, Bytes.ofLe32 [e, c, b, a], r, false⟩, rfl, fun limit => ?_⟩
        rw [decodeChunk, if_neg (not_not_intro hfirst)]
      all_goals
        left
        intro limit m' unused h
        simp [decodeChunk, hfirst] at h
    · left
      intro limit m' unused h
      unfold decodeChunk at h
      simp only [if_pos hfirst] at h
      cases h

theorem size_out_of_decodeChunk (h : decodeChunk m size limit chunk = .finished m' unused) :
    m'.out.size = m.out.size + size := by
  rcases decodeChunk_cases m size chunk with hnot | ⟨m₀, d₀, hout, heq⟩
  · exact absurd h (hnot limit m' unused)
  · rw [heq] at h
    rw [← hout]
    exact (size_out_of_finished (Nat.le_refl size) h).1

theorem decodeChunk_finished_iff : decodeChunk m size limit chunk = .finished m' unused ↔
    limit.all (size ≤ ·) = true ∧ decodeChunk m size none chunk = .finished m' unused := by
  rcases decodeChunk_cases m size chunk with hnot | ⟨m₀, d₀, -, heq⟩
  · simp [hnot]
  · rw [heq, heq]
    cases limit with
    | none => simp
    | some room =>
      simp only [Option.all_some, decide_eq_true_eq]
      constructor
      · intro h
        have hroom : size ≤ room := by simpa using (size_out_of_finished (Nat.le_refl size) h).2
        exact ⟨hroom, readSymbols_of_room hroom ▸ h⟩
      · rintro ⟨hroom, h⟩
        rwa [readSymbols_of_room hroom]

end FlatPackage.Lzma
