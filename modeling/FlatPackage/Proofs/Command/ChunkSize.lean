/-
  FlatPackage.Proofs.Command.ChunkSize — which words are read as a chunk size.

  A chunk size is written in decimal digits and nothing else (`Spells`). The reader takes all such
  words, for the number that they spell. It takes more: it passes over blanks and one plus sign
  in front of the digits (`Lead`), so a word with a sign is not refused (`a_plus_sign_is_passed_over`).

  Proved:
  (1) `decimal_eq_value`: the reader's arithmetic is that of decimal digits.
  (2) `chunkSize?_eq_some_iff`: what is read, and for which number.
  (3) `readChunkSize_ok_iff`: a word is read if it spells a number, or if it does so behind a lead;
      every other word is refused by name.
  (4) `chunkSize_ne_zero`: the chunk size of a command line that is read is not zero.
-/

import FlatPackage.Command.Options
import Mathlib.Data.Nat.Digits.Defs

namespace FlatPackage.Command

/-! ## (1) Digits -/

/-- The number that decimal digits stand for, the first of them counting most. -/
def value (digits : List Char) : Nat := Nat.ofDigits 10 (digits.reverse.map fun c => c.toNat - '0'.toNat)

theorem decimal_foldl (digits : List Char) (start : Nat) :
    digits.foldl (fun n c => 10 * n + (c.toNat - 48)) start = start * 10 ^ digits.length + value digits := by
  induction digits generalizing start with
  | nil => simp [value]
  | cons c digits ih =>
    have hv : value (c :: digits) = value digits + 10 ^ digits.length * (c.toNat - 48) := by
      simp [value, Nat.ofDigits_append]
    rw [List.foldl_cons, ih, hv, List.length_cons, Nat.pow_succ, Nat.add_mul]
    have hs : 10 * start * 10 ^ digits.length = start * (10 ^ digits.length * 10) := by
      rw [Nat.mul_comm 10 start, Nat.mul_assoc, Nat.mul_comm 10]
    have hc := Nat.mul_comm (c.toNat - 48) (10 ^ digits.length)
    omega

theorem decimal_eq_value (digits : List Char) : decimal digits = value digits := by
  have h := decimal_foldl digits 0
  rwa [Nat.zero_mul, Nat.zero_add] at h

/-! ## (2) Words -/

/-- Digits, at least one of them, for a number that is not zero; it fits a word. -/
structure Spells (digits : List Char) (n : UInt64) : Prop where
  nonempty : digits ≠ []
  digit : ∀ c ∈ digits, '0' ≤ c ∧ c ≤ '9'
  value : value digits = n.toNat
  nonzero : n ≠ 0

/-- What is passed over in front of the digits. -/
inductive Lead : List Char → Prop
  | blanks (l : List Char) : (∀ c ∈ l, isBlank c) → Lead l
  | plus (l : List Char) : (∀ c ∈ l, isBlank c) → Lead (l ++ ['+'])

/-- What is left of a word when its lead was passed over. -/
def unled (s : List Char) : List Char :=
  match s.dropWhile isBlank with
  | '+' :: r => r
  | r => r

theorem isDigit_iff (c : Char) : c.isDigit = true ↔ '0' ≤ c ∧ c ≤ '9' := by
  simp only [Char.isDigit, Bool.and_eq_true, decide_eq_true_eq]
  exact Iff.rfl

theorem not_isBlank_of_digit {c : Char} (h : '0' ≤ c ∧ c ≤ '9') : isBlank c = false ∧ c ≠ '+' := by
  have hlo : 48 ≤ c.toNat := h.1
  refine ⟨?_, ?_⟩
  · have hsp : c ≠ ' ' := by rintro rfl; revert hlo; decide
    have hcr : ¬c ≤ '\r' := by
      intro hle
      have hle : c.toNat ≤ 13 := hle
      omega
    simp [isBlank, hsp, hcr]
  · rintro rfl
    revert hlo
    decide

/-- A word is its lead and the rest. -/
theorem exists_lead (s : List Char) : ∃ lead, Lead lead ∧ s = lead ++ unled s := by
  have hb : ∀ c ∈ s.takeWhile isBlank, isBlank c := List.all_eq_true.mp List.all_takeWhile
  have hs : s = s.takeWhile isBlank ++ s.dropWhile isBlank := List.takeWhile_append_dropWhile.symm
  unfold unled
  split
  · rename_i r hr
    refine ⟨_, .plus _ hb, ?_⟩
    rw [hr] at hs
    rwa [List.append_assoc, List.singleton_append]
  · exact ⟨_, .blanks _ hb, hs⟩

/-- Behind a lead, digits are what is left. -/
theorem unled_append {lead digits : List Char} (hl : Lead lead) (hne : digits ≠ [])
    (hd : ∀ c ∈ digits, '0' ≤ c ∧ c ≤ '9') : unled (lead ++ digits) = digits := by
  obtain ⟨c, r, rfl⟩ := List.exists_cons_of_ne_nil hne
  obtain ⟨hc, hplus⟩ := not_isBlank_of_digit (hd c List.mem_cons_self)
  unfold unled
  cases hl with
  | blanks _ hb =>
    rw [List.dropWhile_append_of_pos hb, List.dropWhile_cons_of_neg (by simp [hc])]
    split
    · rename_i heq
      exact absurd (List.cons.inj heq).1 hplus
    · rfl
  | plus l hb =>
    rw [List.append_assoc, List.dropWhile_append_of_pos hb, List.singleton_append,
      List.dropWhile_cons_of_neg (by decide)]
    rfl

theorem chunkSize?_eq (s : String) : chunkSize? s =
    if (unled s.toList).all Char.isDigit ∧ 0 < value (unled s.toList) ∧ value (unled s.toList) < UInt64.size
    then some (value (unled s.toList)).toUInt64 else none := by
  rw [← decimal_eq_value]
  rfl

theorem chunkSize?_eq_some_iff (s : String) (n : UInt64) :
    chunkSize? s = some n ↔ Spells (unled s.toList) n := by
  rw [chunkSize?_eq]
  constructor
  · intro h
    split at h
    · rename_i hc
      obtain ⟨hd, hpos, hlt⟩ := hc
      have hn : n.toNat = value (unled s.toList) := by
        rw [← Option.some.inj h]
        exact UInt64.toNat_ofNat_of_lt' hlt
      refine ⟨?_, fun c hc => (isDigit_iff c).mp (List.all_eq_true.mp hd c hc), hn.symm, ?_⟩
      · intro hnil
        rw [hnil] at hpos
        exact absurd hpos (by decide)
      · rintro rfl
        rw [← hn] at hpos
        exact absurd hpos (by decide)
    · cases h
  · intro h
    have hd : (unled s.toList).all Char.isDigit :=
      List.all_eq_true.mpr fun c hc => (isDigit_iff c).mpr (h.digit c hc)
    have hpos : 0 < n.toNat := UInt64.pos_iff_ne_zero.mpr h.nonzero
    rw [h.value, if_pos ⟨hd, hpos, n.toNat_lt⟩]
    exact congrArg some n.ofNat_toNat

/-! ## (3) Reading -/

/-- A word is read as a number if it spells it, or if what comes behind a lead does. Every other word
    is refused, and named. -/
theorem readChunkSize_ok_iff (s : String) :
    (∀ n, readChunkSize s = .ok n ↔ Spells s.toList n ∨
      ∃ lead digits, lead ≠ [] ∧ Lead lead ∧ s.toList = lead ++ digits ∧ Spells digits n) ∧
    ((∀ n, readChunkSize s ≠ .ok n) →
      readChunkSize s = .error (.badChunkSize s) ∧ (Fault.badChunkSize s).message = "Invalid chunk size: " ++ s) := by
  have hiff : ∀ n, readChunkSize s = .ok n ↔ chunkSize? s = some n := by
    intro n
    unfold readChunkSize
    cases chunkSize? s <;> simp
  refine ⟨fun n => ?_, fun hno => ⟨?_, rfl⟩⟩
  · rw [hiff, chunkSize?_eq_some_iff]
    constructor
    · intro h
      obtain ⟨lead, hl, hs⟩ := exists_lead s.toList
      by_cases hnil : lead = []
      · rw [hnil, List.nil_append] at hs
        exact .inl (hs ▸ h)
      · exact .inr ⟨lead, _, hnil, hl, hs, h⟩
    · rintro (h | ⟨lead, digits, -, hl, hs, h⟩)
      · have hu := unled_append (.blanks [] (by simp)) h.nonempty h.digit
        rw [List.nil_append] at hu
        rwa [hu]
      · rw [hs, unled_append hl h.nonempty h.digit]
        exact h
  · unfold readChunkSize at hno ⊢
    cases h : chunkSize? s with
    | none => rfl
    | some n =>
      rw [h] at hno
      exact absurd rfl (hno n)

/-- A sign is no digit, and the word is read all the same; so is one that starts with a blank. -/
theorem a_plus_sign_is_passed_over :
    readChunkSize "+5" = .ok 5 ∧ readChunkSize " 5" = .ok 5 ∧
      ¬∀ s n, readChunkSize s = .ok n ↔ Spells s.toList n := by
  refine ⟨by decide, by decide, fun h => ?_⟩
  have hs := (h "+5" 5).mp (by decide)
  exact absurd (hs.digit '+' (by decide)) (by decide)

/-! ## (4) Command lines -/

theorem readChunkSize_ne_zero {s : String} {n : UInt64} (h : readChunkSize s = .ok n) : n ≠ 0 := by
  unfold readChunkSize at h
  split at h
  · rename_i hs
    cases h
    exact ((chunkSize?_eq_some_iff s n).mp hs).nonzero
  · cases h

theorem readOptions_chunkSize {words : List String} {o o' : Options} (h : readOptions words o = .ok (some o'))
    (ho : o.chunkSize ≠ 0) : o'.chunkSize ≠ 0 := by
  fun_induction readOptions words o
  case case1 | case2 | case3 =>
    cases h
    exact ho
  case case4 | case5 | case11 | case12 => cases h
  case case6 ih | case7 ih | case9 ih | case10 ih => exact ih h ho
  case case8 value _ _ _ _ ih =>
    cases hn : readChunkSize value with
    | error f =>
      rw [hn] at h
      cases h
    | ok n =>
      rw [hn] at h
      exact ih n h (readChunkSize_ne_zero hn)

/-- The chunk size of a command line that is read is not zero. -/
theorem chunkSize_ne_zero {words : List String} {a : Action} {o : Options} (h : read words = .ok (.act a o)) :
    o.chunkSize ≠ 0 := by
  cases words with
  | nil => cases h
  | cons word rest =>
    rw [read] at h
    rcases hc : readCommand word with f | _ | b
    · rw [hc] at h
      cases h
    · rw [hc] at h
      cases h
    · rw [hc] at h
      rcases ho : readOptions rest .default with f | _ | o'
      · simp [ho, bind, Except.bind] at h
      · simp [ho, bind, Except.bind, pure, Except.pure] at h
      · simp only [ho, bind, Except.bind] at h
        have hne := readOptions_chunkSize ho (by decide)
        unfold complete at h
        split at h
        · cases h
        · split at h
          · cases h
          · cases h
            exact hne

end FlatPackage.Command
