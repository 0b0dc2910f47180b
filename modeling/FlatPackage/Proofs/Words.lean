/-
  FlatPackage.Proofs.Words — a word and its eight octets are the same thing.

  A word is followed through the number that its octets spell (`number`), where shifts are
  multiplications and no octet is ever lost: reading eight octets gives the word of that
  number (`toNat_ofBe64`), and the octets of a word spell its value (`number_be64`).

  Proved:
  (1) `ofBe64_be64`: what is written for a word reads back as it.
  (2) `be64_ofBe64`: every eight octets are what is written for the word they read as, so
      no two texts of eight octets stand for one word.
  (3) `ofLe32_le32`, `le32_ofLe32`: the same of words of four octets, least significant first.
-/

import FlatPackage.Bytes
import Mathlib.Algebra.Group.Nat.Defs
import Mathlib.Data.List.Induction

namespace FlatPackage.Bytes

/-- The number that octets spell, most significant first. -/
def number (s : Bytes) : Nat := s.foldl (fun n b => n * 256 + b.toNat) 0

theorem number_append_singleton (s : Bytes) (b : UInt8) : number (s ++ [b]) = number s * 256 + b.toNat := by
  simp [number]

/-- Octets in front are more significant by all the octets behind them. -/
theorem number_append (s t : Bytes) : number (s ++ t) = number s * 256 ^ t.length + number t := by
  induction t using List.reverseRecOn with
  | nil => simp [number]
  | append_singleton t b ih =>
    rw [← List.append_assoc, number_append_singleton, number_append_singleton, ih, List.length_append,
      List.length_singleton, Nat.pow_succ, Nat.add_mul, Nat.mul_assoc, Nat.add_assoc]

theorem ofBe64_append_singleton (s : Bytes) (b : UInt8) :
    ofBe64 (s ++ [b]) = (ofBe64 s <<< 8) ||| b.toUInt64 := by
  simp [ofBe64]

/-- One more octet below a word: the bits do not meet, so the disjunction is a sum. -/
theorem toNat_shift_or (v : UInt64) (b : UInt8) :
    ((v <<< 8) ||| b.toUInt64).toNat = (v.toNat * 256 + b.toNat) % 2 ^ 64 := by
  have hb : b.toNat < 2 ^ 8 := b.toNat_lt
  have hv : v.toNat < 2 ^ 64 := v.toNat_lt
  have hs : (v <<< 8).toNat = (v.toNat % 2 ^ 56) <<< 8 := by
    rw [UInt64.toNat_shiftLeft, Nat.shiftLeft_eq, Nat.shiftLeft_eq]
    show v.toNat * 256 % 2 ^ 64 = v.toNat % 2 ^ 56 * 256
    omega
  rw [UInt64.toNat_or, hs, UInt8.toNat_toUInt64, ← Nat.shiftLeft_add_eq_or_of_lt hb, Nat.shiftLeft_eq]
  omega

/-- Reading drops what does not fit in a word and nothing else. -/
theorem toNat_ofBe64 (s : Bytes) : (ofBe64 s).toNat = number s % 2 ^ 64 := by
  induction s using List.reverseRecOn with
  | nil => rfl
  | append_singleton s b ih =>
    rw [ofBe64_append_singleton, toNat_shift_or, ih, number_append_singleton]
    omega

theorem number_lt (s : Bytes) : number s < 256 ^ s.length := by
  induction s using List.reverseRecOn with
  | nil => decide
  | append_singleton s b ih =>
    have hb : b.toNat < 256 := b.toNat_lt
    rw [number_append_singleton, List.length_append, List.length_singleton, Nat.pow_succ]
    omega

/-- Texts of one length that spell one number are one text. -/
theorem number_inj {s t : Bytes} (hl : s.length = t.length) (h : number s = number t) : s = t := by
  induction s using List.reverseRecOn generalizing t with
  | nil => exact (List.length_eq_zero_iff.mp hl.symm).symm
  | append_singleton s b ih =>
    rcases List.eq_nil_or_concat t with rfl | ⟨t, c, rfl⟩
    · simp at hl
    · have hb : b.toNat < 256 := b.toNat_lt
      have hc : c.toNat < 256 := c.toNat_lt
      rw [List.concat_eq_append] at h hl ⊢
      rw [number_append_singleton, number_append_singleton] at h
      have hst : s = t := ih (by simpa using hl) (by omega)
      have hbc : b = c := UInt8.toNat_inj.mp (by omega)
      rw [hst, hbc]

/-! ## The octets of a word -/

@[simp] theorem length_be64 (v : UInt64) : (be64 v).length = 8 := rfl

/-- One octet more of a number: what the ones above it spell is a quotient. -/
theorem div_pow_step (n k : Nat) : n / 2 ^ (k + 8) * 256 + n / 2 ^ k % 2 ^ 8 = n / 2 ^ k := by
  rw [Nat.pow_add, ← Nat.div_div_eq_div_mul]
  omega

theorem toNat_shiftRight_octet (v : UInt64) {k : UInt64} (hk : k < 64) :
    (v >>> k).toUInt8.toNat = v.toNat / 2 ^ k.toNat % 2 ^ 8 := by
  have hk : k.toNat < 64 := hk
  rw [UInt64.toNat_toUInt8, UInt64.toNat_shiftRight, Nat.shiftRight_eq_div_pow, Nat.mod_eq_of_lt hk]

/-- The octets of a word spell its value. -/
theorem number_be64 (v : UInt64) : number (be64 v) = v.toNat := by
  have hv : v.toNat < 2 ^ 64 := v.toNat_lt
  have htop : v.toNat / 2 ^ 56 % 2 ^ 8 = v.toNat / 2 ^ 56 := Nat.mod_eq_of_lt (by omega)
  have hlow : v.toNat / 2 ^ 8 * 256 + v.toNat % 2 ^ 8 = v.toNat := by omega
  simp only [number, be64, List.foldl_cons, List.foldl_nil, Nat.zero_mul, Nat.zero_add]
  rw [toNat_shiftRight_octet v (k := 56) (by decide), toNat_shiftRight_octet v (k := 48) (by decide),
    toNat_shiftRight_octet v (k := 40) (by decide), toNat_shiftRight_octet v (k := 32) (by decide),
    toNat_shiftRight_octet v (k := 24) (by decide), toNat_shiftRight_octet v (k := 16) (by decide),
    toNat_shiftRight_octet v (k := 8) (by decide), UInt64.toNat_toUInt8]
  simp only [UInt64.reduceToNat]
  rw [htop, div_pow_step _ 48, div_pow_step _ 40, div_pow_step _ 32, div_pow_step _ 24, div_pow_step _ 16,
    div_pow_step _ 8, hlow]

theorem ofBe64_be64 (v : UInt64) : ofBe64 (be64 v) = v := by
  have hv : v.toNat < 2 ^ 64 := v.toNat_lt
  apply UInt64.toNat_inj.mp
  rw [toNat_ofBe64, number_be64, Nat.mod_eq_of_lt hv]

theorem be64_ofBe64 {s : Bytes} (h : s.length = 8) : be64 (ofBe64 s) = s := by
  have hs := number_lt s
  rw [h] at hs
  apply number_inj (by rw [length_be64, h])
  rw [number_be64, toNat_ofBe64]
  omega

/-! ## Least significant first -/

@[simp] theorem length_le32 (v : UInt32) : (le32 v).length = 4 := rfl

/-- Octets that are written the other way round spell the word when they are turned. -/
theorem toNat_ofLe32 (s : Bytes) : (ofLe32 s).toNat = number s.reverse % 2 ^ 32 := by
  induction s with
  | nil => rfl
  | cons b s ih =>
    have hb : b.toNat < 2 ^ 8 := b.toNat_lt
    have hshift : (ofLe32 s <<< 8).toNat = ((ofLe32 s).toNat % 2 ^ 24) <<< 8 := by
      rw [UInt32.toNat_shiftLeft, Nat.shiftLeft_eq, Nat.shiftLeft_eq]
      show (ofLe32 s).toNat * 256 % 2 ^ 32 = (ofLe32 s).toNat % 2 ^ 24 * 256
      omega
    show ((ofLe32 s <<< 8) ||| b.toUInt32).toNat = _
    rw [UInt32.toNat_or, hshift, UInt8.toNat_toUInt32, ← Nat.shiftLeft_add_eq_or_of_lt hb, Nat.shiftLeft_eq, ih,
      List.reverse_cons, number_append_singleton]
    omega

theorem number_le32 (v : UInt32) : number (le32 v).reverse = v.toNat := by
  have hv : v.toNat < 2 ^ 32 := v.toNat_lt
  have hshift : ∀ {k : UInt32}, k < 32 → (v >>> k).toUInt8.toNat = v.toNat / 2 ^ k.toNat % 2 ^ 8 := by
    intro k hk
    have hk : k.toNat < 32 := hk
    rw [UInt32.toNat_toUInt8, UInt32.toNat_shiftRight, Nat.shiftRight_eq_div_pow, Nat.mod_eq_of_lt hk]
  simp only [number, le32, List.reverse_cons, List.reverse_nil, List.nil_append, List.cons_append, List.foldl_cons,
    List.foldl_nil, Nat.zero_mul, Nat.zero_add]
  rw [hshift (k := 24) (by decide), hshift (k := 16) (by decide), hshift (k := 8) (by decide), UInt32.toNat_toUInt8]
  simp only [UInt32.reduceToNat]
  omega

theorem ofLe32_le32 (v : UInt32) : ofLe32 (le32 v) = v := by
  have hv : v.toNat < 2 ^ 32 := v.toNat_lt
  apply UInt32.toNat_inj.mp
  rw [toNat_ofLe32, number_le32, Nat.mod_eq_of_lt hv]

theorem le32_ofLe32 {s : Bytes} (h : s.length = 4) : le32 (ofLe32 s) = s := by
  have hs := number_lt s.reverse
  rw [List.length_reverse, h] at hs
  apply List.reverse_inj.mp
  apply number_inj (by rw [List.length_reverse, List.length_reverse, length_le32, h])
  rw [number_le32, toNat_ofLe32]
  omega

end FlatPackage.Bytes
