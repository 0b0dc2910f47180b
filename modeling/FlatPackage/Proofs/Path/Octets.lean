/-
  FlatPackage.Proofs.Path.Octets — the order of texts is that of their octets.

  Texts are compared character by character. In UTF-8 a smaller character has the smaller
  octet where the two first differ, and one of them does not go on where the other ends, so it comes
  to the same to compare octets as unsigned numbers.

  Proved:
  (1) `octets_lt_octets`: a smaller text has the smaller octets.
-/

import FlatPackage.Bytes

namespace FlatPackage.Path

/-- The octets of a text in UTF-8. -/
def octets (s : String) : Bytes := s.toByteArray.data.toList

theorem octets_eq (s : String) : octets s = s.toList.flatMap String.utf8EncodeChar := by
  rw [octets, ← String.ofList_toList (s := s), String.toList_ofList]
  exact List.toList_data_toByteArray

/-- Of two characters the smaller has the smaller octets, whatever comes behind them. -/
theorem encodeChar_lt {c d : Char} (h : c < d) (l m : Bytes) :
    String.utf8EncodeChar c ++ l < String.utf8EncodeChar d ++ m := by
  have hcd : c.val.toNat < d.val.toNat := h
  have hd : d.val.toNat < 0x110000 := by
    rcases d.valid with hv | ⟨-, hv⟩
    · exact Nat.lt_trans hv (by decide)
    · exact hv
  unfold String.utf8EncodeChar
  dsimp only
  generalize c.val.toNat = v at hcd ⊢
  generalize d.val.toNat = w at hcd hd ⊢
  have hlt : ∀ {x y : Nat} {l m : Bytes}, UInt8.ofNat x :: l < UInt8.ofNat y :: m ↔
      x % 256 < y % 256 ∨ x % 256 = y % 256 ∧ l < m := by
    intro x y l m
    rw [List.cons_lt_cons_iff, UInt8.lt_iff_toNat_lt, ← UInt8.toNat_inj, UInt8.toNat_ofNat', UInt8.toNat_ofNat']
  have hthird : ∀ n, n / 4096 = n / 64 / 64 := fun n => by rw [Nat.div_div_eq_div_mul]
  have hfourth : ∀ n, n / 262144 = n / 64 / 64 / 64 := fun n => by rw [Nat.div_div_eq_div_mul, Nat.div_div_eq_div_mul]
  -- with as many octets the numbers differ at the same digit, with more the first octet is larger
  repeat' split
  all_goals simp only [List.cons_append, hlt, hthird, hfourth]
  all_goals omega

theorem append_lt_append {p l m : Bytes} (h : l < m) : p ++ l < p ++ m := by
  induction p with
  | nil => exact h
  | cons b p ih => exact List.cons_lt_cons_iff.mpr (.inr ⟨rfl, ih⟩)

theorem octets_lt_octets {s t : String} (h : s < t) : octets s < octets t := by
  rw [octets_eq, octets_eq]
  have h : s.toList < t.toList := h
  generalize s.toList = l at h
  generalize t.toList = m at h
  induction h with
  | nil =>
    rename_i c m
    rw [List.flatMap_nil, List.flatMap_cons]
    obtain ⟨b, r, hb⟩ : ∃ b r, String.utf8EncodeChar c = b :: r := by
      fun_cases String.utf8EncodeChar c <;> exact ⟨_, _, rfl⟩
    rw [hb]
    exact List.nil_lt_cons _ _
  | rel hcd =>
    rw [List.flatMap_cons, List.flatMap_cons]
    exact encodeChar_lt hcd _ _
  | cons _ ih =>
    rw [List.flatMap_cons, List.flatMap_cons]
    exact append_lt_append ih

end FlatPackage.Path
