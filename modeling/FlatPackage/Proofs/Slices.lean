/-
  FlatPackage.Proofs.Slices — the slices of some octets, told by their places.

  The function that slices takes runs off the front until nothing is left. Here each slice is told
  by its number instead: the `i`-th starts at the `i`-th multiple of the size and ends at the
  next one, or where the octets end (`slice`).

  Proved:
  (1) `slices_eq_map`: the slices are those numbered from zero to the quotient of the two lengths,
      rounded up.
  (2) `slices_append`: behind a whole number of slices, slicing starts over.
-/

import FlatPackage.Bytes
import Mathlib.Algebra.Order.Floor.Div

namespace FlatPackage.Bytes

/-- A slice has at least one octet and at most as many as were asked for. -/
theorem length_of_mem_slices {size : Nat} (hs : 0 < size) {s x : Bytes} (h : x ∈ slices size s) :
    0 < x.length ∧ x.length ≤ size := by
  fun_induction slices size s with
  | case1 => cases h
  | case2 b r ih =>
    rcases List.mem_cons.mp h with rfl | h
    · rw [List.length_cons, List.length_take]
      omega
    · exact ih h

/-! ## One slice after another -/

theorem slices_nil (size : Nat) : slices size [] = [] := by
  rw [slices]

/-- What comes off the front, and the rest. -/
theorem slices_of_ne_nil {size : Nat} (hs : 0 < size) {s : Bytes} (h : s ≠ []) :
    slices size s = s.take size :: slices size (s.drop size) := by
  cases s with
  | nil => exact absurd rfl h
  | cons b r =>
    obtain ⟨m, rfl⟩ : ∃ m, size = m + 1 := ⟨size - 1, by omega⟩
    rw [slices, List.take_succ_cons, List.drop_succ_cons, Nat.add_sub_cancel]

/-! ## (1) Slices by number -/

/-- The octets from the `i`-th multiple of the size on, up to the next one or to the end. -/
def slice (size : Nat) (s : Bytes) (i : Nat) : Bytes := s.extract (i * size) (min ((i + 1) * size) s.length)

theorem slice_eq_take_drop (size : Nat) (s : Bytes) (i : Nat) : slice size s i = (s.drop (i * size)).take size := by
  have hsize : (i + 1) * size - i * size = size := by
    rw [Nat.succ_mul, Nat.add_sub_cancel_left]
  have hmin : min ((i + 1) * size) s.length - i * size = min size (s.drop (i * size)).length := by
    rw [List.length_drop]
    omega
  rw [slice, List.extract_eq_take_drop, hmin, ← List.take_eq_take_min]

theorem slice_zero (size : Nat) (s : Bytes) : slice size s 0 = s.take size := by
  rw [slice_eq_take_drop, Nat.zero_mul, List.drop_zero]

theorem slice_succ (size : Nat) (s : Bytes) (i : Nat) : slice size s (i + 1) = slice size (s.drop size) i := by
  rw [slice_eq_take_drop, slice_eq_take_drop, List.drop_drop, Nat.succ_mul, Nat.add_comm]

/-- Taking a run off the front takes one slice away. -/
theorem ceilDiv_length_of_ne_nil {size : Nat} (hs : 0 < size) {s : Bytes} (h : s ≠ []) :
    s.length ⌈/⌉ size = (s.drop size).length ⌈/⌉ size + 1 := by
  have hl : 0 < s.length := List.length_pos_iff.mpr h
  rw [Nat.ceilDiv_eq_add_pred_div, Nat.ceilDiv_eq_add_pred_div, List.length_drop]
  by_cases hle : size ≤ s.length
  · rw [← Nat.add_div_right _ hs]
    congr 1
    omega
  · have hdrop : (s.length - size + size - 1) / size = 0 := Nat.div_eq_of_lt (by omega)
    have hone : s.length + size - 1 = s.length - 1 + size := by omega
    rw [hdrop, hone, Nat.add_div_right _ hs, Nat.div_eq_of_lt (by omega)]

theorem slices_eq_map {size : Nat} (hs : 0 < size) (s : Bytes) :
    slices size s = (List.range (s.length ⌈/⌉ size)).map (slice size s) := by
  -- on the length: behind the first slice there is less to be sliced
  induction hl : s.length using Nat.strongRecOn generalizing s with
  | ind n ih =>
    subst hl
    by_cases h : s = []
    · rw [h, slices_nil, List.length_nil, zero_ceilDiv]
      rfl
    · have hlt : (s.drop size).length < s.length := by
        have hpos : 0 < s.length := List.length_pos_iff.mpr h
        rw [List.length_drop]
        omega
      rw [slices_of_ne_nil hs h, ih _ hlt _ rfl, ceilDiv_length_of_ne_nil hs h, List.range_succ_eq_map,
        List.map_cons, List.map_map, slice_zero]
      congr 2
      funext i
      exact (slice_succ size s i).symm

theorem length_slices {size : Nat} (hs : 0 < size) (s : Bytes) : (slices size s).length = s.length ⌈/⌉ size := by
  rw [slices_eq_map hs, List.length_map, List.length_range]

/-! ## (2) Slicing in parts -/

theorem slices_append {size : Nat} (hs : 0 < size) {s : Bytes} (hd : size ∣ s.length) (t : Bytes) :
    slices size (s ++ t) = slices size s ++ slices size t := by
  obtain ⟨q, hq⟩ := hd
  induction q generalizing s with
  | zero =>
    have h : s = [] := List.length_eq_zero_iff.mp hq
    rw [h, slices_nil, List.nil_append, List.nil_append]
  | succ q ih =>
    have hle : size ≤ s.length := by
      rw [hq, Nat.mul_succ]
      exact Nat.le_add_left _ _
    have hne : s ≠ [] := List.ne_nil_of_length_pos (by omega)
    have hq' : (s.drop size).length = size * q := by
      rw [List.length_drop, hq, Nat.mul_succ, Nat.add_sub_cancel]
    rw [slices_of_ne_nil hs hne, slices_of_ne_nil hs (List.append_ne_nil_of_left_ne_nil hne t),
      List.take_append_of_le_length hle, List.drop_append_of_le_length hle, ih hq', List.cons_append]

end FlatPackage.Bytes
