/-
  FlatPackage.Bytes — octets as lists, and the two word orders the formats use.

  A stream, a file and an archive are all `Bytes`. Words of the chunk stream are
  eight octets, most significant first; words of the .xz container are four or
  eight octets, least significant first. `splitExact?` is the only way the readers
  take a counted run: it gives exactly `n` octets or nothing, so a count larger
  than the input is never clipped silently.
-/

namespace FlatPackage

abbrev Bytes := List UInt8

namespace Bytes

/-! ## Words -/

/-- Eight octets, most significant first. -/
def be64 (v : UInt64) : Bytes :=
  [(v >>> 56).toUInt8, (v >>> 48).toUInt8, (v >>> 40).toUInt8, (v >>> 32).toUInt8,
    (v >>> 24).toUInt8, (v >>> 16).toUInt8, (v >>> 8).toUInt8, v.toUInt8]

/-- The word that octets written most significant first stand for. -/
def ofBe64 (s : Bytes) : UInt64 := s.foldl (fun v b => (v <<< 8) ||| b.toUInt64) 0

/-- Four octets, least significant first. -/
def le32 (v : UInt32) : Bytes :=
  [v.toUInt8, (v >>> 8).toUInt8, (v >>> 16).toUInt8, (v >>> 24).toUInt8]

/-- Eight octets, least significant first. -/
def le64 (v : UInt64) : Bytes :=
  le32 v.toUInt32 ++ le32 (v >>> 32).toUInt32

/-- The word that octets written least significant first stand for. -/
def ofLe32 (s : Bytes) : UInt32 := s.foldr (fun b v => (v <<< 8) ||| b.toUInt32) 0

/-! ## Counted runs -/

/-- The first `n` octets and the rest, or nothing when there are fewer than `n`. -/
def splitExact? (n : Nat) (s : Bytes) : Option (Bytes × Bytes) :=
  let head := s.take n
  if head.length = n then some (head, s.drop n) else none

theorem splitExact?_eq_some {n : Nat} {s a r : Bytes} (h : splitExact? n s = some (a, r)) :
    s = a ++ r ∧ a.length = n := by
  simp only [splitExact?] at h
  split at h
  · rename_i hn
    simp only [Option.some.injEq, Prod.mk.injEq] at h
    obtain ⟨rfl, rfl⟩ := h
    exact ⟨(List.take_append_drop n s).symm, hn⟩
  · cases h

theorem splitExact?_append (a r : Bytes) : splitExact? a.length (a ++ r) = some (a, r) := by
  simp [splitExact?]

/-! ## Slices -/

/-- Runs of `size` octets, the last one perhaps shorter, none of them empty; a `size` of zero
    is taken for one. -/
def slices (size : Nat) : Bytes → List Bytes
  | [] => []
  | b :: r => (b :: r.take (size - 1)) :: slices size (r.drop (size - 1))
termination_by s => s.length
decreasing_by simp only [List.length_cons, List.length_drop]; omega

theorem flatten_slices (size : Nat) (s : Bytes) : (slices size s).flatten = s := by
  fun_induction slices size s with
  | case1 => rfl
  | case2 b r ih => simp [ih]

/-! ## Buffers -/

/-- `n` zero octets. -/
def zeros (n : Nat) : Bytes := List.replicate n 0

/-- A buffer made to have `n` octets: what is too much goes, what is new is zero. -/
def resize (n : Nat) (s : Bytes) : Bytes := s.take n ++ zeros (n - s.length)

theorem length_resize (n : Nat) (s : Bytes) : (resize n s).length = n := by
  simp only [resize, zeros, List.length_append, List.length_take, List.length_replicate]
  omega

theorem take_resize {i n : Nat} {s : Bytes} (hn : i ≤ n) (hs : i ≤ s.length) : (resize n s).take i = s.take i := by
  rw [resize, List.take_append_of_le_length (by rw [List.length_take]; omega), List.take_take, Nat.min_eq_left hn]

/-- Puts octets over those of a buffer from `i` on. -/
def overwrite (i : Nat) (a s : Bytes) : Bytes := s.take i ++ a ++ s.drop (i + a.length)

theorem length_overwrite {i : Nat} {a s : Bytes} (h : i + a.length ≤ s.length) : (overwrite i a s).length = s.length := by
  simp only [overwrite, List.length_append, List.length_take, List.length_drop]
  omega

theorem take_overwrite {i : Nat} {a s : Bytes} (h : i ≤ s.length) :
    (overwrite i a s).take (i + a.length) = s.take i ++ a := by
  have hl : (s.take i ++ a).length = i + a.length := by rw [List.length_append, List.length_take, Nat.min_eq_left h]
  rw [overwrite, ← hl, List.take_left]

/-! ## Small things -/

/-- How many octets bring a length of `n` up to a multiple of four. -/
def padding4 (n : Nat) : Nat := (4 - n % 4) % 4

/-- Two lower-case hexadecimal digits for each octet. -/
def hex (s : Bytes) : String :=
  String.ofList (s.flatMap fun b => [digit (b.toNat / 16), digit (b.toNat % 16)])
where
  digit (d : Nat) : Char := if d < 10 then Char.ofNat (48 + d) else Char.ofNat (87 + d)

end Bytes

end FlatPackage
