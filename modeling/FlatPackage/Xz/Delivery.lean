/-
  FlatPackage.Xz.Delivery — how contents are handed over.

  They go into a buffer that is doubled whenever it is full, so a block is read in
  portions: each ends where the buffer is full, the last one where the block ends. Good
  contents do not depend on it. How far a bad block is read does (`Xz.Lookahead`).
-/

namespace FlatPackage.Xz

/-- The buffer's first size, and how many octets have been handed over. -/
structure Delivery where
  buffer : Nat
  given : Nat
  deriving DecidableEq, Repr

namespace Delivery

/-- Before anything is read of an input of `n` octets. -/
def start (n : Nat) : Delivery := ⟨max 65536 (4 * n), 0⟩

/-- After `n` more octets. -/
def advance (d : Delivery) (n : Nat) : Delivery := { d with given := d.given + n }

/-- The sizes that a buffer has, doubling from `size`, while they are less than `limit`. -/
def sizes (size limit : Nat) : List Nat :=
  if 0 < size ∧ size < limit then size :: sizes (2 * size) limit else []
termination_by limit - size

/-- Where the portions of a block of `n` octets end. A buffer that is full when the block begins
    ends a portion of no octets. -/
def portions (d : Delivery) (n : Nat) : List Nat :=
  let full := (sizes d.buffer (d.given + n)).filter (d.given ≤ ·)
  full.map (· - d.given) ++ [n]

end Delivery

end FlatPackage.Xz
