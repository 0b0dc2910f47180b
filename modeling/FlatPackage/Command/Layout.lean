/-
  FlatPackage.Command.Layout — how fields are laid out as they are printed.

  The base, the width and the fill character are settings of the output, and whatever is printed next
  is printed under them. A width holds for one field; base and fill hold until they are set again.
-/

namespace FlatPackage.Command

/-- The settings of the output. -/
structure Layout where
  base : Nat
  width : Nat
  fill : Char
  deriving DecidableEq, Repr

/-- What is printed: a field, or a setting. -/
inductive Piece where
  | text (s : String)
  | number (n : Nat)
  | base (b : Nat)
  | width (n : Nat)
  | fill (c : Char)
  deriving DecidableEq, Repr

namespace Layout

/-- The settings before anything is set. -/
def plain : Layout := ⟨10, 0, ' '⟩

/-- Fills up to a width on the left. -/
def padLeft (fill : Char) (width : Nat) (s : List Char) : List Char :=
  List.replicate (width - s.length) fill ++ s

/-- Prints a field. -/
def field (l : Layout) (s : List Char) : String × Layout :=
  (String.ofList (padLeft l.fill l.width s), { l with width := 0 })

def put (l : Layout) : Piece → String × Layout
  | .text s => l.field s.toList
  | .number n => l.field (Nat.toDigits l.base n)
  | .base b => ("", { l with base := b })
  | .width n => ("", { l with width := n })
  | .fill c => ("", { l with fill := c })

def print (l : Layout) : List Piece → String × Layout
  | [] => ("", l)
  | p :: r =>
    let (front, l) := l.put p
    let (back, l) := l.print r
    (front ++ back, l)

end Layout

end FlatPackage.Command
