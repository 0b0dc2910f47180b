/-
  FlatPackage.Lzma.Model — the adaptive model that an LZMA coder and decoder share.

  Every binary decision has a probability of being zero, in 2048ths, kept in one flat
  table; coder and decoder name a decision by its index here, so they agree by
  construction. Which decision comes next depends on the last few kinds of symbol
  (`next…` below) and on the position modulo a small power of two.
-/

namespace FlatPackage.Lzma

/-- How literals and positions are put into context: `lc` high bits of the previous
    octet, `lp` low bits of the position for literals, `pb` for everything else. -/
structure Props where
  lc : Nat
  lp : Nat
  pb : Nat
  deriving DecidableEq, Repr

/-- The one-octet form of the properties; the chunked format wants `lc + lp ≤ 4`. -/
def Props.ofByte? (b : UInt8) : Option Props :=
  let n := b.toNat
  let p : Props := ⟨n % 9, n / 9 % 5, n / 45⟩
  if n < 225 ∧ p.lc + p.lp ≤ 4 then some p else none

def Props.toByte (p : Props) : UInt8 := ((p.pb * 5 + p.lp) * 9 + p.lc).toUInt8

/-! ## Where each decision lives -/

def isMatchAt (state pos : Nat) : Nat := state * 16 + pos
def isRepAt (state : Nat) : Nat := 192 + state
def isRep0At (state : Nat) : Nat := 204 + state
def isRep1At (state : Nat) : Nat := 216 + state
def isRep2At (state : Nat) : Nat := 228 + state
def isLongRep0At (state pos : Nat) : Nat := 240 + state * 16 + pos
/-- Distance slots, one tree for each of the lengths 2, 3, 4 and 5 or more. -/
def slotTree (len : Nat) : Nat := 432 + (min (len - 2) 3) * 64
/-- Low bits of the middle distances; `first` is the least distance of the slot. -/
def midTree (first slot : Nat) : Nat := 688 + first - slot - 1
def alignTree : Nat := 816
/-- The length model of new matches; that of repeated ones follows. -/
def matchLengths : Nat := 832
def repLengths : Nat := 1346
def literalTrees : Nat := 1860

/-- The tree of a literal: the position's low `lp` bits and the previous octet's high `lc`. -/
def literalTree (p : Props) (pos : Nat) (prev : UInt8) : Nat :=
  literalTrees + 0x300 * ((pos % Nat.pow 2 p.lp) * Nat.pow 2 p.lc + prev.toNat / Nat.pow 2 (8 - p.lc))

def tableSize (p : Props) : Nat := literalTrees + 0x300 * Nat.pow 2 (p.lc + p.lp)

/-- All decisions start even. -/
def freshTable (p : Props) : Array UInt16 := Array.replicate (tableSize p) 1024

/-! ## Adaptation -/

/-- A decision that came out zero becomes likelier to be zero, by a 32nd of the way. -/
def towardZero (p : UInt16) : UInt16 := p + ((2048 - p) >>> 5)
def towardOne (p : UInt16) : UInt16 := p - (p >>> 5)

/-! ## The kind of the last symbols, twelve states; below seven the last one was a literal -/

def nextLiteral (s : Nat) : Nat := if s < 4 then 0 else if s < 10 then s - 3 else s - 6
def nextMatch (s : Nat) : Nat := if s < 7 then 7 else 10
def nextRep (s : Nat) : Nat := if s < 7 then 8 else 11
def nextShortRep (s : Nat) : Nat := if s < 7 then 9 else 11

end FlatPackage.Lzma
