/-
  FlatPackage.Xz.Filter — what a block's header says was done to its contents.

  A chain is a list of filters in the order in which the writer applied them, ended by
  LZMA2, which is always last and never elsewhere. The reader undoes them from the
  last to the first, each on the whole block.
-/

import FlatPackage.Xz.Branch
import FlatPackage.Xz.Varint

namespace FlatPackage.Xz

/-- A filter that keeps the length. -/
inductive Filter where
  /-- Each octet is the difference to the one so many places before. -/
  | delta (distance : Nat)
  | branch (machine : Branch.Machine) (start : UInt32)
  deriving DecidableEq, Repr

/-- `window` is how far back LZMA2 may point. -/
structure Chain where
  filters : List Filter
  window : Nat
  deriving DecidableEq, Repr

namespace Filter

def undelta (distance : Nat) (a : ByteArray) : ByteArray :=
  Nat.fold (a.size - distance)
    (fun k _ a =>
      let i := k + distance
      if h : i < a.size then a.set i (a[i] + Lzma.Memory.octet a k) else a) a

def undo : Filter → ByteArray → ByteArray
  | delta distance, a => undelta distance a
  | branch machine start, a => (Branch.restore machine start a).octets

/-- Undoes filters that were applied in this order. -/
def undoAll (filters : List Filter) (a : ByteArray) : ByteArray := filters.foldr undo a

end Filter

namespace Chain

def undo (c : Chain) (a : ByteArray) : ByteArray := Filter.undoAll c.filters a

/-! ## Reading -/

/-- One filter's entry: LZMA2 with its window, or one of the others. -/
inductive Step where
  | lzma2 (window : Nat)
  | filter (f : Filter)

/-- The least window of `bits`, two sizes to a power of two, from 4096 up. A decoder keeps a
    whole number of sixteen octets. -/
def windowOf (bits : Nat) : Nat :=
  let n := if bits = 40 then 0xFFFFFFFF else (2 + bits % 2) * Nat.pow 2 (bits / 2 + 11)
  (n + 15) / 16 * 16

def machineOf? : Nat → Option Branch.Machine
  | 4 => some .x86
  | 5 => some .powerPc
  | 6 => some .ia64
  | 7 => some .arm
  | 8 => some .armThumb
  | 9 => some .sparc
  | 10 => some .arm64
  | _ => none

/-- The meaning of a filter's number and properties; none for what this reader does not know. -/
def stepOf? (id : Nat) (props : Bytes) : Option Step :=
  match id, props with
  | 3, [d] => some (.filter (.delta (d.toNat + 1)))
  | 0x21, [bits] => if bits ≤ 40 then some (.lzma2 (windowOf bits.toNat)) else none
  | id, props => do
    let machine ← machineOf? id
    let start ← if props.isEmpty then some 0 else if props.length = 4 then some (Bytes.ofLe32 props) else none
    if start.toNat % machine.alignment = 0 then some (.filter (.branch machine start)) else none

/-- LZMA2 ends the chain and occurs nowhere else. -/
def ofSteps? : List Step → Option Chain
  | [.lzma2 window] => some ⟨[], window⟩
  | .filter f :: r => (ofSteps? r).map fun c => { c with filters := f :: c.filters }
  | _ => none

/-- A filter's number, the size of its properties and the properties; numbers from
    2^62 up are reserved. -/
def readStep : Scan Step := do
  let id ← Varint.read
  Scan.demand (id < Nat.pow 2 62) .corrupt
  let size ← Varint.read
  let props ← Scan.take size
  match stepOf? id props with
  | some step => return step
  | none => Scan.fail .options

def readSteps : Nat → Scan (List Step)
  | 0 => return []
  | n + 1 => do
    let step ← readStep
    let rest ← readSteps n
    return step :: rest

def read (n : Nat) : Scan Chain := do
  match ofSteps? (← readSteps n) with
  | some c => return c
  | none => Scan.fail .options

end Chain

end FlatPackage.Xz
