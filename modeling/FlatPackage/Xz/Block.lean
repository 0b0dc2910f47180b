/-
  FlatPackage.Xz.Block — one block: a header, the packed contents, their check.

  The header may declare the size of the packed contents, of the contents, or of both;
  what it declares has to come true exactly. A header that fails its checksum is corrupt
  before anything in it is looked at.
-/

import FlatPackage.Xz.Check
import FlatPackage.Xz.Chunks
import FlatPackage.Xz.Filter
import FlatPackage.Xz.Lookahead

namespace FlatPackage.Xz

/-- What the index at the end of a file repeats about a block. -/
structure Record where
  /-- Header, packed contents and check, without the padding. -/
  unpadded : Nat
  contents : Nat
  deriving DecidableEq, Repr

/-- No size in an .xz file reaches this. -/
def sizeLimit : Nat := Nat.pow 2 63

/-- The greatest unpadded size of a block. -/
def unpaddedLimit : Nat := sizeLimit - 4

structure BlockHeader where
  /-- Of the header itself. -/
  size : Nat
  packed : Option Nat
  contents : Option Nat
  chain : Chain
  deriving DecidableEq, Repr

namespace BlockHeader

/-- A size that is there only if the header's flag says so. -/
def optionalSize (present : Bool) : Scan (Option Nat) := do
  if present then return some (← Varint.read) else return none

/-- Nothing but zeros up to the end of the header. -/
def padding : Scan Unit := fun s => if s.all (· == 0) then .ok ((), []) else .error .options

/-- The fields after the size octet; `size` is the whole header's. -/
def fields (check : Check) (size : Nat) : Scan BlockHeader := do
  let flags ← Scan.octet
  Scan.demand (flags &&& 0x3C == 0) .options
  let packed ← optionalSize (flags &&& 0x40 != 0)
  Scan.demand (packed.all fun n => 0 < n && size + n + check.size ≤ unpaddedLimit) .corrupt
  let contents ← optionalSize (flags &&& 0x80 != 0)
  let chain ← Chain.read ((flags &&& 3).toNat + 1)
  padding
  return ⟨size, packed, contents, chain⟩

/-- The header whose size octet is `first`. -/
def read (check : Check) (first : UInt8) : Scan BlockHeader := do
  let size := 4 * (first.toNat + 1)
  let body ← Scan.take (size - 5)
  let sum ← Scan.take 4
  Scan.demand (sum == Bytes.le32 (Checksum.crc32 (first :: body))) .corrupt
  fun s => (Scan.confined .corrupt (fields check size) body).map fun h => (h, s)

end BlockHeader

namespace Block

/-- The contents as they were packed, no longer than the header says. -/
def filtered (d : Delivery) (h : BlockHeader) : Scan ByteArray := fun s =>
  match Chunks.read h.chain.window (h.contents.map fun n => [n]) s with
  | .ok (.ended out, r) => .ok (out, r)
  | .ok (.full out, _) => .error (Lookahead.flaw h.chain d out.size s)
  | .error f => .error f

/-- The packed contents and how many octets they take. Inside a declared size the end of the
    region is the end of the data; a region that the input cuts short cannot come true. -/
def packed (d : Delivery) (h : BlockHeader) : Scan (ByteArray × Nat) := fun s =>
  let run := filtered d h
  match h.packed with
  | none => do
    let (a, r) ← run s
    return ((a, s.length - r.length), r)
  | some n =>
    match Bytes.splitExact? n s with
    | some (region, r) => (Scan.confined .corrupt run region).map fun a => ((a, n), r)
    | none => match run s with
      | .ok _ => .error .corrupt
      | .error e => .error e

/-- A block whose header starts with the octet `first`. -/
def read (check : Check) (d : Delivery) (first : UInt8) : Scan (Record × Bytes) := do
  let h ← BlockHeader.read check first
  let (filtered, packed) ← Block.packed d h
  Scan.demand (h.contents.all (· == filtered.size)) .corrupt
  Scan.zeros .corrupt (Bytes.padding4 packed)
  let contents := (h.chain.undo filtered).toList
  let tag ← Scan.take check.size
  Scan.demand (check.accepts contents tag) .corrupt
  return (⟨h.size + packed + check.size, filtered.size⟩, contents)

end Block

end FlatPackage.Xz
