/-
  FlatPackage.Xz.Index — the list of blocks at the end of a file.

  An index opens with a zero octet, where a block would have its size; then the number of
  blocks and the two sizes of each, zeros up to a multiple of four, and a checksum. It has
  to say of each block, in order, what was read of it.
-/

import FlatPackage.Xz.Block

namespace FlatPackage.Xz

namespace Record

def write (r : Record) : Bytes := Varint.write r.unpadded ++ Varint.write r.contents

/-- A block's octets with its padding. -/
def padded (r : Record) : Nat := r.unpadded + Bytes.padding4 r.unpadded

def read : Scan Record := do
  let unpadded ← Varint.read
  Scan.demand (5 ≤ unpadded && unpadded ≤ unpaddedLimit) .corrupt
  return ⟨unpadded, ← Varint.read⟩

end Record

namespace Index

/-- Everything before the checksum. -/
def body (records : List Record) : Bytes :=
  let fields := 0 :: Varint.write records.length ++ records.flatMap Record.write
  fields ++ Bytes.zeros (Bytes.padding4 fields.length)

def write (records : List Record) : Bytes :=
  let s := body records
  s ++ Bytes.le32 (Checksum.crc32 s)

/-- The size of an index, which the file's footer repeats. -/
def size (records : List Record) : Nat := (body records).length + 4

/-- The three running sums that may never exceed those of the blocks: octets in blocks, octets
    of contents, octets of the index's own list. -/
structure Sums where
  blocks : Nat
  contents : Nat
  list : Nat
  deriving DecidableEq, Repr

def Sums.add (t : Sums) (r : Record) : Sums :=
  ⟨t.blocks + r.padded, t.contents + r.contents, t.list + (Record.write r).length⟩

def sums (records : List Record) : Sums := records.foldl Sums.add ⟨0, 0, 0⟩

def Sums.within (a b : Sums) : Bool :=
  a.blocks ≤ b.blocks && a.contents ≤ b.contents && a.list ≤ b.list

/-- Reads `n` records after some whose sums are `sofar`. -/
def readRecords (most : Sums) : Nat → Sums → Scan (List Record)
  | 0, _ => return []
  | n + 1, sofar => do
    let r ← Record.read
    let sofar := sofar.add r
    Scan.demand (sofar.within most) .corrupt
    return r :: (← readRecords most n sofar)

/-- Goes on at an octet and not at the end of the input. -/
def more : Scan Unit := fun s => if s.isEmpty then .error .truncated else .ok ((), s)

/-- Octets that have to be these, one by one. -/
def expect : Bytes → Scan Unit
  | [] => return ()
  | b :: r => do
    Scan.demand ((← Scan.octet) == b) .corrupt
    expect r

/-- Reads, after its zero octet, the index of a file whose blocks are known. -/
def read (records : List Record) : Scan Unit := do
  let count ← Varint.read
  Scan.demand (count == records.length) .corrupt
  let found ← readRecords (sums records) count ⟨0, 0, 0⟩
  let listed := 1 + (Varint.write count).length + (found.flatMap Record.write).length
  Scan.zeros .corrupt (Bytes.padding4 listed)
  more
  Scan.demand (found == records) .corrupt
  expect (Bytes.le32 (Checksum.crc32 (body records)))

end Index

end FlatPackage.Xz
