/-
  FlatPackage.Xz.File — whole .xz files, one after another.

  A file is a header, blocks, an index and a footer that repeats the header's flags.
  Files may follow each other, with zeros in multiples of four between and after them;
  their contents are strung together.
-/

import FlatPackage.Xz.Drain
import FlatPackage.Xz.Index

namespace FlatPackage.Xz

/-! ## Header and footer -/

def magic : Bytes := [0xFD, 0x37, 0x7A, 0x58, 0x5A, 0x00]

def footerMagic : Bytes := [0x59, 0x5A]

namespace Check

def flags (c : Check) : Bytes := [0, c.id.toUInt8]

def ofFlags? : Bytes → Option Check
  | [a, b] => if a = 0 ∧ b < 16 then some ⟨b.toNat⟩ else none
  | _ => none

end Check

namespace File

def header (check : Check) : Bytes := magic ++ check.flags ++ Bytes.le32 (Checksum.crc32 check.flags)

/-- The footer of a file whose index has `size` octets. -/
def footer (check : Check) (size : Nat) : Bytes :=
  let fields := Bytes.le32 (size / 4 - 1).toUInt32 ++ check.flags
  Bytes.le32 (Checksum.crc32 fields) ++ fields ++ footerMagic

def readFlags (flags : Bytes) : Scan Check :=
  match Check.ofFlags? flags with
  | some c => return c
  | none => Scan.fail .options

/-- All twelve octets have to be there before any is judged. -/
def readHeader (notMagic : Flaw) : Scan Check := do
  let fields ← Scan.take 12
  Scan.demand (fields.take 6 == magic) notMagic
  let flags := (fields.drop 6).take 2
  Scan.demand (fields.drop 8 == Bytes.le32 (Checksum.crc32 flags)) .corrupt
  readFlags flags

def readFooter (check : Check) (size : Nat) : Scan Unit := do
  let fields ← Scan.take 12
  Scan.demand (fields.drop 10 == footerMagic) .corrupt
  let summed := (fields.drop 4).take 6
  Scan.demand (fields.take 4 == Bytes.le32 (Checksum.crc32 summed)) .corrupt
  let found ← readFlags (summed.drop 4)
  Scan.demand (4 * ((Bytes.ofLe32 (summed.take 4)).toNat + 1) == size) .corrupt
  Scan.demand (found == check) .corrupt

/-! ## A file -/

/-- The blocks read so far, the last one first. -/
abbrev Blocks := List (Record × Bytes)

/-- How many octets of contents some blocks have. -/
def Blocks.size (blocks : Blocks) : Nat := (blocks.map fun b => b.1.contents).foldr (· + ·) 0

/-- The next block, or the zero octet that opens the index. -/
def turn (check : Check) (d : Delivery) (blocks : Blocks) : Scan (Scan.Turn Blocks Blocks) := do
  let first ← Scan.octet
  if first = 0 then return .done blocks
  else return .more ((← Block.read check (d.advance blocks.size) first) :: blocks)

/-- One file; what its first octets have to be judged as when they are not the magic depends
    on whether another file came before. -/
def read (notMagic : Flaw) (d : Delivery) : Scan Bytes := do
  let check ← readHeader notMagic
  let blocks ← Scan.repeated (turn check d) []
  let blocks := blocks.reverse
  let records := blocks.map Prod.fst
  Index.read records
  readFooter check (Index.size records)
  return blocks.flatMap Prod.snd

/-! ## Files strung together -/

/-- Zeros after a file, in multiples of four. -/
def padding : Scan Unit := fun s =>
  if (s.takeWhile (· == 0)).length % 4 = 0 then .ok ((), s.dropWhile (· == 0)) else .error .corrupt

/-- One more file and its padding, after those whose contents are given, last one first. -/
def next (notMagic : Flaw) (d : Delivery) (sofar : List Bytes) : Scan (Scan.Turn (List Bytes) (List Bytes)) := do
  let contents ← read notMagic (d.advance ((sofar.map List.length).foldr (· + ·) 0))
  padding
  fun s => .ok (if s.isEmpty then .done (contents :: sofar) else .more (contents :: sofar), s)

/-- The contents of one or more files that fill the input. -/
def readAll (s : Bytes) : Except Flaw Bytes := do
  let turn := fun sofar => next (if sofar.isEmpty then .format else .corrupt) (Delivery.start s.length) sofar
  let (contents, _) ← Scan.repeated turn [] s
  return contents.reverse.flatten

end File

/-- The contents of one or more files, taken out of a decoder that reads them. -/
def decompress (s : Bytes) : Except Flaw Bytes := Drain.run (.ofReader File.readAll) (.start s none)

end FlatPackage.Xz
