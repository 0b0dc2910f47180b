/-
  FlatPackage.Xz.Check — the integrity checks that an .xz file may carry.

  A file names its check by a number below sixteen, which fixes how many octets follow
  each block. Three of the numbers stand for checks that are verified; of the others
  only the size is known, and their octets are read and not judged.
-/

import FlatPackage.Checksum.Crc
import FlatPackage.Checksum.Sha256
import FlatPackage.Xz.Scan

namespace FlatPackage.Xz

structure Check where
  id : Nat
  deriving DecidableEq, Repr

namespace Check

def crc64 : Check := ⟨4⟩

/-- Octets after a block: none, four, eight, sixteen, thirty-two or sixty-four, each
    size for three numbers in a row. -/
def size (c : Check) : Nat := if c.id = 0 then 0 else Nat.pow 2 (2 + (c.id - 1) / 3)

/-- Whether `tag` can be the check of these contents. -/
def accepts (c : Check) (contents : Bytes) (tag : Bytes) : Bool :=
  match c.id with
  | 1 => tag == Bytes.le32 (Checksum.crc32 contents)
  | 4 => tag == Bytes.le64 (Checksum.crc64 contents)
  | 10 => tag == Checksum.Sha256.digest contents
  | _ => true

/-- The check that this writer puts after a block. -/
def tag (contents : Bytes) : Bytes := Bytes.le64 (Checksum.crc64 contents)

end Check

end FlatPackage.Xz
