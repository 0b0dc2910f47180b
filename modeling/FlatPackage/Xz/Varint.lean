/-
  FlatPackage.Xz.Varint — integers below 2^63 in one to nine octets.

  Seven bits an octet, least significant first, the high bit set on all but the last.
  The last octet of a longer form may not be zero, so every number has one form.
-/

import FlatPackage.Xz.Scan

namespace FlatPackage.Xz.Varint

def write (n : Nat) : Bytes :=
  if n < 128 then [n.toUInt8] else (n % 128 + 128).toUInt8 :: write (n / 128)

/-- Reads the octets after the first `count`, which stand for `sofar`. -/
def readFrom (count sofar : Nat) : Nat → Scan Nat
  | 0 => Scan.fail .corrupt
  | fuel + 1 => do
    let b ← Scan.octet
    let v := sofar + (b.toNat % 128) * Nat.pow 128 count
    if b < 128 then
      Scan.demand (b ≠ 0 || count == 0) .corrupt
      return v
    else readFrom (count + 1) v fuel

def read : Scan Nat := readFrom 0 0 9

end FlatPackage.Xz.Varint
