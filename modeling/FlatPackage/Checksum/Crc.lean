/-
  FlatPackage.Checksum.Crc — the two cyclic checks of the .xz container.

  Both are reflected: a register starts with all bits set, each octet is folded in
  through a table of the 256 one-octet remainders, and the register is inverted at
  the end. They differ only in width and polynomial.
-/

import FlatPackage.Bytes

namespace FlatPackage.Checksum

/-! ## 32 bits -/

/-- One bit of the remainder: shift out, and subtract the polynomial if a one left. -/
def shift32 (r : UInt32) : UInt32 :=
  if r &&& 1 = 1 then (r >>> 1) ^^^ 0xEDB88320 else r >>> 1

def table32 : Array UInt32 :=
  (Array.range 256).map fun i => Nat.repeat shift32 8 i.toUInt32

def step32 (r : UInt32) (b : UInt8) : UInt32 :=
  table32.getD ((r ^^^ b.toUInt32) &&& 0xFF).toNat 0 ^^^ (r >>> 8)

def crc32 (s : Bytes) : UInt32 := s.foldl step32 0xFFFFFFFF ^^^ 0xFFFFFFFF

/-! ## 64 bits -/

def shift64 (r : UInt64) : UInt64 :=
  if r &&& 1 = 1 then (r >>> 1) ^^^ 0xC96C5795D7870F42 else r >>> 1

def table64 : Array UInt64 :=
  (Array.range 256).map fun i => Nat.repeat shift64 8 i.toUInt64

def step64 (r : UInt64) (b : UInt8) : UInt64 :=
  table64.getD ((r ^^^ b.toUInt64) &&& 0xFF).toNat 0 ^^^ (r >>> 8)

def crc64 (s : Bytes) : UInt64 := s.foldl step64 0xFFFFFFFFFFFFFFFF ^^^ 0xFFFFFFFFFFFFFFFF

end FlatPackage.Checksum
