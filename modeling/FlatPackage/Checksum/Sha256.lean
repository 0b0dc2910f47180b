/-
  FlatPackage.Checksum.Sha256 — the SHA-256 digest.

  A message is padded with a one bit, zeros and its bit length to whole blocks of 64
  octets; each block is spread over 64 words and mixed into eight chaining words.
-/

import FlatPackage.Bytes

namespace FlatPackage.Checksum.Sha256

/-! ## Words -/

def rotr (x : UInt32) (n : UInt32) : UInt32 := (x >>> n) ||| (x <<< (32 - n))

def bigSigma0 (x : UInt32) : UInt32 := rotr x 2 ^^^ rotr x 13 ^^^ rotr x 22
def bigSigma1 (x : UInt32) : UInt32 := rotr x 6 ^^^ rotr x 11 ^^^ rotr x 25
def smallSigma0 (x : UInt32) : UInt32 := rotr x 7 ^^^ rotr x 18 ^^^ (x >>> 3)
def smallSigma1 (x : UInt32) : UInt32 := rotr x 17 ^^^ rotr x 19 ^^^ (x >>> 10)
def choose (x y z : UInt32) : UInt32 := (x &&& y) ^^^ (~~~x &&& z)
def majority (x y z : UInt32) : UInt32 := (x &&& y) ^^^ (x &&& z) ^^^ (y &&& z)

/-- The round constants: fractional bits of the cube roots of the first 64 primes. -/
def roundConstants : List UInt32 :=
  [0x428a2f98, 0x71374491, 0xb5c0fbcf, 0xe9b5dba5, 0x3956c25b, 0x59f111f1, 0x923f82a4, 0xab1c5ed5,
   0xd807aa98, 0x12835b01, 0x243185be, 0x550c7dc3, 0x72be5d74, 0x80deb1fe, 0x9bdc06a7, 0xc19bf174,
   0xe49b69c1, 0xefbe4786, 0x0fc19dc6, 0x240ca1cc, 0x2de92c6f, 0x4a7484aa, 0x5cb0a9dc, 0x76f988da,
   0x983e5152, 0xa831c66d, 0xb00327c8, 0xbf597fc7, 0xc6e00bf3, 0xd5a79147, 0x06ca6351, 0x14292967,
   0x27b70a85, 0x2e1b2138, 0x4d2c6dfc, 0x53380d13, 0x650a7354, 0x766a0abb, 0x81c2c92e, 0x92722c85,
   0xa2bfe8a1, 0xa81a664b, 0xc24b8b70, 0xc76c51a3, 0xd192e819, 0xd6990624, 0xf40e3585, 0x106aa070,
   0x19a4c116, 0x1e376c08, 0x2748774c, 0x34b0bcb5, 0x391c0cb3, 0x4ed8aa4a, 0x5b9cca4f, 0x682e6ff3,
   0x748f82ee, 0x78a5636f, 0x84c87814, 0x8cc70208, 0x90befffa, 0xa4506ceb, 0xbef9a3f7, 0xc67178f2]

/-- The eight words that travel from block to block. -/
structure Chain where
  a : UInt32
  b : UInt32
  c : UInt32
  d : UInt32
  e : UInt32
  f : UInt32
  g : UInt32
  h : UInt32
  deriving DecidableEq

/-- Fractional bits of the square roots of the first eight primes. -/
def start : Chain :=
  ⟨0x6a09e667, 0xbb67ae85, 0x3c6ef372, 0xa54ff53a, 0x510e527f, 0x9b05688c, 0x1f83d9ab, 0x5be0cd19⟩

def Chain.add (x y : Chain) : Chain :=
  ⟨x.a + y.a, x.b + y.b, x.c + y.c, x.d + y.d, x.e + y.e, x.f + y.f, x.g + y.g, x.h + y.h⟩

def be32 (v : UInt32) : Bytes :=
  [(v >>> 24).toUInt8, (v >>> 16).toUInt8, (v >>> 8).toUInt8, v.toUInt8]

def Chain.bytes (x : Chain) : Bytes :=
  [x.a, x.b, x.c, x.d, x.e, x.f, x.g, x.h].flatMap be32

/-! ## Blocks -/

/-- The message, a one bit, zeros and the bit length: whole blocks of 64 octets. -/
def pad (m : Bytes) : Bytes :=
  let n := m.length
  m ++ (0x80 :: Bytes.zeros ((119 - n % 64) % 64)) ++ Bytes.be64 (8 * n).toUInt64

/-- The sixteen words of a block, most significant octet first. -/
def words : Bytes → List UInt32
  | a :: b :: c :: d :: r =>
    ((a.toUInt32 <<< 24) ||| (b.toUInt32 <<< 16) ||| (c.toUInt32 <<< 8) ||| d.toUInt32) :: words r
  | _ => []

/-- The message schedule: sixteen words of the block, then 48 that each mix four older ones. -/
def schedule (block : Bytes) : Array UInt32 :=
  Nat.repeat extend 48 (words block).toArray
where
  extend (w : Array UInt32) : Array UInt32 :=
    let t := w.size
    w.push (smallSigma1 (w.getD (t - 2) 0) + w.getD (t - 7) 0
      + smallSigma0 (w.getD (t - 15) 0) + w.getD (t - 16) 0)

def round (s : Chain) (k w : UInt32) : Chain :=
  let t1 := s.h + bigSigma1 s.e + choose s.e s.f s.g + k + w
  let t2 := bigSigma0 s.a + majority s.a s.b s.c
  ⟨t1 + t2, s.a, s.b, s.c, s.d + t1, s.e, s.f, s.g⟩

def compress (s : Chain) (block : Bytes) : Chain :=
  s.add ((roundConstants.zip (schedule block).toList).foldl (fun s kw => round s kw.1 kw.2) s)

/-- Mixes in one block of 64 octets after the other. -/
def absorb (s : Chain) (m : Bytes) : Chain :=
  if _h : m = [] then s else absorb (compress s (m.take 64)) (m.drop 64)
termination_by m.length
decreasing_by
  have : 0 < m.length := List.length_pos_iff.mpr ‹_›
  simp only [List.length_drop]; omega

/-- The digest of a message, 32 octets. -/
def digest (m : Bytes) : Bytes := (absorb start (pad m)).bytes

/-- The digest in lower-case hexadecimal. -/
def hexDigest (m : Bytes) : String := Bytes.hex (digest m)

end FlatPackage.Checksum.Sha256
