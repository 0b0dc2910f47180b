/-
  FlatPackage.Xz.Branch — the filters that make branch targets in machine code absolute.

  An encoder adds the place of a branch instruction to its relative target, so that calls
  of one routine look alike; the functions here take it off again. Each works on a whole
  block, whose first octet has the place `start`. Octets at the end that are too few for
  an instruction stay as they are.
-/

import FlatPackage.Lzma.Decoder

namespace FlatPackage.Xz.Branch

open Lzma.Memory (octet)

/-- The instruction sets whose branches are known. -/
inductive Machine where
  | x86
  | powerPc
  | ia64
  | arm
  | armThumb
  | sparc
  | arm64
  deriving DecidableEq, Repr

/-- Blocks may start only at places that are a multiple of this. -/
def Machine.alignment : Machine → Nat
  | .x86 => 1
  | .powerPc => 4
  | .ia64 => 16
  | .arm => 4
  | .armThumb => 2
  | .sparc => 4
  | .arm64 => 4

/-- The most octets that one step of a filter looks at. -/
def Machine.span : Machine → Nat
  | .x86 => 5
  | .ia64 => 16
  | _ => 4

def word (a : ByteArray) (i : Nat) : UInt32 := (octet a i).toUInt32

def put (a : ByteArray) (i : Nat) (v : UInt32) : ByteArray :=
  if h : i < a.size then a.set i v.toUInt8 else a

/-- Four octets from `i`, least significant first. -/
def little (a : ByteArray) (i : Nat) : UInt32 :=
  word a i ||| (word a (i + 1) <<< 8) ||| (word a (i + 2) <<< 16) ||| (word a (i + 3) <<< 24)

def putLittle (a : ByteArray) (i : Nat) (v : UInt32) : ByteArray :=
  put (put (put (put a i v) (i + 1) (v >>> 8)) (i + 2) (v >>> 16)) (i + 3) (v >>> 24)

/-- Four octets from `i`, most significant first. -/
def big (a : ByteArray) (i : Nat) : UInt32 :=
  word a (i + 3) ||| (word a (i + 2) <<< 8) ||| (word a (i + 1) <<< 16) ||| (word a i <<< 24)

def putBig (a : ByteArray) (i : Nat) (v : UInt32) : ByteArray :=
  put (put (put (put a (i + 3) v) (i + 2) (v >>> 8)) (i + 1) (v >>> 16)) i (v >>> 24)

/-- What a filter makes of some octets, and how many of them it has settled: those after them
    are too few to judge. -/
structure Restored where
  octets : ByteArray
  settled : Nat

/-- Applies `f` to each whole group of `stride` octets. -/
def sweep (stride : Nat) (f : Nat → ByteArray → ByteArray) (a : ByteArray) : Restored :=
  let n := a.size / stride
  ⟨Nat.fold n (fun k _ a => f (k * stride) a) a, n * stride⟩

/-! ## Fixed-width instruction sets -/

def powerPc (start : UInt32) (i : Nat) (a : ByteArray) : ByteArray :=
  let v := big a i
  if v &&& 0xFC000003 = 0x48000001 then
    let target : UInt32 := (v &&& 0x03FFFFFC) - (start + i.toUInt32)
    putBig a i ((target &&& 0x03FFFFFC) ||| 0x48000001)
  else a

def arm (start : UInt32) (i : Nat) (a : ByteArray) : ByteArray :=
  let v := little a i
  if v >>> 24 = 0xEB then
    let target : UInt32 := ((v &&& 0xFFFFFF) <<< 2) - (start + i.toUInt32 + 8)
    let field : UInt32 := (target >>> 2) &&& 0xFFFFFF
    putLittle a i (field ||| 0xEB000000)
  else a

def sparc (start : UInt32) (i : Nat) (a : ByteArray) : ByteArray :=
  let v := big a i
  if v >>> 22 = 0x100 ∨ v >>> 22 = 0x1FF then
    let target : UInt32 := ((v <<< 2) - (start + i.toUInt32)) >>> 2
    let top : UInt32 := (target >>> 22) &&& 1
    let sign : UInt32 := (0 - top) <<< 22
    putBig a i ((sign &&& 0x3FFFFFFF) ||| (target &&& 0x3FFFFF) ||| 0x40000000)
  else a

def arm64 (start : UInt32) (i : Nat) (a : ByteArray) : ByteArray :=
  let v := little a i
  let place : UInt32 := start + i.toUInt32
  if v >>> 26 = 0x25 then
    let target : UInt32 := v - (place >>> 2)
    putLittle a i ((target &&& 0x03FFFFFF) ||| 0x94000000)
  else if v &&& 0x9F000000 = 0x90000000 then
    let low : UInt32 := (v >>> 29) &&& 3
    let page : UInt32 := low ||| ((v >>> 3) &&& 0x001FFFFC)
    if (page + 0x00020000) &&& 0x001C0000 ≠ 0 then a
    else
      let target : UInt32 := page - (place >>> 12)
      let top : UInt32 := target &&& 0x00020000
      let sign : UInt32 := 0 - top
      let kept : UInt32 := v &&& 0x9000001F
      let low : UInt32 := target &&& 3
      let high : UInt32 := target &&& 0x0003FFFC
      putLittle a i (kept ||| (low <<< 29) ||| (high <<< 3) ||| (sign &&& 0x00E00000))
  else a

/-! ## Instruction pairs -/

/-- A long branch is a pair of halfwords; after one the next halfword is not looked at. -/
def armThumb (start : UInt32) : Nat → Nat → ByteArray → Restored
  | 0, i, a => ⟨a, i⟩
  | fuel + 1, i, a =>
    if a.size < i + 4 then ⟨a, i⟩
    else if word a (i + 1) &&& 0xF8 = 0xF0 ∧ word a (i + 3) &&& 0xF8 = 0xF8 then
      let source : UInt32 := ((word a (i + 1) &&& 7) <<< 19) ||| (word a i <<< 11)
        ||| ((word a (i + 3) &&& 7) <<< 8) ||| word a (i + 2)
      let target : UInt32 := ((source <<< 1) - (start + i.toUInt32 + 4)) >>> 1
      let upper : UInt32 := (target >>> 19) &&& 7
      let lower : UInt32 := (target >>> 8) &&& 7
      let a := put a (i + 1) (upper ||| 0xF0)
      let a := put a i (target >>> 11)
      let a := put a (i + 3) (lower ||| 0xF8)
      armThumb start fuel (i + 4) (put a (i + 2) target)
    else armThumb start fuel (i + 2) a

/-! ## Bundles of three instructions -/

/-- Which slots of a bundle hold branches, by the bundle's template, one bit a slot. -/
def branchSlots (template : UInt32) : Nat :=
  if template = 16 ∨ template = 17 then 4
  else if template = 18 ∨ template = 19 then 6
  else if template = 22 ∨ template = 23 then 7
  else if template = 24 ∨ template = 25 ∨ template = 28 ∨ template = 29 then 4
  else 0

def ia64Slot (start : UInt32) (i slot : Nat) (a : ByteArray) : ByteArray :=
  let bitPos := 5 + 41 * slot
  let first := i + bitPos / 8
  let shift := (bitPos % 8).toUInt64
  let raw : UInt64 := (List.range 6).foldl
    (fun v j => v ||| ((octet a (first + j)).toUInt64 <<< (8 * j).toUInt64)) 0
  let v : UInt64 := raw >>> shift
  if (v >>> 37) &&& 0xF = 5 ∧ (v >>> 9) &&& 7 = 0 then
    let low : UInt64 := (v >>> 13) &&& 0xFFFFF
    let high : UInt64 := (v >>> 36) &&& 1
    let source : UInt32 := (low ||| (high <<< 20)).toUInt32
    let moved : UInt32 := ((source <<< 4) - (start + i.toUInt32)) >>> 4
    let target : UInt64 := moved.toUInt64
    let field : UInt64 := (0x8FFFFF : UInt64) <<< 13
    let low : UInt64 := target &&& 0xFFFFF
    let high : UInt64 := target &&& 0x100000
    let v : UInt64 := (v &&& ~~~field) ||| (low <<< 13) ||| (high <<< 16)
    let under : UInt64 := ((1 : UInt64) <<< shift) - 1
    let raw : UInt64 := (raw &&& under) ||| (v <<< shift)
    (List.range 6).foldl (fun a j => put a (first + j) (raw >>> (8 * j).toUInt64).toUInt32) a
  else a

def ia64 (start : UInt32) (i : Nat) (a : ByteArray) : ByteArray :=
  let slots := branchSlots (word a i &&& 0x1F)
  (List.range 3).foldl (fun a slot => if slots.testBit slot then ia64Slot start i slot a else a) a

/-! ## x86: calls and jumps anywhere, recognised by their high target octet -/

def isHigh (b : UInt32) : Bool := b == 0 || b == 0xFF

/-- Takes the place off a target; `seen` tells how near a high octet of an earlier
    instruction lies, whose octets then have to be undone as the encoder did them. -/
def x86Target (place : UInt32) (seen : UInt32) : Nat → UInt32 → UInt32
  | 0, source => source - place
  | fuel + 1, source =>
    let target : UInt32 := source - place
    if seen = 0 then target
    else
      let k : UInt32 := if seen >>> 1 = 0 then 0 else if seen >>> 1 = 1 then 1 else if seen >>> 1 = 4 then 3 else 2
      if isHigh ((target >>> (24 - k * 8)) &&& 0xFF) then
        x86Target place seen fuel (target ^^^ (((1 : UInt32) <<< (32 - k * 8)) - 1))
      else target

/-- Moves the history on by so many octets. -/
def age : Nat → UInt32 → UInt32
  | 0, seen => seen
  | n + 1, seen => age n ((seen &&& 0x77) <<< 1)

/-- `last` is the place of the last call or jump octet, `seen` its history. -/
def x86 (start : UInt32) : Nat → Nat → UInt32 → UInt32 → ByteArray → Restored
  | 0, i, _, _, a => ⟨a, i⟩
  | fuel + 1, i, last, seen, a =>
    if a.size < i + 5 then ⟨a, i⟩
    else if word a i ≠ 0xE8 ∧ word a i ≠ 0xE9 then x86 start fuel (i + 1) last seen a
    else
      let place : UInt32 := start + i.toUInt32
      let gap : UInt32 := place - last
      let seen : UInt32 := if gap > 5 then 0 else age gap.toNat seen
      let high : UInt32 := word a (i + 4)
      if isHigh high ∧ seen >>> 1 ≤ 4 ∧ seen >>> 1 ≠ 3 then
        let target := x86Target (place + 5) seen 4 (little a (i + 1))
        let top : UInt32 := (target >>> 24) &&& 1
        let sign : UInt32 := 0 - top
        let low : UInt32 := target &&& 0xFFFFFF
        let a := putLittle a (i + 1) (low ||| (sign <<< 24))
        x86 start fuel (i + 5) place 0 a
      else
        let seen : UInt32 := seen ||| 1
        x86 start fuel (i + 1) place (if isHigh high then seen ||| 0x10 else seen) a

/-- Makes the branches in some octets relative again. -/
def restore (m : Machine) (start : UInt32) (a : ByteArray) : Restored :=
  match m with
  | .x86 => x86 start a.size 0 (0 - 5) 0 a
  | .powerPc => sweep 4 (powerPc start) a
  | .ia64 => sweep 16 (ia64 start) a
  | .arm => sweep 4 (arm start) a
  | .armThumb => armThumb start a.size 0 a
  | .sparc => sweep 4 (sparc start) a
  | .arm64 => sweep 4 (arm64 start) a

end FlatPackage.Xz.Branch
