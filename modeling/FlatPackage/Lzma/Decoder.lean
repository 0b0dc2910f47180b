/-
  FlatPackage.Lzma.Decoder — reads the symbols of one LZMA chunk.

  A chunk is a run of octets of known length that stands for a known number of output
  octets. The range decoder takes octets as it needs them; when it needs one more than
  the chunk has, it is `starved` from then on, and no decision made after that counts.
  The outcome of a chunk says which of four things ended it:
  - `finished`: all output was made and the range decoder is at rest; octets that the
    chunk still has are handed back for the caller to judge,
  - `starved`: one more octet was needed,
  - `malformed`: a symbol points before the start of the dictionary, runs past the
    chunk's output, or the end is not at rest,
  - `overfull`: the caller's limit on output was reached in the middle of the chunk; the
    output has come up to the limit.
-/

import FlatPackage.Bytes
import FlatPackage.Lzma.Model

namespace FlatPackage.Lzma

/-! ## The range decoder -/

structure RangeDecoder where
  table : Array UInt16
  range : UInt32
  code : UInt32
  input : Bytes
  starved : Bool

namespace RangeDecoder

/-- Takes one octet in when the range has become narrow. -/
def normalize (d : RangeDecoder) : RangeDecoder :=
  if d.range < 0x1000000 then
    match d.input with
    | b :: r => { d with range := d.range <<< 8, code := (d.code <<< 8) ||| b.toUInt32, input := r }
    | [] => { d with range := d.range <<< 8, starved := true }
  else d

/-- One adaptive decision. -/
def bit (d : RangeDecoder) (index : Nat) : Nat × RangeDecoder :=
  let d := d.normalize
  let p := d.table.getD index 1024
  let bound := (d.range >>> 11) * p.toUInt32
  if d.code < bound then
    (0, { d with range := bound, table := d.table.setIfInBounds index (towardZero p) })
  else
    (1, { d with
      range := d.range - bound
      code := d.code - bound
      table := d.table.setIfInBounds index (towardOne p) })

/-- `n` decisions down a tree, most significant first; `node` is 1 at the root. -/
def tree (base : Nat) : Nat → Nat → RangeDecoder → Nat × RangeDecoder
  | 0, node, d => (node, d)
  | n + 1, node, d =>
    let (b, d) := d.bit (base + node)
    tree base n (2 * node + b) d

/-- `n` decisions down a tree, least significant first. -/
def treeReversed (base : Nat) : Nat → Nat → Nat → RangeDecoder → Nat × RangeDecoder
  | 0, _, _, d => (0, d)
  | n + 1, weight, node, d =>
    let (b, d) := d.bit (base + node)
    let (v, d) := treeReversed base n (2 * weight) (2 * node + b) d
    (weight * b + v, d)

/-- `n` decisions of even odds, most significant first. -/
def even : Nat → Nat → RangeDecoder → Nat × RangeDecoder
  | 0, v, d => (v, d)
  | n + 1, v, d =>
    let d := d.normalize
    let half := d.range >>> 1
    if d.code < half then even n (2 * v) { d with range := half }
    else even n (2 * v + 1) { d with range := half, code := d.code - half }

/-- A literal after a match: while the bits agree with those of the octet that the
    last distance points to, that octet's next bit chooses the tree. -/
def literalBeside (base : Nat) (beside : Nat) : Nat → Nat → RangeDecoder → Nat × RangeDecoder
  | 0, node, d => (node, d)
  | n + 1, node, d =>
    let expected := beside / Nat.pow 2 n % 2
    let (b, d) := d.bit (base + 0x100 * (1 + expected) + node)
    if b = expected then literalBeside base beside n (2 * node + b) d
    else tree base n (2 * node + b) d

/-- A match length, 2 to 273. -/
def length (base pos : Nat) (d : RangeDecoder) : Nat × RangeDecoder :=
  let (b, d) := d.bit base
  if b = 0 then
    let (v, d) := tree (base + 2 + 8 * pos) 3 1 d
    (v - 8 + 2, d)
  else
    let (b, d) := d.bit (base + 1)
    if b = 0 then
      let (v, d) := tree (base + 130 + 8 * pos) 3 1 d
      (v - 8 + 10, d)
    else
      let (v, d) := tree (base + 258) 8 1 d
      (v - 256 + 18, d)

/-- The distance of a new match, zero for the octet just before. -/
def distance (len : Nat) (d : RangeDecoder) : Nat × RangeDecoder :=
  let (v, d) := tree (slotTree len) 6 1 d
  let slot := v - 64
  if slot < 4 then (slot, d)
  else
    let low := slot / 2 - 1
    let first := (2 + slot % 2) * Nat.pow 2 low
    if slot < 14 then
      let (v, d) := treeReversed (midTree first slot) low 1 1 d
      (first + v, d)
    else
      let (high, d) := even (low - 4) 0 d
      let (v, d) := treeReversed alignTree 4 1 1 d
      (first + 16 * high + v, d)

end RangeDecoder

/-! ## The dictionary and the symbols -/

/-- What lives on from chunk to chunk. `base` is where the dictionary was last emptied. -/
structure Memory where
  props : Props
  table : Array UInt16
  state : Nat
  rep0 : Nat
  rep1 : Nat
  rep2 : Nat
  rep3 : Nat
  out : ByteArray
  base : Nat
  window : Nat

namespace Memory

/-- How far back a match may point. -/
def reach (m : Memory) : Nat := min (m.out.size - m.base) m.window

/-- The octet at a place, zero past the end. -/
def octet (a : ByteArray) (i : Nat) : UInt8 := if h : i < a.size then a[i] else 0

/-- The octet `dist + 1` places back, zero before the start. -/
def back (m : Memory) (dist : Nat) : UInt8 :=
  if dist < m.out.size - m.base then octet m.out (m.out.size - 1 - dist) else 0

/-- Repeats the octet `dist + 1` places back, `n` times, each time at the new end. -/
def copy (dist : Nat) : Nat → ByteArray → ByteArray
  | 0, out => out
  | n + 1, out => copy dist n (out.push (octet out (out.size - 1 - dist)))

/-- Forgets the statistics and the last distances, not the dictionary. -/
def resetState (m : Memory) (p : Props) : Memory :=
  { m with props := p, table := freshTable p, state := 0, rep0 := 0, rep1 := 0, rep2 := 0, rep3 := 0 }

end Memory

inductive Outcome where
  | finished (m : Memory) (unused : Bytes)
  | starved
  | malformed
  | overfull (m : Memory) (unused : Bytes)

/-- A symbol: one literal octet, or so many octets from the last distance. -/
inductive Symbol where
  | literal (b : UInt8)
  | copy (n : Nat)

/-- Reads one symbol; none when it is malformed or a needed octet was missing. -/
def readSymbol (m : Memory) (d : RangeDecoder) : Option Symbol × Memory × RangeDecoder :=
  let position := m.out.size - m.base
  let pos := position % Nat.pow 2 m.props.pb
  let s := m.state
  let (b, d) := d.bit (isMatchAt s pos)
  if b = 0 then
    let base := literalTree m.props position (m.back 0)
    let (v, d) :=
      if s < 7 then RangeDecoder.tree base 8 1 d
      else RangeDecoder.literalBeside base (m.back m.rep0).toNat 8 1 d
    (some (.literal v.toUInt8), { m with state := nextLiteral s }, d)
  else
    let (b, d) := d.bit (isRepAt s)
    if b = 0 then
      let (len, d) := d.length matchLengths pos
      let (dist, d) := d.distance len
      let m := { m with state := nextMatch s, rep0 := dist, rep1 := m.rep0, rep2 := m.rep1, rep3 := m.rep2 }
      (if dist < m.reach then some (.copy len) else none, m, d)
    else if d.starved ∨ m.reach = 0 then (none, m, d)
    else
      let (b, d) := d.bit (isRep0At s)
      if b = 0 then
        let (b, d) := d.bit (isLongRep0At s pos)
        if b = 0 then (some (.copy 1), { m with state := nextShortRep s }, d)
        else
          let (len, d) := d.length repLengths pos
          (some (.copy len), { m with state := nextRep s }, d)
      else
        let (b, d) := d.bit (isRep1At s)
        if b = 0 then
          let (len, d) := d.length repLengths pos
          (some (.copy len), { m with state := nextRep s, rep0 := m.rep1, rep1 := m.rep0 }, d)
        else
          let (b, d) := d.bit (isRep2At s)
          let m := if b = 0 then { m with rep0 := m.rep2, rep1 := m.rep0, rep2 := m.rep1 }
            else { m with rep0 := m.rep3, rep1 := m.rep0, rep2 := m.rep1, rep3 := m.rep2 }
          let (len, d) := d.length repLengths pos
          (some (.copy len), { m with state := nextRep s }, d)

/-- Adds one symbol's octets to the output. -/
def Symbol.apply (m : Memory) : Symbol → Memory
  | .literal b => { m with out := m.out.push b }
  | .copy n => { m with out := Memory.copy m.rep0 n m.out }

def Symbol.size : Symbol → Nat
  | .literal _ => 1
  | .copy n => n

/-- Adds as much of a symbol as there is room for, which is less than all of it. -/
def Symbol.applyPart (m : Memory) (room : Nat) : Symbol → Memory
  | .literal _ => m
  | .copy _ => { m with out := Memory.copy m.rep0 room m.out }

/-- The end of a chunk: the range decoder takes its last octet and must then be at rest. -/
def settle (m : Memory) (d : RangeDecoder) : Outcome :=
  let d := d.normalize
  if d.starved then .starved
  else if d.code = 0 then .finished { m with table := d.table } d.input
  else .malformed

/-- Reads symbols until `left` octets of output are made; `room` is the caller's limit.
    Each symbol makes at least one octet, so `left` symbols are enough. -/
def readSymbols : Nat → Nat → Option Nat → Memory → RangeDecoder → Outcome
  | 0, _, _, m, d => settle m d
  | fuel + 1, left, room, m, d =>
    if left = 0 then settle m d
    else
      let (symbol, m, d) := readSymbol m d
      if d.starved then .starved
      else match symbol with
        | none => .malformed
        | some symbol =>
          let n := symbol.size
          if n ≤ left ∧ room.all (n ≤ ·) then
            readSymbols fuel (left - n) (room.map (· - n)) (symbol.apply m) d
          else if room.all (left ≤ ·) then .malformed
          else .overfull (symbol.applyPart m (room.getD 0)) d.input

/-- Decodes a chunk that stands for `size` octets. Its first octet is always zero and the
    next four start the range decoder. -/
def decodeChunk (m : Memory) (size : Nat) (room : Option Nat) (chunk : Bytes) : Outcome :=
  match chunk with
  | [] => .starved
  | first :: r =>
    if first ≠ 0 then .malformed
    else match r with
      | a :: b :: c :: e :: r =>
        let code := Bytes.ofLe32 [e, c, b, a]
        let table := m.table
        readSymbols size size room { m with table := #[] } ⟨table, 0xFFFFFFFF, code, r, false⟩
      | _ => .starved

end FlatPackage.Lzma
