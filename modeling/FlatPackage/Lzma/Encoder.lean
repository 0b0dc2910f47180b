/-
  FlatPackage.Lzma.Encoder — proposes LZMA symbols for a run of octets.

  Matches are looked for at one earlier place only, the last one whose next three octets
  had the same hash, and at the last distance used. What comes out is a proposal: the
  writer that asks for it reads it back before it is used, so nothing here has to be
  right for the written file to be right, only good for it to be short.
-/

import FlatPackage.Bytes
import FlatPackage.Lzma.Decoder
import FlatPackage.Lzma.Model

namespace FlatPackage.Lzma

/-! ## The range encoder -/

/-- `held` octets wait for a carry: `cache` and then octets that a carry would turn over. -/
structure RangeEncoder where
  table : Array UInt16
  low : UInt64
  range : UInt32
  cache : UInt8
  held : Nat
  out : ByteArray

namespace RangeEncoder

def start (table : Array UInt16) : RangeEncoder := ⟨table, 0, 0xFFFFFFFF, 0, 1, .empty⟩

def pushTimes (b : UInt8) : Nat → ByteArray → ByteArray
  | 0, out => out
  | n + 1, out => pushTimes b n (out.push b)

/-- Moves the top octet of `low` out, or holds it back while a carry may still change it. -/
def shift (e : RangeEncoder) : RangeEncoder :=
  let rest := (e.low &&& 0x00FFFFFF) <<< 8
  if e.low < 0xFF000000 ∨ e.low ≥ 0x100000000 then
    let carry := (e.low >>> 32).toUInt8
    { e with
      low := rest
      cache := (e.low >>> 24).toUInt8
      held := 1
      out := pushTimes (0xFF + carry) (e.held - 1) (e.out.push (e.cache + carry)) }
  else { e with low := rest, held := e.held + 1 }

def normalize (e : RangeEncoder) : RangeEncoder :=
  if e.range < 0x1000000 then shift { e with range := e.range <<< 8 } else e

/-- One adaptive decision. -/
def bit (index b : Nat) (e : RangeEncoder) : RangeEncoder :=
  let e := e.normalize
  let p := e.table.getD index 1024
  let bound := (e.range >>> 11) * p.toUInt32
  if b = 0 then { e with range := bound, table := e.table.setIfInBounds index (towardZero p) }
  else { e with
    low := e.low + bound.toUInt64
    range := e.range - bound
    table := e.table.setIfInBounds index (towardOne p) }

/-- The low `n` bits of `v` down a tree, most significant first. -/
def tree (base : Nat) : Nat → Nat → Nat → RangeEncoder → RangeEncoder
  | 0, _, _, e => e
  | n + 1, v, node, e =>
    let b := v / Nat.pow 2 n % 2
    tree base n v (2 * node + b) (e.bit (base + node) b)

/-- The low `n` bits of `v` down a tree, least significant first. -/
def treeReversed (base : Nat) : Nat → Nat → Nat → RangeEncoder → RangeEncoder
  | 0, _, _, e => e
  | n + 1, v, node, e =>
    treeReversed base n (v / 2) (2 * node + v % 2) (e.bit (base + node) (v % 2))

/-- The low `n` bits of `v` at even odds, most significant first. -/
def even : Nat → Nat → RangeEncoder → RangeEncoder
  | 0, _, e => e
  | n + 1, v, e =>
    let e := e.normalize
    let half := e.range >>> 1
    let low := if v / Nat.pow 2 n % 2 = 0 then e.low else e.low + half.toUInt64
    even n v { e with range := half, low := low }

def literalBeside (base beside v : Nat) : Nat → Nat → RangeEncoder → RangeEncoder
  | 0, _, e => e
  | n + 1, node, e =>
    let expected := beside / Nat.pow 2 n % 2
    let b := v / Nat.pow 2 n % 2
    let e := e.bit (base + 0x100 * (1 + expected) + node) b
    if b = expected then literalBeside base beside v n (2 * node + b) e
    else tree base n v (2 * node + b) e

def length (base pos len : Nat) (e : RangeEncoder) : RangeEncoder :=
  if len < 10 then tree (base + 2 + 8 * pos) 3 (len - 2) 1 (e.bit base 0)
  else
    let e := e.bit base 1
    if len < 18 then tree (base + 130 + 8 * pos) 3 (len - 10) 1 (e.bit (base + 1) 0)
    else tree (base + 258) 8 (len - 18) 1 (e.bit (base + 1) 1)

def distance (len dist : Nat) (e : RangeEncoder) : RangeEncoder :=
  if dist < 4 then tree (slotTree len) 6 dist 1 e
  else
    let low := Nat.log2 dist - 1
    let slot := 2 * (low + 1) + dist / Nat.pow 2 low % 2
    let first := (2 + slot % 2) * Nat.pow 2 low
    let e := tree (slotTree len) 6 slot 1 e
    if slot < 14 then treeReversed (midTree first slot) low (dist - first) 1 e
    else treeReversed alignTree 4 ((dist - first) % 16) 1 (even (low - 4) ((dist - first) / 16) e)

/-- Everything that `low` still holds; a decoder widens its range once more at the end. -/
def flush (e : RangeEncoder) : ByteArray := e.normalize.shift.shift.shift.shift.shift.out

end RangeEncoder

/-! ## Looking for matches -/

/-- How many octets agree from `i` and from `j` on, `limit` at most. -/
def agreement (a : ByteArray) : Nat → Nat → Nat → Nat → Nat
  | 0, _, _, n => n
  | limit + 1, i, j, n =>
    if Memory.octet a i = Memory.octet a j then agreement a limit (i + 1) (j + 1) (n + 1) else n

def hashBits : Nat := 15

/-- A hash of the three octets from `i`. -/
def hashAt (a : ByteArray) (i : Nat) : Nat :=
  let v := (Memory.octet a i).toUInt32 ||| ((Memory.octet a (i + 1)).toUInt32 <<< 8)
    ||| ((Memory.octet a (i + 2)).toUInt32 <<< 16)
  ((v * 0x9E3779B1) >>> 17).toNat

/-- The last place of each hash, plus one. -/
abbrev Places := Array Nat

def Places.empty : Places := Array.replicate (Nat.pow 2 hashBits) 0

/-- Notes `n` places from `i` on. -/
def Places.note (a : ByteArray) : Nat → Nat → Places → Places
  | 0, _, h => h
  | n + 1, i, h => note a n (i + 1) (h.setIfInBounds (hashAt a i) (i + 1))

inductive Proposal where
  | literal
  | again (len : Nat)
  | fresh (len dist : Nat)

def Proposal.size : Proposal → Nat
  | .literal => 1
  | .again len => len
  | .fresh len _ => len

/-- What to say at `i`, where at most `limit` octets are left; `rep0` is the last distance. -/
def propose (a : ByteArray) (h : Places) (i limit rep0 : Nat) : Proposal :=
  let limit := min limit 273
  let again := if rep0 < i then agreement a limit i (i - 1 - rep0) 0 else 0
  let place := h.getD (hashAt a i) 0
  let fresh := if 0 < place ∧ place ≤ i then agreement a limit i (place - 1) 0 else 0
  if 2 ≤ again ∧ fresh ≤ again + 1 then .again again
  else if 4 ≤ fresh ∨ (fresh = 3 ∧ i - place < 4096) then .fresh fresh (i - place)
  else .literal

/-! ## A chunk -/

structure Writer where
  encoder : RangeEncoder
  state : Nat
  rep0 : Nat

/-- Writes one symbol, for the octets at `i`. -/
def Writer.say (p : Props) (a : ByteArray) (i : Nat) (w : Writer) : Proposal → Writer
  | .literal =>
    let prev := if i = 0 then 0 else Memory.octet a (i - 1)
    let v := (Memory.octet a i).toNat
    let base := literalTree p i prev
    let e := w.encoder.bit (isMatchAt w.state (i % Nat.pow 2 p.pb)) 0
    let e :=
      if w.state < 7 then e.tree base 8 v 1
      else e.literalBeside base (Memory.octet a (i - 1 - w.rep0)).toNat v 8 1
    ⟨e, nextLiteral w.state, w.rep0⟩
  | .again len =>
    let pos := i % Nat.pow 2 p.pb
    let e := w.encoder.bit (isMatchAt w.state pos) 1
    let e := e.bit (isRepAt w.state) 1
    let e := e.bit (isRep0At w.state) 0
    let e := e.bit (isLongRep0At w.state pos) 1
    ⟨e.length repLengths pos len, nextRep w.state, w.rep0⟩
  | .fresh len dist =>
    let pos := i % Nat.pow 2 p.pb
    let e := w.encoder.bit (isMatchAt w.state pos) 1
    let e := e.bit (isRepAt w.state) 0
    let e := e.length matchLengths pos len
    ⟨e.distance len dist, nextMatch w.state, dist⟩

/-- Says `left` octets from `i` on; each symbol says at least one. -/
def sayAll (p : Props) (a : ByteArray) : Nat → Nat → Nat → Places → Writer → Places × Writer
  | 0, _, _, h, w => (h, w)
  | fuel + 1, i, left, h, w =>
    if left = 0 then (h, w)
    else
      let proposal := propose a h i left w.rep0
      let n := proposal.size
      sayAll p a fuel (i + n) (left - n) (Places.note a n i h) (w.say p a i proposal)

/-- The `n` octets from `i` on as one chunk that forgets all statistics before it. -/
def encodeChunk (p : Props) (a : ByteArray) (i n : Nat) (h : Places) : Places × Bytes :=
  let (h, w) := sayAll p a n i n h ⟨RangeEncoder.start (freshTable p), 0, 0⟩
  (h, w.encoder.flush.toList)

end FlatPackage.Lzma
