/-
  FlatPackage.Stream.Cursor — reading and writing a stream in place.

  `decode` and `encode` take octets off the front of a list. A machine has all octets in memory
  and moves a place over them, which is a word: sums and differences of places wrap, and
  octets can be asked for that are not there. Here both loops are written in this way. A
  read that is not all inside has no octets to give (`none`), and neither has a loop in which
  one comes about; a loop that does not end has no result that is known.
-/

import FlatPackage.Stream.Decode
import FlatPackage.Stream.Encode

namespace FlatPackage.Stream

/-! ## Memory -/

/-- How many octets there are, as a word. -/
def size (s : Bytes) : UInt64 := s.length.toUInt64

/-- So many octets from a place on. -/
def octetsAt? (s : Bytes) (place count : UInt64) : Option Bytes :=
  if place.toNat + count.toNat ≤ s.length then some ((s.drop place.toNat).take count.toNat) else none

/-- The word that the eight octets from a place on stand for. -/
def wordAt? (s : Bytes) (place : UInt64) : Option UInt64 := (octetsAt? s place 8).map Bytes.ofBe64

/-! ## Loops over places -/

/-- Between two turns of a loop: the place that it has reached, and what it has put out. -/
structure Cursor where
  place : UInt64
  output : Bytes
  deriving DecidableEq, Repr

/-- What one turn comes to. -/
inductive Turn where
  | next (c : Cursor)
  | returns (r : Except Fault Bytes)
  /-- Octets were asked for that are not there. -/
  | outside

/-- One turn leads from `c` to `c'`, and another has to follow. -/
def Follows (turn : Cursor → Turn) (c' c : Cursor) : Prop := turn c = .next c'

def run (turn : Cursor → Turn) : Cursor → Option (Except Fault Bytes) :=
  WellFounded.partialExtrinsicFix (Follows turn) fun c again =>
    match h : turn c with
    | .next c' => again c' h
    | .returns r => some r
    | .outside => none

/-! ## Reading -/

def headerInPlace (s : Bytes) : Option (Except Fault UInt64) :=
  if size s < headerSize.toUInt64 then some (.error (.shortStream (size s).toNat))
  else do
    let opening ← octetsAt? s 0 magic.length.toUInt64
    if opening = magic then (wordAt? s magic.length.toUInt64).map .ok else some (.error .notAStream)

/-- The two words in front of a chunk's body. -/
def chunkHeaderAt? (s : Bytes) (place : UInt64) : Option ChunkHeader := do
  return ⟨← wordAt? s place, ← wordAt? s (place + 8)⟩

/-- Behind a chunk's words: the test of its length, and its body. -/
def bodyTurn (codec : Codec) (s : Bytes) (h : ChunkHeader) (c : Cursor) : Turn :=
  let remaining := size s - c.place
  if remaining < h.length then .returns (.error (.cutChunk h.length c.place.toNat remaining.toNat))
  else
    match octetsAt? s c.place h.length with
    | some body =>
      match Chunk.contents codec ⟨h.flags, body⟩ with
      | .ok part => .next ⟨c.place + h.length, c.output ++ part⟩
      | .error f => .returns (.error f)
    | none => .outside

/-- One chunk, if there are octets enough for its words. -/
def decodeTurn (codec : Codec) (s : Bytes) (c : Cursor) : Turn :=
  if size s - c.place < chunkHeaderSize.toUInt64 then .returns (.ok c.output)
  else
    match chunkHeaderAt? s c.place with
    | some h => bodyTurn codec s h ⟨c.place + chunkHeaderSize.toUInt64, c.output⟩
    | none => .outside

/-- The first chunk is behind the stream's header. -/
def decodeStart : Cursor := ⟨headerSize.toUInt64, []⟩

def decodeInPlace (codec : Codec) (s : Bytes) : Option (Except Fault Bytes) := do
  match ← headerInPlace s with
  | .ok _ => run (decodeTurn codec s) decodeStart
  | .error f => some (.error f)

/-! ## Writing -/

/-- One slice, which is as long as the chunk size, or as what is left if that is less. -/
def encodeTurn (codec : Codec) (chunkSize : UInt64) (contents : Bytes) (c : Cursor) : Turn :=
  if c.place < size contents then
    let left := size contents - c.place
    let length := if left < chunkSize then left else chunkSize
    match octetsAt? contents c.place length with
    | some slice =>
      let packed := codec.compress slice
      let chunk : Chunk := if size packed < length then ⟨xzFlags, packed⟩ else ⟨rawFlags, slice⟩
      .next ⟨c.place + length, c.output ++ chunk.bytes⟩
    | none => .outside
  else .returns (.ok c.output)

/-- The output starts with the stream's header. -/
def encodeStart (chunkSize : UInt64) : Cursor := ⟨0, header chunkSize⟩

def encodeInPlace (codec : Codec) (chunkSize : UInt64) (contents : Bytes) : Option (Except Fault Bytes) :=
  if chunkSize = 0 then some (.error .zeroChunkSize)
  else run (encodeTurn codec chunkSize contents) (encodeStart chunkSize)

end FlatPackage.Stream
