/-
  FlatPackage.Stream.Decode — the contents of a chunk stream.

  A stream is first split into chunks, up to the point where fewer octets are left than a
  chunk's header has, or where a chunk says that it is longer than what is left. Then
  the chunks are opened in order: a chunk that cannot be opened is reported before a
  chunk that is cut short after it.
-/

import FlatPackage.Stream.Codec
import FlatPackage.Stream.Frame

namespace FlatPackage.Stream

/-- How the chunks end. -/
inductive Ending where
  /-- Fewer octets are left than a chunk's header has; they are ignored. -/
  | tail (rest : Bytes)
  /-- At `offset`, after a chunk's header, fewer octets remain than it needs. -/
  | cut (need : UInt64) (offset remaining : Nat)
  deriving DecidableEq, Repr

/-- The chunks of `s`, which has `left` octets and starts `offset` octets into the stream. -/
def split (offset left : Nat) (s : Bytes) : List Chunk × Ending :=
  if left < chunkHeaderSize then ([], .tail s)
  else
    let h := ChunkHeader.ofBytes s
    let n := h.length.toNat
    if left - chunkHeaderSize < n then
      ([], .cut h.length (offset + chunkHeaderSize) (left - chunkHeaderSize))
    else
      let r := s.drop chunkHeaderSize
      let (chunks, ending) := split (offset + chunkHeaderSize + n) (left - chunkHeaderSize - n) (r.drop n)
      (⟨h.flags, r.take n⟩ :: chunks, ending)
termination_by left
decreasing_by simp only [chunkHeaderSize] at *; omega

/-- What a chunk stands for. -/
def Chunk.contents (codec : Codec) (c : Chunk) : Except Fault Bytes :=
  if isCompressed c.flags then (codec.decompress c.body).mapError .codec else .ok c.body

/-- The chunks of a whole stream. -/
def chunks (s : Bytes) : List Chunk × Ending := split headerSize (s.length - headerSize) (s.drop headerSize)

/-- The contents of a stream: those of its chunks strung together. -/
def decode (codec : Codec) (s : Bytes) : Except Fault Bytes := do
  let _ ← readHeader s
  let (chunks, ending) := chunks s
  let parts ← chunks.mapM (Chunk.contents codec)
  match ending with
  | .tail _ => return parts.flatten
  | .cut need offset remaining => throw (.cutChunk need offset remaining)

end FlatPackage.Stream
