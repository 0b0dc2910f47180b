/-
  FlatPackage.Stream.Buffer — writing at the end of a buffer.

  `Chunk.bytes` says which octets a chunk is written as. A writer has a buffer and pushes octets to its
  end: those of a word from the most significant down, each brought to the low end of the word and cut
  off there; of a chunk its two words, and then its body if it has one.
-/

import FlatPackage.Stream.Frame

namespace FlatPackage.Stream

/-- Pushes the lowest so many octets of a word. -/
def pushOctets (v : UInt64) : Nat → Bytes → Bytes
  | 0, buffer => buffer
  | index + 1, buffer => pushOctets v index (buffer ++ [(v >>> (8 * index).toUInt64).toUInt8])

def pushWord (v : UInt64) (buffer : Bytes) : Bytes := pushOctets v 8 buffer

def pushChunk (buffer : Bytes) (c : Chunk) : Bytes :=
  let buffer := pushWord c.header.length (pushWord c.header.flags buffer)
  if 0 < c.body.length then buffer ++ c.body else buffer

/-- Pushes chunks, the first one first. -/
def pushChunks (buffer : Bytes) (cs : List Chunk) : Bytes := cs.foldl pushChunk buffer

end FlatPackage.Stream
