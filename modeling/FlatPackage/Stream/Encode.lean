/-
  FlatPackage.Stream.Encode — writing a chunk stream.

  The contents are cut into slices of the chunk size, the last one shorter. Each slice
  becomes one chunk: compressed if that makes it strictly shorter, as it is otherwise.
-/

import FlatPackage.Stream.Codec
import FlatPackage.Stream.Frame

namespace FlatPackage.Stream

/-- The shorter form of a slice, the raw one on a tie. -/
def pack (codec : Codec) (slice : Bytes) : Chunk :=
  let packed := codec.compress slice
  if packed.length < slice.length then ⟨xzFlags, packed⟩ else ⟨rawFlags, slice⟩

/-- The chunks of some contents, for a chunk size that is not zero. -/
def packAll (codec : Codec) (chunkSize : UInt64) (contents : Bytes) : List Chunk :=
  (Bytes.slices chunkSize.toNat contents).map (pack codec)

def encode (codec : Codec) (chunkSize : UInt64) (contents : Bytes) : Except Fault Bytes :=
  if chunkSize = 0 then .error .zeroChunkSize
  else .ok (ofChunks chunkSize (packAll codec chunkSize contents) [])

/-- Writes a stream of the usual chunk size. -/
def compress (codec : Codec) (contents : Bytes) : Bytes :=
  ofChunks defaultChunkSize (packAll codec defaultChunkSize contents) []

end FlatPackage.Stream
