/-
  FlatPackage.Stream.Frame — the frame of a chunk stream.

  A stream opens with a magic and the chunk size that its writer used, which is for
  information only. Chunks follow: a word of flags, a word of length, and so many octets.
  One value of the flags marks an .xz file; chunks with any other value are taken as
  they are.
-/

import FlatPackage.Bytes
import FlatPackage.Fault

namespace FlatPackage.Stream

def magic : Bytes := [0x70, 0x62, 0x7A, 0x78]

def headerSize : Nat := 12

def chunkHeaderSize : Nat := 16

def rawFlags : UInt64 := 0

def xzFlags : UInt64 := 0x01000000

def defaultChunkSize : UInt64 := 1048576

/-! ## The stream's header -/

/-- Whether the octets open as a stream does. -/
def isStream (s : Bytes) : Bool := s.take 4 == magic

def header (chunkSize : UInt64) : Bytes := magic ++ Bytes.be64 chunkSize

/-- The chunk size that a stream announces. -/
def readHeader (s : Bytes) : Except Fault UInt64 :=
  if s.length < headerSize then .error (.shortStream s.length)
  else if isStream s then .ok (Bytes.ofBe64 ((s.drop 4).take 8))
  else .error .notAStream

/-! ## Chunks -/

structure Chunk where
  flags : UInt64
  body : Bytes
  deriving DecidableEq, Repr

def isCompressed (flags : UInt64) : Bool := flags == xzFlags

/-- The two words in front of a chunk's body. -/
structure ChunkHeader where
  flags : UInt64
  length : UInt64
  deriving DecidableEq, Repr

namespace ChunkHeader

def bytes (h : ChunkHeader) : Bytes := Bytes.be64 h.flags ++ Bytes.be64 h.length

/-- The words that the first sixteen octets stand for. -/
def ofBytes (s : Bytes) : ChunkHeader := ⟨Bytes.ofBe64 (s.take 8), Bytes.ofBe64 ((s.drop 8).take 8)⟩

end ChunkHeader

namespace Chunk

def header (c : Chunk) : ChunkHeader := ⟨c.flags, c.body.length.toUInt64⟩

def bytes (c : Chunk) : Bytes := c.header.bytes ++ c.body

end Chunk

/-- A stream of chunks, and what is left after the last one. -/
def ofChunks (chunkSize : UInt64) (chunks : List Chunk) (tail : Bytes) : Bytes :=
  header chunkSize ++ chunks.flatMap Chunk.bytes ++ tail

end FlatPackage.Stream
