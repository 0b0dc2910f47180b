/-
  FlatPackage.Xz.Writer — writes .xz files of one block.

  The contents are cut into pieces, each of which becomes a chunk. A file is proposed in
  which every piece takes the shorter of its two forms, LZMA symbols or stored octets;
  the proposal is read back, and only if it gives the contents is it taken. The file of
  stored pieces is what is left otherwise. Empty contents are a file without blocks.
-/

import FlatPackage.Lzma.Encoder
import FlatPackage.Xz.File

namespace FlatPackage.Xz.Writer

open Lzma (Places Props)

/-! ## The packed contents -/

/-- The most octets that a piece may have in both forms. -/
def pieceSize : Nat := 65536

/-- A count of 1 to 65536, as one less in two octets, most significant first. -/
def size16 (n : Nat) : Bytes := [((n - 1) / 256).toUInt8, ((n - 1) % 256).toUInt8]

/-- A stored chunk; the first one of a block starts the dictionary. -/
def storedChunk (first : Bool) (piece : Bytes) : Bytes :=
  (if first then 1 else 2) :: (size16 piece.length ++ piece)

/-- A chunk of symbols that stand for `size` octets. It brings its properties with it; the first
    one of a block starts the dictionary. -/
def codedChunk (first : Bool) (p : Props) (size : Nat) (symbols : Bytes) : Bytes :=
  (if first then 0xE0 else 0xC0) :: (size16 size ++ size16 symbols.length ++ p.toByte :: symbols)

/-- The chunks of stored pieces, and the end mark. -/
def storedChunks : Bool → List Bytes → Bytes
  | _, [] => [0]
  | first, piece :: r => storedChunk first piece ++ storedChunks false r

def props : Props := ⟨3, 0, 2⟩

/-- The chunks that are proposed for the pieces of `a` from `i` on, the last one first, and the
    end mark before them. -/
def proposedChunks (a : ByteArray) : Nat → Places → List Bytes → List Bytes → List Bytes
  | _, _, [], sofar => [0] :: sofar
  | i, h, piece :: r, sofar =>
    let n := piece.length
    let (h, symbols) := Lzma.encodeChunk props a i n h
    let chunk := if symbols.length < n then codedChunk (i == 0) props n symbols else storedChunk (i == 0) piece
    proposedChunks a (i + n) h r (chunk :: sofar)

/-! ## The file -/

/-- One LZMA2 filter, whose property stands for a window of eight MiB, and no sizes. -/
def headerFields : Bytes := [2, 0, 0x21, 1, 22, 0, 0, 0]

def blockHeader : Bytes := headerFields ++ Bytes.le32 (Checksum.crc32 headerFields)

def block (packed contents : Bytes) : Bytes :=
  blockHeader ++ packed ++ Bytes.zeros (Bytes.padding4 packed.length) ++ Check.tag contents

def record (packed contents : Bytes) : Record := ⟨blockHeader.length + packed.length + 8, contents.length⟩

/-- A file of the blocks whose records are given. -/
def file (blocks : Bytes) (records : List Record) : Bytes :=
  File.header Check.crc64 ++ blocks ++ Index.write records ++ File.footer Check.crc64 (Index.size records)

def blockFile (packed contents : Bytes) : Bytes := file (block packed contents) [record packed contents]

def storedFile (contents : Bytes) : Bytes :=
  blockFile (storedChunks true (Bytes.slices pieceSize contents)) contents

def proposedFile (contents : Bytes) : Bytes :=
  let pieces := Bytes.slices pieceSize contents
  let a := contents.foldl ByteArray.push .empty
  blockFile (proposedChunks a 0 Places.empty pieces []).reverse.flatten contents

/-- Whether a file holds exactly these contents. -/
def holds (s contents : Bytes) : Bool :=
  match File.read .format (Delivery.start s.length) s with
  | .ok (found, []) => found == contents
  | _ => false

/-- No proposal for fewer octets than a file takes besides its contents can be shorter than
    they are. -/
def worthwhile : Nat := 60

end Writer

/-- An .xz file with these contents. -/
def compress (contents : Bytes) : Bytes :=
  if contents.isEmpty then Writer.file [] []
  else if contents.length ≤ Writer.worthwhile then Writer.storedFile contents
  else
    let s := Writer.proposedFile contents
    if Writer.holds s contents then s else Writer.storedFile contents

end FlatPackage.Xz
