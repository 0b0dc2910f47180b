/-
  FlatPackage.Fault — everything that can go wrong, by cause.

  Faults of the formats carry a `Kind`, which is shown to the user beside the message.
  The others are misuse (an empty path, a bad argument) and what the file system
  refused. The wording is in `Fault.message` and nowhere else.
-/

import FlatPackage.Tree.Refusal
import FlatPackage.Xz.Scan

namespace FlatPackage

/-! ## Kinds -/

inductive Kind where
  | tooShort
  | badMagic
  | truncatedChunk
  | codec
  | invalidChunkSize
  | missingPayload
  | container
  deriving DecidableEq, Repr

namespace Kind

def all : List Kind :=
  [tooShort, badMagic, truncatedChunk, codec, invalidChunkSize, missingPayload, container]

def label : Kind → String
  | tooShort => "too short"
  | badMagic => "bad magic"
  | truncatedChunk => "truncated chunk"
  | codec => "codec error"
  | invalidChunkSize => "invalid chunk size"
  | missingPayload => "missing payload"
  | container => "container error"

/-- The label of the kind with this number, counted from zero. -/
def labelAt (i : Int) : String :=
  if i < 0 then "unknown error" else (all[i.toNat]?.map label).getD "unknown error"

end Kind

/-! ## Faults -/

/-- What was asked of the file system when it refused. -/
inductive Attempt where
  | createParents
  | status
  | readLink
  | list (recursive : Bool)
  deriving DecidableEq, Repr

def Attempt.message : Attempt → String
  | .createParents => "Failed to create parent directory"
  | .status => "symlink_status"
  | .readLink => "read_symlink"
  | .list false => "directory_iterator"
  | .list true => "recursive_directory_iterator"

inductive Fault where
  /-- Fewer octets than a stream's header has. -/
  | shortStream (size : Nat)
  | notAStream
  /-- A chunk declares more octets than there are after its header. -/
  | cutChunk (need : UInt64) (offset remaining : Nat)
  | codec (flaw : Xz.Flaw)
  | zeroChunkSize
  | noPayload
  | container (message : String)
  | emptyEntryPath
  | emptyPath
  | notARegularFile
  | notAnExistingDirectory
  | unknownCommand (word : String)
  | unknownArgument (word : String)
  | badChunkSize (word : String)
  | missingInput
  | missingOutput
  | cannotOpen (path : String)
  | cannotOpenForWriting (path : String)
  | cannotWrite (path : String)
  | readsADirectory
  | refused (attempt : Attempt) (path : String) (why : Tree.Refusal)
  deriving DecidableEq, Repr

namespace Fault

def kind? : Fault → Option Kind
  | shortStream _ => some .tooShort
  | notAStream => some .badMagic
  | cutChunk .. => some .truncatedChunk
  | codec _ => some .codec
  | zeroChunkSize => some .invalidChunkSize
  | noPayload => some .missingPayload
  | container _ => some .container
  | _ => none

def message : Fault → String
  | shortStream size => "Data too short to be a pbzx stream: " ++ toString size ++ " bytes"
  | notAStream => "Not a pbzx stream (missing magic header)"
  | cutChunk need offset remaining =>
    "Chunk data truncated: need " ++ toString need.toNat ++ " bytes at offset " ++ toString offset
      ++ ", but only " ++ toString remaining ++ " bytes remain"
  | codec flaw => "Failed to decompress XZ chunk: " ++ flaw.message
  | zeroChunkSize => "Chunk size must be greater than 0"
  | noPayload => "No Payload entry found in package"
  | container message => message
  | emptyEntryPath => "Package entry path is empty"
  | emptyPath => "Provided path is empty"
  | notARegularFile => "FileContext requires a regular file"
  | notAnExistingDirectory => "DirectoryContext requires an existing directory"
  | unknownCommand word => "Unknown command: " ++ word
  | unknownArgument word => "Unrecognized argument: " ++ word
  | badChunkSize word => "Invalid chunk size: " ++ word
  | missingInput => "Missing required -i/--input argument"
  | missingOutput => "Missing required -o/--output argument"
  | cannotOpen path => "Failed to open file for reading: " ++ path
  | cannotOpenForWriting path => "Failed to open file for writing: " ++ path
  | cannotWrite path => "Failed to write file contents: " ++ path
  | readsADirectory => "basic_filebuf::underflow error reading the file: " ++ Tree.Refusal.isADirectory.message
  | refused attempt path why =>
    "filesystem error: " ++ attempt.message ++ ": " ++ why.message ++ " [" ++ path ++ "]"

/-- The line that reports a fault to the user. -/
def report (f : Fault) : String :=
  match f.kind? with
  | some k => "Error (" ++ k.label ++ "): " ++ f.message ++ "\n"
  | none => "Error: " ++ f.message ++ "\n"

end Fault

end FlatPackage
