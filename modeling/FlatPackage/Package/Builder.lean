/-
  FlatPackage.Package.Builder — collecting entries and writing them as a package.

  A package is a xar archive with one entry, the payload: a chunk stream that wraps a
  cpio archive of the entries, in the order in which they were added. Writing does not
  use the entries up.
-/

import FlatPackage.Container.Archive
import FlatPackage.Package.Entry
import FlatPackage.Stream.Encode

namespace FlatPackage.Package

open Container (Archive Header Session)

structure Builder where
  entries : List Entry
  deriving DecidableEq, Repr

namespace Builder

def empty : Builder := ⟨[]⟩

def size (b : Builder) : Nat := b.entries.length

/-! ## Adding -/

/-- Adds an entry at the end; an entry needs a path, and only a file keeps its data. -/
def add (e : Entry) (b : Builder) : Except Fault Builder :=
  if e.path.isEmpty then .error .emptyEntryPath else .ok ⟨b.entries ++ [e.trimmed]⟩

def addFileWithPermissions (now : Int) (path : String) (data : Bytes) (permissions : UInt32) (b : Builder) :
    Except Fault Builder :=
  b.add { Entry.stamped now path .file permissions with data := data }

def addFile (now : Int) (path : String) (data : Bytes) (b : Builder) : Except Fault Builder :=
  b.addFileWithPermissions now path data filePermissions

def addDirectory (now : Int) (path : String) (b : Builder) : Except Fault Builder :=
  b.add (Entry.stamped now path .directory directoryPermissions)

def addSymlink (now : Int) (path target : String) (b : Builder) : Except Fault Builder :=
  b.add { Entry.stamped now path .symlink symlinkPermissions with target := target }

/-! ## Writing -/

/-- The header of one entry, and its data if it is a file with any. -/
def putEntry {σ : Type} (A : Archive σ) (e : Entry) : Session σ Unit := do
  A.call (.header .cpio e.header)
  if e.kind = .file ∧ !e.data.isEmpty then A.call (.data .cpio e.data)

def putEntries {σ : Type} (A : Archive σ) : List Entry → Session σ Unit
  | [] => return ()
  | e :: r => do
    putEntry A e
    putEntries A r

/-- The entries as a cpio archive. -/
def buildArchive {σ : Type} (A : Archive σ) (b : Builder) : Session σ Bytes := do
  A.call (.createMemory .cpio)
  putEntries A b.entries
  A.call (.take .cpio)

/-- The payload alone, without the outer container. -/
def buildPayload {σ : Type} (A : Archive σ) (codec : Stream.Codec) (b : Builder) : Session σ Bytes := do
  let archive ← buildArchive A b
  return Stream.compress codec archive

def payloadHeader (now : Int) (payload : Bytes) : Header :=
  { path := payloadName
    kind := .file
    size := payload.length.toUInt64
    permissions := filePermissions
    mtime := now
    target := "" }

/-- The payload as the only entry of the outer container. -/
def putPayload {σ : Type} (A : Archive σ) (now : Int) (payload : Bytes) : Session σ Unit := do
  A.call (.header .xar (payloadHeader now payload))
  A.call (.data .xar payload)
  A.call (.finish .xar)

/-- Writes the package to a path. -/
def write {σ : Type} (A : Archive σ) (codec : Stream.Codec) (now : Int) (path : String) (b : Builder) :
    Session σ Unit := do
  let payload ← buildPayload A codec b
  A.call (.createFile .xar path)
  putPayload A now payload

/-- The package's bytes. -/
def toBytes {σ : Type} (A : Archive σ) (codec : Stream.Codec) (now : Int) (b : Builder) : Session σ Bytes := do
  let payload ← buildPayload A codec b
  A.call (.createMemory .xar)
  putPayload A now payload
  A.call (.take .xar)

end Builder

end FlatPackage.Package
