/-
  FlatPackage.Container.Entry — the containers by format, and what they say of an entry.
-/

namespace FlatPackage.Container

/-- The outer container of a package is a xar archive, the inner one a cpio archive. -/
inductive Format where
  | xar
  | cpio
  deriving DecidableEq, Repr

def Format.name : Format → String
  | .xar => "xar"
  | .cpio => "cpio"

/-- The name of the format with this number, counted from zero. -/
def Format.nameAt (i : Int) : String :=
  if i = 0 then Format.xar.name else if i = 1 then Format.cpio.name else "unknown"

inductive EntryKind where
  | file
  | directory
  | symlink
  /-- A fifo, a socket or a device. -/
  | other
  deriving DecidableEq, Repr

/-- What a container keeps about an entry, besides its body. -/
structure Header where
  path : String
  kind : EntryKind
  size : UInt64
  permissions : UInt32
  /-- Seconds since the epoch. -/
  mtime : Int
  target : String
  deriving DecidableEq, Repr

end FlatPackage.Container
