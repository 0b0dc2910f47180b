/-
  FlatPackage.Package.Entry — what a package holds.
-/

import FlatPackage.Bytes
import FlatPackage.Container.Entry

namespace FlatPackage.Package

open Container (EntryKind Header)

/-- The entry of the outer container that holds everything else. -/
def payloadName : String := "Payload"

/-- Whether an outer entry is the payload: at the top, or below a component's directory. -/
def isPayloadName (name : String) : Bool :=
  let s := name.toList
  let wanted := payloadName.toList
  let n := wanted.length
  s == wanted || (n < s.length && s[s.length - n - 1]? == some '/' && s.drop (s.length - n) == wanted)

/-! ## Entries -/

def filePermissions : UInt32 := 0o644

def directoryPermissions : UInt32 := 0o755

def symlinkPermissions : UInt32 := 0o777

structure Entry where
  path : String
  kind : EntryKind
  data : Bytes
  permissions : UInt32
  mtime : Int
  target : String
  deriving DecidableEq, Repr

namespace Entry

/-- An entry of which only the path is known. -/
def ofPath (path : String) : Entry := ⟨path, .file, [], filePermissions, 0, ""⟩

/-- An entry without data, stamped with a time. -/
def stamped (now : Int) (path : String) (kind : EntryKind) (permissions : UInt32) : Entry :=
  ⟨path, kind, [], permissions, now, ""⟩

/-- Only files have data. -/
def trimmed (e : Entry) : Entry := if e.kind = .file then e else { e with data := [] }

/-- What the inner container is told of an entry. -/
def header (e : Entry) : Header :=
  { path := e.path
    kind := e.kind
    size := if e.kind = .file then e.data.length.toUInt64 else 0
    permissions := e.permissions
    mtime := e.mtime
    target := e.target }

end Entry

end FlatPackage.Package
