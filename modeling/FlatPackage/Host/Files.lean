/-
  FlatPackage.Host.Files — the contents of files.
-/

import FlatPackage.Host.Parents

namespace FlatPackage.Host

/-- All octets of the file that a path leads to. -/
def load (s : String) (h : Host) : Except Fault Bytes :=
  match h.find true s with
  | .error _ => .error (.cannotOpen s)
  | .ok (_, n) =>
    match n.content with
    | .file data => .ok data
    | .directory => .error .readsADirectory
    | _ => .ok []

/-- Opens a path for writing and writes all of its new contents. A file that is there keeps its
    permissions; a name that a link leads to and that is free becomes a file. -/
def replaceFile (s : String) (data : Bytes) : Act Unit := fun h =>
  match h.resolve true s with
  | .error _ => (.error (.cannotOpenForWriting s), h)
  | .ok ⟨p, none⟩ => (.ok (), h.put p (.file data) newFile)
  | .ok ⟨p, some n⟩ =>
    match n.content with
    | .file _ => (.ok (), h.put p (.file data) n.permissions)
    | .special => (if data.isEmpty then .ok () else .error (.cannotWrite s), h)
    | _ => (.error (.cannotOpenForWriting s), h)

/-- Writes a file, in a directory that is made if need be. -/
def save (s : String) (data : Bytes) : Act Unit := do
  ensureParent s
  replaceFile s data

end FlatPackage.Host
