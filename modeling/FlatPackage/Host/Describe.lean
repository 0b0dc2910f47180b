/-
  FlatPackage.Host.Describe — what is known of a node without reading it.

  A description is of the node itself, a symlink too; only the time is that of what the
  path leads to, and the present if it leads nowhere. A symlink's target is shown with
  single slashes. Whoever asks for a description, the node is looked up by the whole text
  that it is then called by, and a text that leads nowhere is refused (`describeAt`).
-/

import FlatPackage.Host.Files

namespace FlatPackage.Host

open Container (EntryKind)
open FlatPackage.Tree (Node)

structure Descriptor where
  absolute : String
  relative : String
  kind : EntryKind
  size : Nat
  permissions : UInt32
  /-- Seconds since the epoch. -/
  mtime : Int
  target : String
  deriving DecidableEq, Repr

namespace Descriptor

def size? : Tree.Content → Nat
  | .file data => data.length
  | _ => 0

def target? : Tree.Content → String
  | .symlink target => Path.generic target
  | _ => ""

/-- `followed` is what the path leads to in the end. -/
def ofNode (c : Clocks) (absolute relative : String) (n : Node) (followed : Option Node) : Descriptor :=
  { absolute := absolute
    relative := relative
    kind := n.content.kind
    size := size? n.content
    permissions := n.permissions &&& 0o7777
    mtime := match followed with
      | some m => c.seconds m.mtime
      | none => c.now
    target := target? n.content }

end Descriptor

/-- The description of the node that a text leads to as it stands. -/
def describeAt (h : Host) (text name : String) : Except Fault Descriptor :=
  match h.find false text with
  | .error why => .error (.refused .status text why)
  | .ok (_, n) => .ok (Descriptor.ofNode h.clocks text name n ((h.find true text).toOption.map Prod.snd))

/-- The description of the node at a path, called by the last name of its normal form. -/
def describe (s : String) (h : Host) : Except Fault Descriptor :=
  if s = "" then .error .emptyPath else h.describeAt (h.absolute s).text (h.absolute s).name

/-! ## Regular files -/

/-- The description of a regular file; nothing else is accepted, and no link is followed. -/
def openFile (s : String) (h : Host) : Except Fault Descriptor := do
  let d ← h.describe s
  if d.kind = .file then return d else throw .notARegularFile

/-- The present contents of a file that was opened before. -/
def readOpened (d : Descriptor) (h : Host) : Except Fault Bytes := h.load d.absolute

end FlatPackage.Host
