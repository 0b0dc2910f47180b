/-
  FlatPackage.Command.Line — one line of a package's listing.

  A line has the kind, the permissions in octal, the size, the path, and a symlink's
  target; the digest of a file's body may follow.
-/

import FlatPackage.Command.Layout
import FlatPackage.Container.Entry

namespace FlatPackage.Command.Line

open Container (EntryKind Header)

def kindLetter : EntryKind → String
  | .file => "f"
  | .directory => "d"
  | .symlink => "l"
  | .other => "?"

/-- What a symlink's line has after the path. -/
def target (h : Header) : List Piece := if h.kind = .symlink then [.text " -> ", .text h.target] else []

def digestMark : String := "  sha256:"

/-- Whether the digest is wanted and there is something to digest. -/
def wantsDigest (digest : Bool) (h : Header) : Bool := digest && h.kind == .file

/-- Everything before the digest. -/
def start (digest : Bool) (h : Header) : List Piece :=
  [.text (kindLetter h.kind), .text " ",
    .base 8, .width 4, .fill '0', .number h.permissions.toNat,
    .base 10, .fill ' ', .text " ",
    .width 10, .number h.size.toNat, .text " ",
    .text h.path] ++ target h ++ if wantsDigest digest h then [.text digestMark] else []

end FlatPackage.Command.Line
