/-
  FlatPackage.Tree.Basic — a file system's contents.

  A tree lists its nodes in the order in which the file system would enumerate them;
  nothing that is shown may depend on that order. The root is a node like any other.
  Times are nanoseconds since the epoch, permissions the twelve low bits of a mode.
  Names and the texts of links are `String`s, so a tree in which one is not UTF-8 is none of these.
-/

import FlatPackage.Bytes
import FlatPackage.Container.Entry
import FlatPackage.Path

namespace FlatPackage

namespace Tree

inductive Content where
  | file (data : Bytes)
  | directory
  | symlink (target : String)
  /-- A fifo or a device: it can be opened, and takes no octets. -/
  | special
  deriving DecidableEq, Repr

def Content.kind : Content → Container.EntryKind
  | .file _ => .file
  | .directory => .directory
  | .symlink _ => .symlink
  | .special => .other

structure Node where
  content : Content
  permissions : UInt32
  mtime : Int
  deriving DecidableEq, Repr

end Tree

structure Tree where
  nodes : List (Place × Tree.Node)
  deriving DecidableEq, Repr

namespace Tree

def at? (t : Tree) (p : Place) : Option Node := t.nodes.lookup p

def isDirectory (t : Tree) (p : Place) : Bool := (t.at? p).any (·.content == .directory)

/-! ## Looking around -/

/-- The nodes strictly below a place. -/
def below (t : Tree) (p : Place) : List (Place × Node) :=
  t.nodes.filter fun (q, _) => p.isPrefixOf q && p != q

/-- The nodes directly in a directory. -/
def children (t : Tree) (dir : Place) : List (Place × Node) :=
  t.nodes.filter fun (q, _) => dir.isPrefixOf q && q.length == dir.length + 1

/-- The most names that a place has. -/
def depth (t : Tree) : Nat := t.nodes.foldl (fun d (q, _) => max d q.length) 0

/-- The nodes that are found going down at most so many levels from a directory: each is followed by what
    is in it, if it is a directory. -/
def descendWithin (t : Tree) : Nat → Place → List (Place × Node)
  | 0, _ => []
  | levels + 1, dir => (t.children dir).flatMap fun x =>
    x :: if x.2.content = .directory then descendWithin t levels x.1 else []

/-- The nodes that are found going down from a directory through directories. -/
def descend (t : Tree) (dir : Place) : List (Place × Node) := t.descendWithin t.depth dir

/-! ## Changes at one place -/

def replace (p : Place) (n : Node) : List (Place × Node) → List (Place × Node)
  | [] => [(p, n)]
  | (q, m) :: r => if q = p then (p, n) :: r else (q, m) :: replace p n r

/-- Puts a node at a place, over one that is there. -/
def set (t : Tree) (p : Place) (n : Node) : Tree := ⟨replace p n t.nodes⟩

def update (t : Tree) (p : Place) (f : Node → Node) : Tree :=
  ⟨t.nodes.map fun (q, m) => if q = p then (q, f m) else (q, m)⟩

def touch (now : Int) (t : Tree) (p : Place) : Tree := t.update p fun n => { n with mtime := now }

/-- Puts a node at a place; a new name changes the time of its directory. -/
def put (now : Int) (t : Tree) (p : Place) (n : Node) : Tree :=
  if (t.at? p).isSome then t.set p n else (t.set p n).touch now p.dropLast

/-- Takes a node away with everything below it. -/
def remove (now : Int) (t : Tree) (p : Place) : Tree :=
  if (t.at? p).isSome then (⟨t.nodes.filter fun (q, _) => !p.isPrefixOf q⟩ : Tree).touch now p.dropLast else t

end Tree

end FlatPackage
