/-
  FlatPackage.Host.Basic — the machine that a command runs on.

  A host is a tree, a working directory and two clocks: file times are kept on one and
  shown on the other. An operation that fails leaves what it has done so far.
-/

import FlatPackage.Tree.Resolve

namespace FlatPackage

/-! ## Clocks -/

/-- One reading of each clock, in nanoseconds since the epoch. -/
structure Clocks where
  file : Int
  system : Int
  deriving DecidableEq, Repr

namespace Clocks

def second : Int := 1000000000

/-- The present, in seconds. -/
def now (c : Clocks) : Int := c.system.tdiv second

/-- A file's time in seconds: how long ago it was on the file clock, counted back on the other,
    and cut off toward zero. -/
def seconds (c : Clocks) (t : Int) : Int := (t - c.file + c.system).tdiv second

end Clocks

/-! ## Hosts -/

structure Host where
  tree : Tree
  here : Place
  clocks : Clocks
  deriving DecidableEq, Repr

namespace Host

open FlatPackage.Tree (Node Refusal)

abbrev Act := ExceptT Fault (StateM Host)

/-- What new files and directories may be used for. -/
def newFile : UInt32 := 0o644
def newDirectory : UInt32 := 0o755
def newLink : UInt32 := 0o777

def find (h : Host) (follow : Bool) (s : String) : Except Refusal (Place × Node) := h.tree.find h.here follow s

def resolve (h : Host) (follow : Bool) (s : String) : Except Refusal Tree.Spot := h.tree.resolve h.here follow s

/-- Puts a new node at a place. -/
def put (h : Host) (p : Place) (content : Tree.Content) (permissions : UInt32) : Host :=
  { h with tree := h.tree.put h.clocks.system p ⟨content, permissions, h.clocks.system⟩ }

/-- The normal form of a path. -/
def absolute (h : Host) (s : String) : Path.Absolute := Path.absolute h.here s

end Host

end FlatPackage
