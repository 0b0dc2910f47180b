/-
  FlatPackage.Tree.Resolve — the walk from a path to the node that it names.

  The walk starts at the root or at the working directory and takes one step after the
  other. A symlink on the way is replaced by its target's steps; at the end of the way
  that is only done when links are to be followed. After forty links the walk is given
  up, which is what bounds it.
-/

import FlatPackage.Fault
import FlatPackage.Tree.Basic

namespace FlatPackage.Tree

/-- Where a walk ended: its last name may be free, but its directory is there. -/
structure Spot where
  place : Place
  node : Option Node
  deriving DecidableEq, Repr

def linkLimit : Nat := 40

/-- The most octets of one name. -/
def nameLimit : Nat := 255

/-- A path has fewer octets than this. -/
def pathLimit : Nat := 4096

/-- Where a text that is read at `here` starts. -/
def origin (here : Place) (s : String) : Place := if Path.isRooted s then [] else here

/-- Walks on from a directory; `jump` is how the walk goes on through a link. -/
def walkSteps (t : Tree) (follow : Bool) (jump : Place → List String → Except Refusal Spot) :
    Place → List String → Except Refusal Spot
  | dir, [] => .ok ⟨dir, t.at? dir⟩
  | dir, name :: rest =>
    if name = "." then walkSteps t follow jump dir rest
    else if name = ".." then walkSteps t follow jump dir.dropLast rest
    else if nameLimit < name.utf8ByteSize then .error .nameTooLong
    else
      let place := dir ++ [name]
      match t.at? place with
      | none => if rest.isEmpty then .ok ⟨place, none⟩ else .error .notFound
      | some node =>
        match node.content with
        | .directory => walkSteps t follow jump place rest
        | .symlink target =>
          if rest.isEmpty ∧ !follow then .ok ⟨place, some node⟩
          else jump (origin dir target) (Path.steps target ++ rest)
        | _ => if rest.isEmpty then .ok ⟨place, some node⟩ else .error .notADirectory

/-- Walks on through at most so many links. -/
def walk (t : Tree) (follow : Bool) : Nat → Place → List String → Except Refusal Spot
  | 0 => walkSteps t follow fun _ _ => .error .tooManyLinks
  | links + 1 => walkSteps t follow (walk t follow links)

/-- Where a path leads that is read at `here`. -/
def resolve (t : Tree) (here : Place) (follow : Bool) (s : String) : Except Refusal Spot :=
  if s.isEmpty then .error .notFound
  else if pathLimit ≤ s.utf8ByteSize then .error .nameTooLong
  else walk t follow linkLimit (origin here s) (Path.steps s)

/-- The place and node that a path names. -/
def find (t : Tree) (here : Place) (follow : Bool) (s : String) : Except Refusal (Place × Node) := do
  let spot ← t.resolve here follow s
  match spot.node with
  | some n => return (spot.place, n)
  | none => throw .notFound

end FlatPackage.Tree
