/-
  FlatPackage.Host.Listing — the nodes below a directory.

  A listing descends into directories and never into what a link leads to. It is sorted
  by the whole relative path, character by character, so it does not depend on the
  order in which the tree enumerates its nodes, and a directory comes before all that
  is below it. Every node is looked up again by its text, so one that lies too deep for
  a text to lead there ends the whole listing.
-/

import FlatPackage.Host.Describe

namespace FlatPackage.Host

/-- The normal form of a directory's path, without a slash at the end. -/
def openDirectory (s : String) (h : Host) : Except Fault String :=
  if s = "" then .error .notAnExistingDirectory
  else
    let path := (h.absolute s).closed.text
    match h.find true path with
    | .ok (_, n) => if n.content = .directory then .ok path else .error .notAnExistingDirectory
    | .error _ => .error .notAnExistingDirectory

/-- The description of what is at a place below a listed directory, which is at `dir` and called `root`. -/
def describeBelow (h : Host) (root : String) (dir p : Place) : Except Fault Descriptor :=
  let relative := "/".intercalate (p.drop dir.length)
  h.describeAt (Path.below root relative) relative

/-- All that is below a directory, or only what is directly in it. Nodes are described in the order in which
    they are found, and the first that is refused ends the listing. -/
def list (root : String) (recursive : Bool) (h : Host) : Except Fault (List Descriptor) :=
  match h.find true root with
  | .error why => .error (.refused (.list recursive) root why)
  | .ok (dir, n) =>
    if n.content = .directory then do
      let nodes := if recursive then h.tree.descend dir else h.tree.children dir
      let found ← nodes.mapM fun (p, _) => h.describeBelow root dir p
      return found.mergeSort fun a b => decide (a.relative ≤ b.relative)
    else .error (.refused (.list recursive) root .notADirectory)

end FlatPackage.Host
