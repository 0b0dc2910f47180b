/-
  FlatPackage.Host.Setup — preparing a host.

  These put a tree into a wanted shape. A directory is made with all above it; any other
  node needs a directory that is there already, and only a file is written over. A step
  that is refused leaves what it has done so far. Each step is there twice, with its
  outcome (`Step`) and as the host that it leaves.
-/

import FlatPackage.Host.Parents

namespace FlatPackage.Host

open FlatPackage.Tree (Content Node Refusal)

/-- Makes the directories on the way to a place, and it. -/
def furnish (h : Host) (p : Place) : Host :=
  (List.range (p.length + 1)).foldl
    (fun h n => if (h.tree.at? (p.take n)).isSome then h else h.put (p.take n) .directory newDirectory) h

/-- A host with nothing but the root and the working directory. -/
def bare (here : Place) (clocks : Clocks) : Host := (⟨⟨[]⟩, here, clocks⟩ : Host).furnish here

/-! ## Steps -/

/-- A step of preparation, which may be refused. -/
abbrev Step := Host → Except Refusal Unit × Host

/-- Changes the node that a path leads to. -/
def change (s : String) (f : Node → Node) : Step := fun h =>
  match h.find true s with
  | .ok (p, _) => (.ok (), { h with tree := h.tree.update p f })
  | .error why => (.error why, h)

def permit (s : String) (permissions : UInt32) : Step := change s fun n => { n with permissions := permissions }

def date (s : String) (t : Int) : Step := change s fun n => { n with mtime := t }

/-- Makes a directory and all above it; the permissions are its own. -/
def makeRoom (s : String) (permissions : UInt32) : Step := fun h =>
  match h.makePath s with
  | (.ok (), h) => permit s permissions h
  | refused => refused

/-- Writes a file. One that is in the way is written over, also behind a link. -/
def putFile (s : String) (data : Bytes) (permissions : UInt32) : Step := fun h =>
  match h.resolve true s with
  | .error why => (.error why, h)
  | .ok ⟨p, none⟩ => (.ok (), h.put p (.file data) permissions)
  | .ok ⟨p, some n⟩ =>
    match n.content with
    | .file _ => (.ok (), h.put p (.file data) permissions)
    | _ => (.error .isADirectory, h)

/-- Makes a node where nothing is. -/
def putNew (s : String) (content : Content) (permissions : UInt32) : Step := fun h =>
  match h.resolve false s with
  | .error why => (.error why, h)
  | .ok ⟨p, none⟩ => (.ok (), h.put p content permissions)
  | .ok ⟨_, some _⟩ => (.error .alreadyExists, h)

/-- Takes away what is at a path, with all below it. -/
def clear (s : String) : Step := fun h =>
  match h.resolve false s with
  | .error .notFound => (.ok (), h)
  | .error why => (.error why, h)
  | .ok spot => (.ok (), { h with tree := h.tree.remove h.clocks.system spot.place })

/-! ## What they leave -/

def addDirectory (s : String) (permissions : UInt32) (h : Host) : Host := (makeRoom s permissions h).2

def addFile (s : String) (data : Bytes) (permissions : UInt32) (h : Host) : Host := (putFile s data permissions h).2

def addLink (s : String) (target : String) (h : Host) : Host := (putNew s (.symlink target) newLink h).2

def addSpecial (s : String) (permissions : UInt32) (h : Host) : Host := (putNew s .special permissions h).2

def setPermissions (s : String) (permissions : UInt32) (h : Host) : Host := (permit s permissions h).2

def setTime (s : String) (t : Int) (h : Host) : Host := (date s t h).2

def remove (s : String) (h : Host) : Host := (clear s h).2

end FlatPackage.Host
