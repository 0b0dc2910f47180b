/-
  FlatPackage.Host.Parents — making the directory that a file is to be in.

  From the directory's path the search goes up, text by text, until something is there;
  what was missing is then made from the top down. A name that is taken by something
  other than a directory ends either half. What was made before a failure stays.
-/

import FlatPackage.Host.Basic

namespace FlatPackage.Host

open FlatPackage.Tree (Refusal)

/-- What a path leads to, links followed. -/
inductive Status where
  | directory
  | other
  | missing
  | refused (why : Refusal)
  deriving DecidableEq, Repr

def status (h : Host) (s : String) : Status :=
  match h.find true s with
  | .ok (_, n) => if n.content = .directory then .directory else .other
  | .error .notFound => .missing
  | .error .notADirectory => .missing
  | .error why => .refused why

/-- More missing directories than this are too many. -/
def missingLimit : Nat := 1000

/-- The paths that have to be made for `s` to be there, the topmost first, before those already
    found. The text gets shorter with each turn, so its length bounds the search. -/
def missing (h : Host) : Nat → List String → String → Except Refusal (List String)
  | 0, found, _ => .ok found
  | fuel + 1, found, s =>
    let name := Path.lastPiece s
    let found := if name = "." ∨ name = ".." then found else s :: found
    if missingLimit < found.length then .error .nameTooLong
    else
      let up := Path.parent s
      if up = "" then .ok found
      else match h.status up with
        | .missing => missing h fuel found up
        | .other => .error .notADirectory
        | _ => .ok found

/-- Makes one directory; one that is there already is as good. -/
def makeDirectory (s : String) (h : Host) : Except Refusal Host :=
  match h.resolve false s with
  | .ok ⟨p, none⟩ => .ok (h.put p .directory newDirectory)
  | .ok ⟨_, some _⟩ => if h.status s = .directory then .ok h else .error .alreadyExists
  | .error why => .error why

def makeDirectories : List String → Host → Except Refusal Unit × Host
  | [], h => (.ok (), h)
  | s :: r, h =>
    match makeDirectory s h with
    | .ok h => makeDirectories r h
    | .error why => (.error why, h)

/-- Makes a directory and all above it. -/
def makePath (s : String) (h : Host) : Except Refusal Unit × Host :=
  match h.status s with
  | .directory => (.ok (), h)
  | .other => (.error .notADirectory, h)
  | .refused why => (.error why, h)
  | .missing =>
    match h.missing (s.length + 1) [] s with
    | .ok paths => makeDirectories paths h
    | .error why => (.error why, h)

/-- Makes the directory that the path's last piece is in; a lone name needs none. -/
def ensureParent (s : String) : Act Unit := fun h =>
  let up := Path.parent s
  if up = "" then (.ok (), h)
  else
    let (made, h) := makePath up h
    (made.mapError (.refused .createParents up), h)

end FlatPackage.Host
