/-
  FlatPackage.Path — paths as texts, before any file system is asked.

  A place in the tree is its list of names; `[]` is the root. A text is cut at its
  slashes; what `.`, `..`, empty pieces and a slash at the end mean depends on who
  reads it:
  - `Absolute` is the text's normal form, made by text alone. It has no `.` and no
    `..` (a `..` takes the name before it away, wherever that name leads), and
    remembers whether the text ended in a slash, a `.` or a `..`.
  - `steps` is what a file system walks, in which `..` is a step like any other and a
    slash at the end is a last step to `.`.

  Names and texts are `String`s. A file system takes any octets but a zero and a slash for a
  name; names that are not UTF-8 are outside of what is described here.
-/

namespace FlatPackage

abbrev Place := List String

namespace Path

/-! ## Texts -/

/-- The pieces between slashes; there is one more of them than of slashes. -/
def pieces : List Char → List (List Char)
  | [] => [[]]
  | c :: r =>
    if c = '/' then [] :: pieces r
    else match pieces r with
      | p :: ps => (c :: p) :: ps
      | [] => [[c]]

def isRooted (s : String) : Bool := s.toList.head? == some '/'

def endsInSlash (s : String) : Bool := s.toList.getLast? == some '/'

/-- One slash for each run of slashes. -/
def singleSlashes : List Char → List Char
  | '/' :: '/' :: r => singleSlashes ('/' :: r)
  | c :: r => c :: singleSlashes r
  | [] => []

/-- The text with single slashes, which may still start or end in one. -/
def generic (s : String) : String := String.ofList (singleSlashes s.toList)

/-- The last piece, empty after a slash at the end. -/
def lastPiece (s : String) : String := String.ofList ((pieces s.toList).getLast?.getD [])

/-- The text up to the last piece, without the slashes before that; of a text below the root
    the root stays. -/
def parent (s : String) : String :=
  let upTo := s.toList.reverse.dropWhile (· != '/')
  match upTo, upTo.dropWhile (· == '/') with
  | [], _ => ""
  | _ :: _, [] => "/"
  | _ :: _, r => String.ofList r.reverse

/-- What a file system walks, one step after the other. -/
def steps (s : String) : List String :=
  let names := ((pieces s.toList).filter (!·.isEmpty)).map String.ofList
  if endsInSlash s then names ++ ["."] else names

/-! ## Normal form -/

structure Absolute where
  names : List String
  /-- The text goes on after the last name, with a slash. -/
  slashed : Bool
  deriving DecidableEq, Repr

namespace Absolute

def add (p : Absolute) (piece : String) : Absolute :=
  if piece = "" ∨ piece = "." then { p with slashed := true }
  else if piece = ".." then ⟨p.names.dropLast, true⟩
  else ⟨p.names ++ [piece], false⟩

/-- The normal form of a text that starts with a slash. -/
def ofText (s : String) : Absolute :=
  ((pieces s.toList).tail.map String.ofList).foldl add ⟨[], false⟩

/-- The text of a place. -/
def ofPlace (p : Place) : Absolute := ⟨p, false⟩

def text (p : Absolute) : String :=
  "/" ++ "/".intercalate p.names ++ (if p.slashed ∧ p.names ≠ [] then "/" else "")

/-- The last name, empty when the text goes on after it. -/
def name (p : Absolute) : String := if p.slashed then "" else p.names.getLast?.getD ""

/-- The same without a slash at the end. -/
def closed (p : Absolute) : Absolute := { p with slashed := false }

end Absolute

/-- The normal form of a text that is read at a place. -/
def absolute (here : Place) (s : String) : Absolute :=
  if isRooted s then .ofText s else .ofText ((Absolute.ofPlace here).text ++ "/" ++ s)

/-- The text of a name below another text. -/
def below (dir name : String) : String := if endsInSlash dir then dir ++ name else dir ++ "/" ++ name

end Path

end FlatPackage
