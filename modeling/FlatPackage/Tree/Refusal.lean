/-
  FlatPackage.Tree.Refusal — why a file system refuses an operation.
-/

namespace FlatPackage.Tree

inductive Refusal where
  | notFound
  | notADirectory
  | alreadyExists
  | isADirectory
  | nameTooLong
  | tooManyLinks
  deriving DecidableEq, Repr

def Refusal.message : Refusal → String
  | .notFound => "No such file or directory"
  | .notADirectory => "Not a directory"
  | .alreadyExists => "File exists"
  | .isADirectory => "Is a directory"
  | .nameTooLong => "File name too long"
  | .tooManyLinks => "Too many levels of symbolic links"

end FlatPackage.Tree
