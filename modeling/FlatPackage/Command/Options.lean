/-
  FlatPackage.Command.Options — what the words of a command line ask for.

  The first word is the command, in any case; without one, help is asked for. The words
  after it are taken from left to right: an option that wants a value takes the next
  word whatever it looks like. A word for help ends the reading at once, and so does the
  first word that cannot be read; what is missing is only noticed at the end. Words are
  `String`s: a command line with a word that is not UTF-8 is outside of what is described.
-/

import FlatPackage.Fault
import FlatPackage.Stream.Frame

namespace FlatPackage.Command

/-! ## Chunk sizes -/

def isBlank (c : Char) : Bool := c == ' ' || ('\t' ≤ c && c ≤ '\r')

/-- The number that decimal digits stand for. -/
def decimal (digits : List Char) : Nat := digits.foldl (fun n c => 10 * n + (c.toNat - 48)) 0

/-- Digits, perhaps after blanks and one plus sign, for a number that is not zero and fits a
    word. -/
def chunkSize? (s : String) : Option UInt64 :=
  let digits := match s.toList.dropWhile isBlank with
    | '+' :: r => r
    | r => r
  let n := decimal digits
  if digits.all Char.isDigit ∧ 0 < n ∧ n < UInt64.size then some n.toUInt64 else none

def readChunkSize (s : String) : Except Fault UInt64 :=
  match chunkSize? s with
  | some n => .ok n
  | none => .error (.badChunkSize s)

/-! ## Commands -/

/-- The commands that do something. -/
inductive Action where
  | create
  | list
  | payload
  | encode
  | decode
  | info
  deriving DecidableEq, Repr

def Action.needsOutput : Action → Bool
  | .create => true
  | .payload => true
  | .encode => true
  | .decode => true
  | _ => false

structure Options where
  input : String
  output : String
  chunkSize : UInt64
  digest : Bool
  verbose : Bool
  deriving DecidableEq, Repr

def Options.default : Options := ⟨"", "", Stream.defaultChunkSize, false, false⟩

inductive Request where
  | help
  | act (a : Action) (o : Options)
  deriving DecidableEq, Repr

/-- What a first word asks for, help being no action. -/
def readCommand (word : String) : Except Fault (Option Action) :=
  match String.ofList (word.toList.map Char.toLower) with
  | "create" => .ok (some .create)
  | "list" => .ok (some .list)
  | "payload" => .ok (some .payload)
  | "encode" => .ok (some .encode)
  | "decode" => .ok (some .decode)
  | "info" => .ok (some .info)
  | "help" => .ok none
  | "--help" => .ok none
  | "-h" => .ok none
  | _ => .error (.unknownCommand word)

/-- The options that the words set, or nothing if one of them asks for help. -/
def readOptions : List String → Options → Except Fault (Option Options)
  | [], o => .ok (some o)
  | [word], o =>
    if word = "--digest" then .ok (some { o with digest := true })
    else if word = "--verbose" ∨ word = "-v" then .ok (some { o with verbose := true })
    else if word = "--help" ∨ word = "-h" then .ok none
    else .error (.unknownArgument word)
  | word :: value :: rest, o =>
    if word = "--input" ∨ word = "-i" then readOptions rest { o with input := value }
    else if word = "--output" ∨ word = "-o" then readOptions rest { o with output := value }
    else if word = "--chunk-size" then do
      let n ← readChunkSize value
      readOptions rest { o with chunkSize := n }
    else if word = "--digest" then readOptions (value :: rest) { o with digest := true }
    else if word = "--verbose" ∨ word = "-v" then readOptions (value :: rest) { o with verbose := true }
    else if word = "--help" ∨ word = "-h" then .ok none
    else .error (.unknownArgument word)

/-- An action with its options, if they are complete. -/
def complete (a : Action) (o : Options) : Except Fault Request :=
  if o.input = "" then .error .missingInput
  else if a.needsOutput ∧ o.output = "" then .error .missingOutput
  else .ok (.act a o)

/-- The words after the program's name. -/
def read : List String → Except Fault Request
  | [] => .ok .help
  | word :: rest => do
    match ← readCommand word with
    | none => return .help
    | some a =>
      match ← readOptions rest .default with
      | none => return .help
      | some o => complete a o

end FlatPackage.Command
