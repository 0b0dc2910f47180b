/-
  FlatPackage.Xz.Scan — reading a prefix of the input, or saying what is wrong with it.

  A scan takes octets off the front and leaves the rest. What is wrong with an input is
  one of four flaws; running out of input is `truncated`, which a scan confined to a
  declared size turns into `corrupt` (`confined`): there the end of the region is no news
  about the end of the input. The other flaws are the library's or the machine's, and no
  scan finds them.
-/

import FlatPackage.Bytes

namespace FlatPackage.Xz

inductive Flaw where
  /-- The first octets are not those of an .xz file. -/
  | format
  /-- The file asks for something that this reader does not know. -/
  | options
  | corrupt
  | truncated
  /-- The machine has no memory left. -/
  | noMemory
  /-- More memory would be needed than is allowed. -/
  | memoryLimit
  /-- The contents carry a check that cannot be verified. -/
  | unknownCheck
  | misuse
  /-- A reason that has no wording, by its number. -/
  | numbered (n : Nat)
  deriving DecidableEq, Repr, Inhabited

def Flaw.message : Flaw → String
  | .format => "input is not in the .xz format"
  | .options => "unsupported compression options"
  | .corrupt => "compressed data is corrupt"
  | .truncated => "compressed data is truncated"
  | .noMemory => "cannot allocate memory"
  | .memoryLimit => "memory usage limit reached"
  | .unknownCheck => "unsupported integrity check"
  | .misuse => "programming error"
  | .numbered n => "liblzma error " ++ toString n

abbrev Scan := StateT Bytes (Except Flaw)

namespace Scan

def fail {α : Type} (f : Flaw) : Scan α := fun _ => .error f

/-- Goes on only if `ok` holds. -/
def demand (ok : Bool) (f : Flaw) : Scan Unit := fun s => if ok then .ok ((), s) else .error f

def octet : Scan UInt8
  | b :: r => .ok (b, r)
  | [] => .error .truncated

/-- Exactly `n` octets. -/
def take (n : Nat) : Scan Bytes := fun s =>
  match Bytes.splitExact? n s with
  | some (a, r) => .ok (a, r)
  | none => .error .truncated

/-- `n` octets that have to be zero. -/
def zeros (f : Flaw) : Nat → Scan Unit
  | 0 => pure ()
  | n + 1 => do
    let b ← octet
    demand (b == 0) f
    zeros f n

/-- Runs a scan that has to use up a region exactly; the region's end is no end of input. -/
def confined {α : Type} (f : Flaw) (p : Scan α) (region : Bytes) : Except Flaw α :=
  match p region with
  | .ok (a, []) => .ok a
  | .ok (_, _ :: _) => .error f
  | .error .truncated => .error f
  | .error e => .error e

/-- Whether a repeated scan has come to its end. -/
inductive Turn (σ τ : Type) where
  | more (x : σ)
  | done (y : τ)

/-- Repeats a scan until it says `done`. A turn that takes no octets is refused, so the
    repetition is bounded by the input. -/
def repeated {σ τ : Type} (turn : σ → Scan (Turn σ τ)) (x : σ) (s : Bytes) : Except Flaw (τ × Bytes) :=
  match turn x s with
  | .error f => .error f
  | .ok (.done y, r) => .ok (y, r)
  | .ok (.more x, r) => if r.length < s.length then repeated turn x r else .error .corrupt
termination_by s.length

end Scan

end FlatPackage.Xz
