/-
  FlatPackage.Container.Archive — the calls that a container library answers.

  What bytes an archive has is the library's affair; this package only decides which
  calls are made, in which order, and what becomes of the answers. A library is a value
  of `Archive`: a state, an answer to every call, and a count of the entries that are
  still to come, which bounds every loop over them. There is one reader and one writer
  of each format at a time; opening or creating replaces it.

  A call that fails leaves a fault and the state as the library left it, so a session
  that stops at a fault can still be looked at.
-/

import FlatPackage.Bytes
import FlatPackage.Container.Entry
import FlatPackage.Fault

namespace FlatPackage.Container

/-! ## Calls -/

inductive Call : Type → Type where
  | openFile (format : Format) (path : String) : Call Unit
  | openMemory (format : Format) (bytes : Bytes) : Call Unit
  /-- Moves to the next entry; none past the last one. -/
  | next (format : Format) : Call (Option Header)
  /-- At most `n` octets of what is left of the entry's body. -/
  | read (format : Format) (n : Nat) : Call Bytes
  | readAll (format : Format) : Call Bytes
  | skip (format : Format) : Call Unit
  | createFile (format : Format) (path : String) : Call Unit
  | createMemory (format : Format) : Call Unit
  | header (format : Format) (h : Header) : Call Unit
  | data (format : Format) (bytes : Bytes) : Call Unit
  | finish (format : Format) : Call Unit
  /-- The archive's bytes, of a writer in memory. -/
  | take (format : Format) : Call Bytes

/-- Whether a call reads from the body of the current entry of a format. -/
def Call.readsBody {α : Type} (f : Format) : Call α → Bool
  | .read g _ => g == f
  | .readAll g => g == f
  | .skip g => g == f
  | _ => false

/-! ## Libraries -/

structure Archive (σ : Type) where
  answer : {α : Type} → Call α → σ → Except Fault α × σ
  /-- The most entries of a format that are still to come. -/
  left : Format → σ → Nat
  left_next : ∀ {f s h t}, answer (.next f) s = (.ok (some h), t) → left f t < left f s
  left_body : ∀ {α f s} {c : Call α}, c.readsBody f → left f (answer c s).2 ≤ left f s

/-- Calls in a row, up to the first fault. -/
abbrev Session (σ : Type) := ExceptT Fault (StateM σ)

namespace Archive

def call {σ α : Type} (A : Archive σ) (c : Call α) : Session σ α := fun s => A.answer c s

/-- The library that is not there: every call fails. -/
def absent (message : String) : Archive Unit where
  answer := fun _ s => (.error (.container message), s)
  left := fun _ _ => 0
  left_next := by simp
  left_body := by simp

end Archive

end FlatPackage.Container
