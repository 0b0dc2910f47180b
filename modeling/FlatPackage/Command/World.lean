/-
  FlatPackage.Command.World — what a command works on, and what it leaves.

  Besides the host and the container library, a world has the two texts that a command
  prints. A fault ends the command and keeps the world as it is by then, with everything
  printed so far.
-/

import FlatPackage.Container.Archive
import FlatPackage.Host.Listing

namespace FlatPackage.Command

structure World (σ : Type) where
  host : Host
  archive : σ
  out : String
  err : String

abbrev Run (σ : Type) := ExceptT Fault (StateM (World σ))

namespace Run

variable {σ α : Type}

/-- Prints. -/
def say (s : String) : Run σ Unit := fun w => (.ok (), { w with out := w.out ++ s })

/-- Prints beside the output proper. -/
def note (s : String) : Run σ Unit := fun w => (.ok (), { w with err := w.err ++ s })

/-- Looks at the host and leaves it as it is. -/
def look (f : Host → Except Fault α) : Run σ α := fun w => (f w.host, w)

/-- Does something to the host. -/
def change (act : Host.Act α) : Run σ α := fun w =>
  let (a, h) := act w.host
  (a, { w with host := h })

/-- Makes calls to the container library. -/
def calls (session : Container.Session σ α) : Run σ α := fun w =>
  let (a, s) := session w.archive
  (a, { w with archive := s })

/-- The present, in seconds. -/
def now : Run σ Int := fun w => (.ok w.host.clocks.now, w)

end Run

end FlatPackage.Command
