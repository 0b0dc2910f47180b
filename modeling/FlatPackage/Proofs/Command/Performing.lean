/-
  FlatPackage.Proofs.Command.Performing — from a command line to the command.

  A command line that is read runs its command and nothing else: the status says how the
  command ended, and a fault adds its line. Much of what a command does only looks at the host and
  prints (`Quiet`); what is made of such steps leaves the host and the container library alone.
-/

import FlatPackage.Command.Run
import FlatPackage.Proofs.Container.Session

namespace FlatPackage.Command

open Container (Archive)
open Container.Session (bind_of_error bind_of_ok)

variable {σ α β : Type} {A : Archive σ} {codec : Stream.Codec} {words : List String} {a : Action} {o : Options}
  {w w' : World σ}

/-! ## Command lines -/

theorem perform_eq (hread : read words = .ok (.act a o)) (w : World σ) :
    perform A codec words w = act A codec o a w :=
  bind_of_ok
    (show (liftM (read words) : Run σ Request) w = (.ok (.act a o), w) by rw [hread]; rfl)

theorem run_of_ok (hread : read words = .ok (.act a o)) (ha : act A codec o a w = (.ok (), w')) :
    run A codec words w = (0, w') := by
  rw [run, perform_eq hread, ha]

theorem run_of_error {f : Fault} (hread : read words = .ok (.act a o)) (ha : act A codec o a w = (.error f, w')) :
    run A codec words w = (1, { w' with err := w'.err ++ f.report }) := by
  rw [run, perform_eq hread, ha]

/-! ## Looking and printing -/

/-- A run that looks and prints, and does nothing else. -/
def Quiet (x : Run σ α) : Prop := ∀ w, (x w).2.host = w.host ∧ (x w).2.archive = w.archive

namespace Quiet

theorem look (f : Host → Except Fault α) : Quiet (σ := σ) (Run.look f) := fun _ => ⟨rfl, rfl⟩

theorem say (s : String) : Quiet (σ := σ) (Run.say s) := fun _ => ⟨rfl, rfl⟩

theorem note (s : String) : Quiet (σ := σ) (Run.note s) := fun _ => ⟨rfl, rfl⟩

theorem except (r : Except Fault α) : Quiet (σ := σ) (liftM r : Run σ α) := by
  cases r <;> exact fun _ => ⟨rfl, rfl⟩

theorem bind {x : Run σ α} {f : α → Run σ β} (hx : Quiet x) (hf : ∀ a, Quiet (f a)) : Quiet (x >>= f) := by
  intro w
  obtain ⟨hh, ha⟩ := hx w
  rcases hr : x w with ⟨e | a, t⟩
  · rw [hr] at hh ha
    rw [bind_of_error hr]
    exact ⟨hh, ha⟩
  · rw [hr] at hh ha
    rw [bind_of_ok hr]
    exact ⟨(hf a t).1.trans hh, (hf a t).2.trans ha⟩

end Quiet

end FlatPackage.Command
