/-
  FlatPackage.Proofs.Container.Session — calls in a row.

  A session is a function of the library's state that ends in an answer or a fault, and in
  the state in which the last call left the library. These lemmas take a session of several
  steps apart at its first step, so that no proof looks into the monad.
-/

import FlatPackage.Container.Archive

namespace FlatPackage.Container.Session

variable {σ α β : Type}

/-- The first step went well: the session goes on from there. -/
theorem bind_of_ok {x : Session σ α} {f : α → Session σ β} {s t : σ} {a : α} (h : x s = (.ok a, t)) :
    (x >>= f) s = f a t := by
  show ExceptT.bindCont f (x s).1 (x s).2 = _
  rw [h]
  rfl

/-- The first step failed: so did the session, and nothing more was done. -/
theorem bind_of_error {x : Session σ α} {f : α → Session σ β} {s t : σ} {e : Fault} (h : x s = (.error e, t)) :
    (x >>= f) s = (.error e, t) := by
  show ExceptT.bindCont f (x s).1 (x s).2 = _
  rw [h]
  rfl

/-- A session of two parts that went well is two that did. -/
theorem bind_eq_ok {x : Session σ α} {f : α → Session σ β} {s u : σ} {b : β} (h : (x >>= f) s = (.ok b, u)) :
    ∃ a t, x s = (.ok a, t) ∧ f a t = (.ok b, u) := by
  rcases hx : x s with ⟨e | a, t⟩
  · rw [bind_of_error hx] at h
    cases h
  · rw [bind_of_ok hx] at h
    exact ⟨a, t, rfl, h⟩

end FlatPackage.Container.Session
