/-
  FlatPackage.Proofs.Package.Payload — looking for the payload among the outer entries.

  The search goes on for as long as the library has entries to come, which is for the library to
  say. With a bound on the number of entries it is a plain recursion (`searchWithin`), made
  of calls one after another; and every bound above what is to come gives the search itself.

  Proved:
  (1) `findPayload_step`: one entry of the search.
  (2) `findPayload_eq_searchWithin`: the search with and without a bound.
  (3) `openPayload_eq`, `openPayload_of_error`: what becomes of a payload that is at hand.
-/

import FlatPackage.Package.Reader
import FlatPackage.Proofs.Container.Session

namespace FlatPackage.Package.Reader

open Container (Archive Header Session)

variable {σ : Type} {A : Archive σ}

/-! ## (1) One entry -/

theorem findPayload_step (A : Archive σ) (s : σ) :
    findPayload A s = (do
      match ← A.call (.next .xar) with
      | some h => if isPayloadName h.path then A.call (.readAll .xar) else findPayload A
      | none => throw .noPayload : Session σ Bytes) s := by
  rw [findPayload]
  split
  · rename_i h t heq
    have hc : A.call (.next .xar) s = (.ok (some h), t) := heq
    rw [Session.bind_of_ok hc]
    by_cases hn : isPayloadName h.path = true
    · simp only [if_pos hn]
      rfl
    · simp only [if_neg hn]
  · rename_i t heq
    have hc : A.call (.next .xar) s = (.ok none, t) := heq
    rw [Session.bind_of_ok hc]
    rfl
  · rename_i f t heq
    have hc : A.call (.next .xar) s = (.error f, t) := heq
    rw [Session.bind_of_error hc]

/-- The next entry is the payload: its body is read and nothing else is looked at. -/
theorem findPayload_of_named {h : Header} (hn : isPayloadName h.path = true) {s t : σ}
    (ha : A.answer (.next .xar) s = (.ok (some h), t)) : findPayload A s = A.answer (.readAll .xar) t := by
  have hc : A.call (.next .xar) s = (.ok (some h), t) := ha
  rw [findPayload_step, Session.bind_of_ok hc]
  simp only [if_pos hn]
  rfl

/-! ## (2) The search with a bound -/

/-- The search among at most `n` entries. -/
def searchWithin (A : Archive σ) : Nat → Session σ Bytes
  | 0 => throw .noPayload
  | n + 1 => do
    match ← A.call (.next .xar) with
    | some h => if isPayloadName h.path then A.call (.readAll .xar) else searchWithin A n
    | none => throw .noPayload

theorem findPayload_eq_searchWithin {n : Nat} {s : σ} (hl : A.left .xar s < n) : findPayload A s = searchWithin A n s := by
  induction n generalizing s with
  | zero => exact absurd hl (Nat.not_lt_zero _)
  | succ n ih =>
    rw [findPayload_step, searchWithin]
    rcases hc : A.call (.next .xar) s with ⟨f | _ | h, t⟩
    · rw [Session.bind_of_error hc, Session.bind_of_error hc]
    · rw [Session.bind_of_ok hc, Session.bind_of_ok hc]
    · rw [Session.bind_of_ok hc, Session.bind_of_ok hc]
      by_cases hn : isPayloadName h.path = true
      · simp only [if_pos hn]
      · simp only [if_neg hn]
        have hless : A.left .xar t < A.left .xar s := A.left_next hc
        exact ih (by omega)

/-! ## (3) The payload at hand -/

/-- Opening from the payload, once it is at hand. -/
theorem openPayload_eq {codec : Stream.Codec} {payload archive : Bytes}
    (h : Stream.decode codec payload = .ok archive) (s : σ) :
    openPayload A codec payload s = A.answer (.openMemory .cpio archive) s := by
  unfold openPayload
  rw [h]
  rfl

/-- A payload that does not decode ends it before there is a call. -/
theorem openPayload_of_error {codec : Stream.Codec} {payload : Bytes} {f : Fault}
    (h : Stream.decode codec payload = .error f) (s : σ) : openPayload A codec payload s = (.error f, s) := by
  unfold openPayload
  rw [h]
  rfl

end FlatPackage.Package.Reader
