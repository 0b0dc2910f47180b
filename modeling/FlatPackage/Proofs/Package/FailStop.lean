/-
  FlatPackage.Proofs.Package.FailStop — a package is written and opened up to the first call that fails.

  Every operation on packages is made of calls, of answers that need none, and of one operation
  after another; so it is orderly (`Watch`), once it is said of which containers. Writing goes
  through the inner container first and then the outer one. A call of the inner one that
  fails is the last call of all, and with it the outer one was never touched.

  Proved:
  (1) `orderly_buildPayload`, `orderly_putPayload`: each stage of writing keeps to one container.
  (2) `orderly_findPayload`: the search for the payload, whatever there is to be searched.
  (3) `fail_stop`: every operation stops at the first call that fails, and writing does so in order.
  Trace: a body that the inner container refuses (`a_body_that_is_refused`).
-/

import FlatPackage.Container.Rehearsal
import FlatPackage.Package.Builder
import FlatPackage.Proofs.Container.Watch
import FlatPackage.Proofs.Package.Payload

namespace FlatPackage.Package

open Container (Archive Exchange Operation Rehearsal Request Session Watched)

variable {α β : Type}

namespace Builder

/-! ## (1) Writing -/

theorem orderly_putEntry (e : Entry) : Operation.Orderly (·.format = .cpio) fun _ A _ => putEntry A e := by
  unfold putEntry
  refine .bind (.call _ rfl) fun _ => ?_
  by_cases h : e.kind = .file ∧ !e.data.isEmpty
  · simp only [if_pos h]
    exact .call _ rfl
  · simp only [if_neg h]
    exact .answer (.ok ())

theorem orderly_putEntries (es : List Entry) : Operation.Orderly (·.format = .cpio) fun _ A _ => putEntries A es := by
  induction es with
  | nil => exact .answer (.ok ())
  | cons e es ih => exact .bind (orderly_putEntry e) fun _ => ih

theorem orderly_buildPayload (codec : Stream.Codec) (b : Builder) :
    Operation.Orderly (·.format = .cpio) fun _ A _ => b.buildPayload A codec := by
  refine .bind (.bind (.call _ rfl) fun _ => ?_) fun archive => .answer (.ok (Stream.compress codec archive))
  exact .bind (orderly_putEntries b.entries) fun _ => .call _ rfl

/-- The time is in the header of the payload and nowhere else. -/
theorem orderly_putPayload (payload : Bytes) :
    Operation.Orderly (·.format = .xar) fun _ A now => putPayload A now payload := by
  refine .bind (.timed (fun _ => rfl) (fun _ _ _ _ _ => rfl) fun _ _ => rfl) fun _ => ?_
  exact .bind (.call _ rfl) fun _ => .call _ rfl

end Builder

/-! ## (2) Reading -/

namespace Reader

theorem orderly_searchWithin (n : Nat) : Operation.Orderly (·.format = .xar) fun _ A _ => searchWithin A n := by
  induction n with
  | zero => exact .answer (.error .noPayload)
  | succ n ih =>
    refine .bind (.call _ rfl) fun next => ?_
    cases next with
    | none => exact .answer (.error .noPayload)
    | some h =>
      by_cases hn : isPayloadName h.path = true
      · simp only [if_pos hn]
        exact .call _ rfl
      · simp only [if_neg hn]
        exact ih

/-- A bound that is above what either library has to come serves for both. -/
theorem orderly_findPayload : Operation.Orderly (·.format = .xar) fun _ A _ => findPayload A := by
  have hwatched : ∀ {σ : Type} (A : Archive σ) (w : Watched σ) {n : Nat}, A.left .xar w.state < n →
      findPayload A.watched w = searchWithin A.watched n w := fun A w n h => findPayload_eq_searchWithin h
  refine ⟨?_, ?_, ?_⟩
  · intro σ A now w
    have hl := Nat.lt_succ_self (A.left .xar w.state)
    rw [hwatched A w hl, findPayload_eq_searchWithin hl]
    exact (orderly_searchWithin _).unwatched A now w
  · intro σ A now w
    rw [hwatched A w (Nat.lt_succ_self _)]
    exact (orderly_searchWithin _).ended A now w
  · intro σ σ' A A' now now' w w' h
    have hl : A.left .xar w.state < A.left .xar w.state + A'.left .xar w'.state + 1 := by omega
    have hl' : A'.left .xar w'.state < A.left .xar w.state + A'.left .xar w'.state + 1 := by omega
    rw [hwatched A w hl, hwatched A' w' hl']
    exact (orderly_searchWithin _).paired A A' now now' w w' h

theorem orderly_extractPayload (path : String) :
    Operation.Orderly (·.format = .xar) fun _ A _ => extractPayload A path :=
  .bind (.call _ rfl) fun _ => orderly_findPayload

theorem orderly_openPayload (codec : Stream.Codec) (payload : Bytes) :
    Operation.Orderly (·.format = .cpio) fun _ A _ => openPayload A codec payload := by
  unfold openPayload
  cases h : Stream.decode codec payload with
  | error f => exact .bind (.answer (.error f)) fun archive => .call (.openMemory .cpio archive) rfl
  | ok archive => exact .bind (.answer (.ok archive)) fun archive => .call (.openMemory .cpio archive) rfl

end Reader

/-! ## (3) One container after the other -/

/-- A call of the inner container that fails was preceded by none of the outer one, and a call of the
    outer one that fails is followed by none. -/
def Staged (op : Operation α) : Prop :=
  ∀ {σ : Type} (A : Archive σ) (now : Int) (s : σ) (before : List Exchange) (x : Exchange) (after : List Exchange),
    op.exchanges A now s = before ++ x :: after → (∃ f, x.reply = .error f) →
      (x.request.format = .cpio → ∀ y ∈ op.exchanges A now s, y.request.format = .cpio) ∧
      (x.request.format = .xar → after = [])

/-- An operation that uses any containers is one that uses some. -/
theorem orderly_any {P : Request → Prop} {op : Operation α} (h : op.Orderly P) : op.Orderly fun _ => True :=
  h.mono fun _ _ => trivial

section

variable {op : Operation α} {next : α → Operation β} (h : op.Orderly (·.format = .cpio))
  (hn : ∀ a, (next a).Orderly (·.format = .xar))

include h hn

/-- The calls of the inner container come first. -/
theorem exchanges_bind {σ : Type} (A : Archive σ) (now : Int) (s : σ) :
    ∃ inner outer, Operation.exchanges (fun σ A now => op σ A now >>= fun a => next a σ A now) A now s = inner ++ outer ∧
      (∀ x ∈ inner, x.request.format = .cpio) ∧ ∀ x ∈ outer, x.request.format = .xar := by
  obtain ⟨inner, hl, hi⟩ := (h.ended A now ⟨s, []⟩).requests
  show ∃ inner outer, ((op _ A.watched now >>= fun a => next a _ A.watched now) ⟨s, []⟩).2.exchanges = inner ++ outer ∧ _
  rcases hr : op _ A.watched now ⟨s, []⟩ with ⟨f | a, t⟩
  · rw [hr] at hl
    rw [Session.bind_of_error hr]
    exact ⟨inner, [], by rw [List.append_nil]; exact hl, hi, by simp⟩
  · rw [hr] at hl
    rw [Session.bind_of_ok hr]
    obtain ⟨outer, hl', ho⟩ := ((hn a).ended A now t).requests
    exact ⟨inner, outer, hl'.trans (by rw [hl]; rfl), hi, ho⟩

theorem staged_bind : Staged fun σ A now => op σ A now >>= fun a => next a σ A now := by
  intro σ A now s before x after hx hf
  obtain ⟨f, hf⟩ := hf
  have hlast : after = [] := by
    have horderly := (orderly_any h).bind fun a => orderly_any (hn a)
    have hk : (before ++ x :: after)[before.length]?.map Exchange.reply = some (.error f) := by
      rw [List.getElem?_append_right (Nat.le_refl _), Nat.sub_self, List.getElem?_cons_zero, Option.map_some, hf]
    have hl := (horderly.last_of_failure A now s (k := before.length) (by rw [hx]; exact hk)).2
    rw [hx, List.length_append, List.length_cons] at hl
    exact List.length_eq_zero_iff.mp (by omega)
  refine ⟨?_, fun _ => hlast⟩
  intro hcpio
  obtain ⟨inner, outer, hl, hi, ho⟩ := exchanges_bind h hn A now s
  rcases List.eq_nil_or_concat outer with rfl | ⟨outer, z, rfl⟩
  · rw [hl, List.append_nil]
    exact hi
  · -- the last call would be one of the outer container
    rw [hl, hlast, List.concat_eq_append, ← List.append_assoc] at hx
    have hz : z = x := List.singleton_inj.mp (List.append_inj' hx rfl).2
    have hxar := ho z (by simp)
    rw [hz, hcpio] at hxar
    cases hxar

end

/-! ## Fail-stop -/

variable (codec : Stream.Codec) (b : Builder)

theorem staged_write (path : String) : Staged fun _ A now => b.write A codec now path :=
  staged_bind (Builder.orderly_buildPayload codec b) fun payload =>
    .bind (.call _ rfl) fun _ => Builder.orderly_putPayload payload

theorem staged_toBytes : Staged fun _ A now => b.toBytes A codec now :=
  staged_bind (Builder.orderly_buildPayload codec b) fun payload =>
    .bind (.call _ rfl) fun _ => .bind (Builder.orderly_putPayload payload) fun _ => .call _ rfl

theorem orderly_write (path : String) : Operation.Orderly (fun _ => True) fun _ A now => b.write A codec now path :=
  .bind (orderly_any (Builder.orderly_buildPayload codec b)) fun payload =>
    .bind (.call _ trivial) fun _ => orderly_any (Builder.orderly_putPayload payload)

theorem orderly_toBytes : Operation.Orderly (fun _ => True) fun _ A now => b.toBytes A codec now :=
  .bind (orderly_any (Builder.orderly_buildPayload codec b)) fun payload =>
    .bind (.call _ trivial) fun _ => .bind (orderly_any (Builder.orderly_putPayload payload)) fun _ => .call _ trivial

theorem orderly_openFile (path : String) : Operation.Orderly (fun _ => True) fun _ A _ => Reader.openFile A codec path :=
  .bind (orderly_any (Reader.orderly_extractPayload path)) fun payload =>
    orderly_any (Reader.orderly_openPayload codec payload)

theorem orderly_openMemory (package : Bytes) :
    Operation.Orderly (fun _ => True) fun _ A _ => Reader.openMemory A codec package :=
  .bind (.call _ trivial) fun _ => .bind (orderly_any Reader.orderly_findPayload) fun payload =>
    orderly_any (Reader.orderly_openPayload codec payload)

/-- Every operation on packages ends in the fault of the first call that fails, makes no call after it,
    and has made the very calls that it makes anyway, but for the time in the payload's header.
    Of writing: what fails in the inner container fails before there is an outer one, and what
    fails in the outer container is not followed by an attempt to finish it. -/
theorem fail_stop (path : String) (bytes : Bytes) :
    Operation.FailStop (fun _ A _ => b.buildPayload A codec) ∧
    Operation.FailStop (fun _ A now => b.toBytes A codec now) ∧
    Operation.FailStop (fun _ A now => b.write A codec now path) ∧
    Operation.FailStop (fun _ A _ => Reader.openFile A codec path) ∧
    Operation.FailStop (fun _ A _ => Reader.openMemory A codec bytes) ∧
    Operation.FailStop (fun _ A _ => Reader.extractPayload A path) ∧
    Operation.FailStop (fun _ A _ => Reader.openPayload A codec bytes) ∧
    Staged (fun _ A now => b.toBytes A codec now) ∧
    Staged (fun _ A now => b.write A codec now path) := by
  refine ⟨?_, ?_, ?_, ?_, ?_, ?_, ?_, staged_toBytes codec b, staged_write codec b path⟩
  · exact (Builder.orderly_buildPayload codec b).failStop
  · exact (orderly_toBytes codec b).failStop
  · exact (orderly_write codec b path).failStop
  · exact (orderly_openFile codec path).failStop
  · exact (orderly_openMemory codec bytes).failStop
  · exact (Reader.orderly_extractPayload path).failStop
  · exact (Reader.orderly_openPayload codec bytes).failStop

/-- The inner container takes the header of a file and refuses its body: writing fails as it did, and of
    the seven calls of a run without trouble the first three were made. -/
theorem a_body_that_is_refused :
    let codec : Stream.Codec := ⟨id, fun x => .ok x⟩
    let b : Builder := ⟨[⟨"a", .file, [1], 0o644, 0, ""⟩, ⟨"b", .directory, [], 0o755, 0, ""⟩]⟩
    let write : Operation Unit := fun _ A now => b.write A codec now "a.pkg"
    let calm := Rehearsal.prepare ⟨[], []⟩ ⟨[], []⟩ none
    let rough := Rehearsal.prepare ⟨[], []⟩ ⟨[], []⟩ (some ⟨.data, .cpio, 0, "no room"⟩)
    let A := Rehearsal.archive
    (write _ A 9 rough).1 = .error (.container "no room") ∧ (write.exchanges A 9 rough).length = 3 ∧
      (write.exchanges A 9 rough).map (·.request.undated) = ((write.exchanges A 7 calm).take 3).map (·.request.undated) ∧
      ∀ y ∈ write.exchanges A 9 rough, y.request.format = .cpio := by
  intro codec b write calm rough A
  have h := fail_stop codec b "a.pkg" []
  obtain ⟨-, -, hw, -, -, -, -, -, hs⟩ := h
  obtain ⟨he, hl, hq⟩ := hw.stops A A 7 9 calm rough 2 (.container "no room") rfl rfl
  exact ⟨he, hl, hq, (hs A 9 rough _ _ [] rfl ⟨_, rfl⟩).1 rfl⟩

end FlatPackage.Package
