/-
  FlatPackage.Proofs.Package.Trace — the calls that writing a package makes.

  A session of calls to a library that writes everything down is said to be traced (`Traced`) when
  it ends either with a value, having made calls that all went well, or in the fault of its last
  call. Which calls these are depends on the value; a trace of two sessions in a row is the one and
  then the other.

  Proved:
  (1) `Traced.bind`: sessions in a row.
  (2) `traced_buildPayload`: for each entry a header, and its data if it is a file with any.
  (3) `traced_write`: the inner archive, and then the outer one with it as the payload.
-/

import FlatPackage.Package.Builder
import FlatPackage.Proofs.Container.Watch

namespace FlatPackage.Package

open Container (Archive Call Exchange Header Request Session Watched)

variable {σ α β : Type} {A : Archive σ}

/-! ## (1) Traces -/

/-- A session that ends with a value has made calls that the value goes with, and they went well; one that
    ends in a fault has it from the last call, and the calls before that went well. -/
structure Traced (P : α → List Exchange → Prop) (x : Session (Watched σ) α) : Prop where
  ok : ∀ {w t : Watched σ} {a : α}, x w = (.ok a, t) →
    ∃ made, t.exchanges = w.exchanges ++ made ∧ (∀ y ∈ made, y.Well) ∧ P a made
  error : ∀ {w t : Watched σ} {f : Fault}, x w = (.error f, t) →
    ∃ made q, t.exchanges = w.exchanges ++ (made ++ [⟨q, .error f⟩]) ∧ ∀ y ∈ made, y.Well

namespace Traced

variable {P : α → List Exchange → Prop} {x : Session (Watched σ) α}

theorem mono {Q : α → List Exchange → Prop} (h : Traced P x) (hPQ : ∀ a l, P a l → Q a l) : Traced Q x where
  ok hx := by
    obtain ⟨made, hl, hw, hp⟩ := h.ok hx
    exact ⟨made, hl, hw, hPQ _ _ hp⟩
  error := h.error

theorem pure (a : α) : Traced (σ := σ) (fun b made => b = a ∧ made = []) (Pure.pure a) where
  ok hx := by
    cases hx
    exact ⟨[], (List.append_nil _).symm, by simp, rfl, rfl⟩
  error hx := by cases hx

theorem call (c : Call α) : Traced (fun a made => made = [⟨c.request, .ok (c.value a)⟩]) (A.watched.call c) where
  ok {w t a} hx := by
    obtain ⟨hr, ht⟩ := Prod.mk.inj hx
    refine ⟨_, ?_, ?_, rfl⟩
    · rw [← ht]
      show w.exchanges ++ [.of c (A.answer c w.state).1] = _
      rw [show (A.answer c w.state).1 = .ok a from hr]
      rfl
    · intro y hy
      rw [List.mem_singleton.mp hy]
      exact ⟨_, rfl⟩
  error {w t f} hx := by
    obtain ⟨hr, ht⟩ := Prod.mk.inj hx
    refine ⟨[], c.request, ?_, by simp⟩
    rw [← ht]
    show w.exchanges ++ [.of c (A.answer c w.state).1] = _
    rw [show (A.answer c w.state).1 = .error f from hr]
    rfl

/-- One session after another. -/
theorem bind {Q : α → β → List Exchange → Prop} {f : α → Session (Watched σ) β} (h : Traced P x)
    (hf : ∀ a, Traced (Q a) (f a)) :
    Traced (fun b made => ∃ a l m, made = l ++ m ∧ P a l ∧ Q a b m) (x >>= f) where
  ok {w u b} hx := by
    obtain ⟨a, t, ha, hb⟩ := Session.bind_eq_ok hx
    obtain ⟨l, hl, hwl, hp⟩ := h.ok ha
    obtain ⟨m, hm, hwm, hq⟩ := (hf a).ok hb
    refine ⟨l ++ m, by rw [hm, hl, List.append_assoc], fun y hy => ?_, a, l, m, rfl, hp, hq⟩
    rcases List.mem_append.mp hy with hy | hy
    · exact hwl y hy
    · exact hwm y hy
  error {w u f'} hx := by
    rcases hr : x w with ⟨g | a, t⟩
    · rw [Session.bind_of_error hr] at hx
      cases hx
      exact h.error hr
    · rw [Session.bind_of_ok hr] at hx
      obtain ⟨l, hl, hwl, -⟩ := h.ok hr
      obtain ⟨m, q, hm, hwm⟩ := (hf a).error hx
      refine ⟨l ++ m, q, by rw [hm, hl, List.append_assoc, List.append_assoc], fun y hy => ?_⟩
      rcases List.mem_append.mp hy with hy | hy
      · exact hwl y hy
      · exact hwm y hy

end Traced

/-! ## (2) The inner archive -/

/-- A call that gave nothing but went well. -/
def done (q : Request) : Exchange := ⟨q, .ok .nothing⟩

/-- What the inner container is asked for an entry. -/
def Entry.requests (e : Entry) : List Request :=
  .header .cpio e.header :: if e.kind = .file ∧ !e.data.isEmpty then [.data .cpio e.data] else []

/-- The calls that make the inner archive. -/
def innerCalls (entries : List Entry) (archive : Bytes) : List Exchange :=
  done (.createMemory .cpio) :: ((entries.flatMap Entry.requests).map done ++ [⟨.take .cpio, .ok (.bytes archive)⟩])

/-- The calls that make the outer archive, in a file. -/
def outerCalls (now : Int) (path : String) (payload : Bytes) : List Exchange :=
  [.createFile .xar path, .header .xar (Builder.payloadHeader now payload), .data .xar payload, .finish .xar].map done

namespace Builder

theorem traced_putEntry (e : Entry) : Traced (fun _ made => made = e.requests.map done) (putEntry A.watched e) := by
  unfold putEntry
  by_cases h : e.kind = .file ∧ !e.data.isEmpty
  · simp only [if_pos h]
    refine ((Traced.call _).bind fun _ => Traced.call _).mono ?_
    rintro _ _ ⟨_, _, _, rfl, rfl, rfl⟩
    rw [Entry.requests, if_pos h]
    rfl
  · simp only [if_neg h]
    refine ((Traced.call _).bind fun _ => Traced.pure ()).mono ?_
    rintro _ _ ⟨_, _, _, rfl, rfl, -, rfl⟩
    rw [Entry.requests, if_neg h]
    rfl

theorem traced_putEntries (es : List Entry) :
    Traced (fun _ made => made = (es.flatMap Entry.requests).map done) (putEntries A.watched es) := by
  induction es with
  | nil =>
    refine (Traced.pure ()).mono ?_
    rintro _ _ ⟨-, rfl⟩
    rfl
  | cons e es ih =>
    refine ((traced_putEntry e).bind fun _ => ih).mono ?_
    rintro _ _ ⟨_, _, _, rfl, rfl, rfl⟩
    rw [List.flatMap_cons, List.map_append]

theorem traced_buildPayload (codec : Stream.Codec) (b : Builder) :
    Traced (fun payload made => ∃ archive, made = innerCalls b.entries archive ∧ payload = Stream.compress codec archive)
      (b.buildPayload A.watched codec) := by
  refine (Traced.bind ((Traced.call _).bind fun _ => (traced_putEntries b.entries).bind fun _ => Traced.call _)
    fun archive => Traced.pure (Stream.compress codec archive)).mono ?_
  rintro payload _ ⟨archive, _, _, rfl, ⟨_, _, _, rfl, rfl, _, _, _, rfl, rfl, rfl⟩, rfl, rfl⟩
  refine ⟨archive, ?_, rfl⟩
  rw [List.append_nil]
  rfl

/-! ## (3) The package -/

theorem traced_write (codec : Stream.Codec) (now : Int) (path : String) (b : Builder) :
    Traced (fun _ made => ∃ archive, made =
        innerCalls b.entries archive ++ outerCalls now path (Stream.compress codec archive))
      (b.write A.watched codec now path) := by
  refine ((traced_buildPayload codec b).bind fun payload => (Traced.call _).bind fun _ =>
    (Traced.call _).bind fun _ => (Traced.call _).bind fun _ => Traced.call _).mono ?_
  rintro _ _ ⟨_, _, _, rfl, ⟨archive, rfl, rfl⟩, _, _, _, rfl, rfl, _, _, _, rfl, rfl, _, _, _, rfl, rfl, rfl⟩
  exact ⟨archive, rfl⟩

end Builder

end FlatPackage.Package
