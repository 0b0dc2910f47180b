/-
  FlatPackage.Proofs.Package.Tour — going through the entries of an open package.

  A client visits entries one after another. From each it reads as many portions as it
  likes, each of as many octets as it likes or of all that is left, and it may then skip what
  is left or just move on.

  Proved, for any container library that keeps its contract:
  (1) `visit_spec`: a visit gives the entry's header; what it reads comes from the front of the
      body, in order, and is all of it if the rest was asked for once.
  (2) `tour_spec`: on a tour each visit gives this of its own entry, whatever the visits before it
      left unread.
-/

import FlatPackage.Package.Reader
import FlatPackage.Proofs.Container.Contract
import FlatPackage.Proofs.Container.Session
import Mathlib.Data.List.Forall2

namespace FlatPackage.Package.Reader

open Container (Archive Contract Header Item Place Session)

/-! ## Clients -/

/-- One way to read from a body. -/
inductive Portion where
  | upTo (n : Nat)
  | rest
  deriving DecidableEq, Repr

/-- What a client does with an entry: reads from its body, and then perhaps skips what is left. -/
structure Visit where
  portions : List Portion
  skips : Bool
  deriving DecidableEq, Repr

variable {σ : Type} (A : Archive σ)

def readPortion : Portion → Session σ Bytes
  | .upTo n => read A n
  | .rest => readAll A

def readPortions : List Portion → Session σ (List Bytes)
  | [] => return []
  | p :: r => do
    let a ← readPortion A p
    let b ← readPortions r
    return a :: b

def leave : Bool → Session σ Unit
  | true => skip A
  | false => return ()

/-- The next entry's header, and what its body gave, portion by portion. -/
def visit (v : Visit) : Session σ (Option Header × List Bytes) := do
  let h ← next A
  let parts ← readPortions A v.portions
  leave A v.skips
  return (h, parts)

def tour : List Visit → Session σ (List (Option Header × List Bytes))
  | [] => return []
  | v :: r => do
    let a ← visit A v
    let b ← tour r
    return a :: b

variable {A}

/-! ## (1) One entry -/

/-- A portion is no longer than asked for. -/
def Portion.Within : Portion → Bytes → Prop
  | .upTo n, b => b.length ≤ n
  | .rest, _ => True

theorem readPortion_spec (K : Contract A) (p : Portion) {rest : List Item} {body : Bytes} {s : σ}
    (h : K.place .cpio s = some ⟨rest, some body⟩) :
    ∃ front left t, readPortion A p s = (.ok front, t) ∧ K.place .cpio t = some ⟨rest, some left⟩ ∧
      body = front ++ left ∧ p.Within front ∧ (p = .rest → left = []) := by
  cases p with
  | upTo n =>
    obtain ⟨front, left, t, hb, hn, ha, ht⟩ := K.read n h
    exact ⟨front, left, t, ha, ht, hb, hn, by simp⟩
  | rest =>
    obtain ⟨t, ha, ht⟩ := K.readAll h
    exact ⟨body, [], t, ha, ht, (List.append_nil body).symm, trivial, fun _ => rfl⟩

theorem readPortions_spec (K : Contract A) (ps : List Portion) {rest : List Item} {body : Bytes} {s : σ}
    (h : K.place .cpio s = some ⟨rest, some body⟩) :
    ∃ parts left t, readPortions A ps s = (.ok parts, t) ∧ K.place .cpio t = some ⟨rest, some left⟩ ∧
      body = parts.flatten ++ left ∧ List.Forall₂ Portion.Within ps parts ∧ (.rest ∈ ps → left = []) := by
  induction ps generalizing body s with
  | nil => exact ⟨[], body, s, rfl, h, rfl, .nil, by simp⟩
  | cons p ps ih =>
    obtain ⟨front, mid, t, hp, ht, hb, hw, hrest⟩ := readPortion_spec K p h
    obtain ⟨parts, left, u, hps, hu, hm, hws, hall⟩ := ih ht
    refine ⟨front :: parts, left, u, ?_, hu, ?_, .cons hw hws, ?_⟩
    · rw [readPortions, Session.bind_of_ok hp, Session.bind_of_ok hps]
      rfl
    · rw [hb, hm, List.flatten_cons, List.append_assoc]
    · intro hmem
      rcases List.mem_cons.mp hmem with heq | hmem
      · -- everything was given at once: later portions and what is left are empty
        have hnil : parts.flatten ++ left = [] := by rw [← hm, hrest heq.symm]
        exact (List.append_eq_nil_iff.mp hnil).2
      · exact hall hmem

theorem leave_spec (K : Contract A) (skips : Bool) {rest : List Item} {body : Bytes} {s : σ}
    (h : K.place .cpio s = some ⟨rest, some body⟩) :
    ∃ b t, leave A skips s = (.ok (), t) ∧ K.place .cpio t = some ⟨rest, b⟩ := by
  cases skips with
  | false => exact ⟨some body, s, rfl, h⟩
  | true =>
    obtain ⟨t, ha, ht⟩ := K.skip h
    exact ⟨none, t, ha, ht⟩

/-- What a visit gives of an item: its header, and the front of its body, all of it if all of the
    rest was asked for once. -/
structure Gives (v : Visit) (i : Item) (seen : Option Header × List Bytes) : Prop where
  header : seen.1 = some i.header
  front : seen.2.flatten <+: i.body
  whole : .rest ∈ v.portions → seen.2.flatten = i.body
  within : List.Forall₂ Portion.Within v.portions seen.2

theorem visit_spec (K : Contract A) (v : Visit) {i : Item} {rest : List Item} {b : Option Bytes} {s : σ}
    (h : K.place .cpio s = some ⟨i :: rest, b⟩) :
    ∃ seen b' t, visit A v s = (.ok seen, t) ∧ K.place .cpio t = some ⟨rest, b'⟩ ∧ Gives v i seen := by
  obtain ⟨t, hn, ht⟩ := K.next_entry h
  obtain ⟨parts, left, u, hps, hu, hb, hw, hall⟩ := readPortions_spec K v.portions ht
  obtain ⟨b', w, hl, hw'⟩ := leave_spec K v.skips hu
  refine ⟨(some i.header, parts), b', w, ?_, hw', ⟨rfl, ⟨left, hb.symm⟩, ?_, hw⟩⟩
  · rw [visit, Session.bind_of_ok (show next A s = _ from hn), Session.bind_of_ok hps, Session.bind_of_ok hl]
    rfl
  · intro hmem
    rw [hb, hall hmem, List.append_nil]

/-! ## (2) One entry after another -/

/-- Each visit gives what it asked of its own entry, whatever the visits before it left unread. -/
theorem tour_spec (K : Contract A) (vs : List Visit) {items : List Item} (hl : vs.length ≤ items.length)
    {b : Option Bytes} {s : σ} (h : K.place .cpio s = some ⟨items, b⟩) :
    ∃ seen b' t, tour A vs s = (.ok seen, t) ∧ K.place .cpio t = some ⟨items.drop vs.length, b'⟩ ∧
      List.Forall₂ (fun (v, i) x => Gives v i x) (vs.zip items) seen := by
  induction vs generalizing items b s with
  | nil => exact ⟨[], b, s, rfl, h, .nil⟩
  | cons v vs ih =>
    cases items with
    | nil => simp at hl
    | cons i items =>
      obtain ⟨seen, b₁, t, hv, ht, hg⟩ := visit_spec K v h
      obtain ⟨more, b₂, u, hvs, hu, hgs⟩ := ih (by simpa using hl) ht
      refine ⟨seen :: more, b₂, u, ?_, ?_, .cons hg hgs⟩
      · rw [tour, Session.bind_of_ok hv, Session.bind_of_ok hvs]
        rfl
      · simpa using hu

end FlatPackage.Package.Reader
