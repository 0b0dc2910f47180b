/-
  FlatPackage.Proofs.Tree.Retracing — going up in a text and going up in the tree.

  A path's normal form is made from its steps one by one, and a walk takes the same steps in the
  tree. As long as the names so far lead to where the walk is (`Reached`), a name does the same to
  both. At a `..` the walk goes to the directory above, and the normal form takes its last name
  away. That name may be a link to a directory elsewhere, so the two stay together only if the
  names go back (`GoesBack`). The normal form takes no link that the walk does not take.

  Proved:
  (1) `retraces_concat`, `retraces_of_no_up`: steps retrace one by one, and those that never go up retrace.
  (2) `Reached.add`, `Reached.foldl`: one step, and many, that retrace.
  (3) `Reached.walks`: a walk in normal form ends where the walk itself ends.
  (4) `Reached.astray`: where the names do not go back they then lead to another directory.
-/

import FlatPackage.Proofs.Path.NormalForm
import FlatPackage.Proofs.Tree.Walk

namespace FlatPackage.Tree

open FlatPackage.Path (Absolute IsDots)

variable {t : Tree} {follow : Bool} {k links links' : Nat} {dir d e : Place} {ns l : List String} {x : String} {p : Absolute}
  {spot : Spot}

/-! ## (1) Names that go back -/

/-- Where names lead from the root. -/
def leads (t : Tree) (ns : List String) : Option Place := (t.walk true linkLimit [] ns).toOption.map Spot.place

theorem leads_eq_some_iff : t.leads ns = some d ↔ ∃ k, k ≤ linkLimit ∧ Walks t true k [] ns ⟨d, t.at? d⟩ := by
  rw [← walk_eq_ok_iff, leads]
  constructor
  · intro h
    cases hw : t.walk true linkLimit [] ns with
    | error why =>
      rw [hw] at h
      cases h
    | ok spot =>
      obtain ⟨k, -, hwalks⟩ := walk_eq_ok_iff.mp hw
      obtain ⟨q, node⟩ := spot
      obtain rfl : node = t.at? q := hwalks.node_eq
      rw [hw] at h
      cases h
      rfl
  · intro h
    rw [h]
    rfl

/-- Without the last one the names lead to the directory above. -/
def GoesBack (t : Tree) (ns : List String) : Prop := t.leads ns.dropLast = (t.leads ns).map List.dropLast

instance (t : Tree) (ns : List String) : Decidable (t.GoesBack ns) := inferInstanceAs (Decidable (_ = _))

/-- Wherever the steps go up, the names so far go back. -/
def Retraces (t : Tree) : Absolute → List String → Prop
  | _, [] => True
  | p, x :: rest => (x = ".." → t.GoesBack p.names) ∧ Retraces t (p.add x) rest

instance decidableRetraces (t : Tree) : ∀ (p : Absolute) (l : List String), Decidable (t.Retraces p l)
  | _, [] => inferInstanceAs (Decidable True)
  | p, x :: rest =>
    have := decidableRetraces t (p.add x) rest
    inferInstanceAs (Decidable ((x = ".." → t.GoesBack p.names) ∧ t.Retraces (p.add x) rest))

theorem retraces_concat : t.Retraces p (l ++ [x]) ↔
    t.Retraces p l ∧ (x = ".." → t.GoesBack (l.foldl Absolute.add p).names) := by
  induction l generalizing p with
  | nil => simp [Retraces]
  | cons y l ih =>
    rw [List.cons_append, Retraces, Retraces, ih, List.foldl_cons]
    exact and_assoc.symm

theorem retraces_of_no_up (hup : ".." ∉ l) : t.Retraces p l := by
  induction l generalizing p with
  | nil => trivial
  | cons x l ih =>
    exact ⟨fun hx => absurd List.mem_cons_self (hx ▸ hup), ih fun hm => hup (List.mem_cons_of_mem _ hm)⟩

/-! ## (2) Steps -/

/-- The names lead to a directory, through so many links at most. -/
structure Reached (t : Tree) (links : Nat) (p : Absolute) (dir : Place) : Prop where
  walked : ∃ k, k ≤ links ∧ Walks t true k [] p.names ⟨dir, t.at? dir⟩
  directory : t.isDirectory dir = true

namespace Reached

theorem mono (h : Reached t links p dir) (hle : links ≤ links') : Reached t links' p dir := by
  obtain ⟨k, hk, hw⟩ := h.walked
  exact ⟨⟨k, Nat.le_trans hk hle, hw⟩, h.directory⟩

theorem leads_eq (h : Reached t links p dir) (hlinks : links ≤ linkLimit) : t.leads p.names = some dir := by
  obtain ⟨k, hk, hw⟩ := h.walked
  exact leads_eq_some_iff.mpr ⟨k, Nat.le_trans hk hlinks, hw⟩

/-- Without the last one the names still lead to a directory, but it may be any. -/
theorem up (ht : t.Sound) (h : Reached t links p dir) : ∃ e, Reached t links ⟨p.names.dropLast, true⟩ e := by
  by_cases hnil : p.names = []
  · refine ⟨dir, ?_, h.directory⟩
    have hw := h.walked
    rw [hnil] at hw ⊢
    exact hw
  · obtain ⟨k, hk, hw⟩ := h.walked
    rw [← List.dropLast_append_getLast hnil] at hw
    obtain ⟨k₁, k₂, e, hsum, hw₁, he, -⟩ := (walks_append_iff ht ht.root (by simp)).mp hw
    exact ⟨e, ⟨k₁, by omega, hw₁⟩, he⟩

/-- A step to a directory that goes back, if it goes up, leaves the names leading to that directory. -/
theorem add (ht : t.Sound) (h : Reached t links p dir) (hlinks : links ≤ linkLimit) (hx : x ≠ "")
    (hback : x = ".." → t.GoesBack p.names) (hw : Walks t true k dir [x] ⟨d, t.at? d⟩) (hd : t.isDirectory d = true) :
    Reached t (links + k) (p.add x) d := by
  by_cases hhere : x = "."
  · subst hhere
    have hsame : d = dir := congrArg Spot.place hw.of_here.of_nil
    rw [hsame, Absolute.add_here]
    exact (⟨h.walked, h.directory⟩ : Reached t links ⟨p.names, true⟩ dir).mono (Nat.le_add_right _ _)
  by_cases hup : x = ".."
  · subst hup
    have hdrop : d = dir.dropLast := congrArg Spot.place hw.of_up.of_nil
    obtain ⟨e, he⟩ := h.up ht
    have hsame : some e = some dir.dropLast := by
      rw [← he.leads_eq hlinks, hback rfl, h.leads_eq hlinks]
      rfl
    rw [hdrop, Absolute.add_up, ← Option.some.inj hsame]
    exact he.mono (Nat.le_add_right _ _)
  · obtain ⟨k', hk', hwalked⟩ := h.walked
    rw [p.add_name hx fun hdots => hdots.elim hhere hup]
    exact ⟨⟨k' + k, by omega, hwalked.append rfl h.directory (by simp) hw⟩, hd⟩

/-- The same of many steps. -/
theorem foldl (ht : t.Sound) (h : Reached t links p dir) (hlinks : links + k ≤ linkLimit) (hl : ∀ x ∈ l, x ≠ "")
    (hr : t.Retraces p l) (hw : Walks t true k dir l ⟨d, t.at? d⟩) (hd : t.isDirectory d = true) :
    Reached t (links + k) (l.foldl Absolute.add p) d := by
  induction l using List.reverseRecOn generalizing k d with
  | nil =>
    have hsame : d = dir := congrArg Spot.place hw.of_nil
    rw [hsame]
    exact h.mono (Nat.le_add_right _ _)
  | append_singleton l x ih =>
    obtain ⟨hr, hback⟩ := retraces_concat.mp hr
    obtain ⟨k₁, k₂, d₁, hsum, hw₁, hd₁, hw₂⟩ := (walks_append_iff ht h.directory (by simp)).mp hw
    have hfront := ih (by omega) (fun y hy => hl y (List.mem_append_left _ hy)) hr hw₁ hd₁
    rw [List.foldl_concat, ← hsum, ← Nat.add_assoc]
    exact hfront.add ht (by omega) (hl x (by simp)) hback hw₂ hd

/-! ## (3) Whole ways -/

/-- A normal form whose text goes on is walked to the directory that its names lead to. -/
theorem walks_slashed (h : Reached t links p dir) (hp : p.slashed = true) (follow : Bool) :
    ∃ k, k ≤ links ∧ Walks t follow k [] p.steps ⟨dir, t.at? dir⟩ := by
  obtain ⟨k, hk, hw⟩ := h.walked
  refine ⟨k + 0, hk, ?_⟩
  rw [Absolute.steps, if_pos hp]
  exact hw.append rfl h.directory (by simp) (.here .done)

/-- Over steps that retrace a walk ends where it ends over their normal form. Only the last step may lead to
    no directory, and it is then the last name. -/
theorem walks (ht : t.Sound) (h : Reached t links p dir) (hlinks : links + k ≤ linkLimit) (hne : l ≠ [])
    (hl : ∀ x ∈ l, x ≠ "") (hr : t.Retraces p l) (hw : Walks t follow k dir l spot) :
    ∃ k', k' ≤ links + k ∧ Walks t follow k' [] (l.foldl Absolute.add p).steps spot := by
  obtain ⟨l, x, rfl⟩ := (List.eq_nil_or_concat' l).resolve_left hne
  obtain ⟨hr, hback⟩ := retraces_concat.mp hr
  obtain ⟨k₁, k₂, d, hsum, hw₁, hd, hw₂⟩ := (walks_append_iff ht h.directory (by simp)).mp hw
  have hfront := h.foldl ht (by omega) (fun y hy => hl y (List.mem_append_left _ hy)) hr hw₁ hd
  have hx : x ≠ "" := hl x (by simp)
  rw [List.foldl_concat, ← hsum, ← Nat.add_assoc]
  by_cases hdots : IsDots x
  · obtain ⟨hend, hdotted⟩ := hw₂.of_dots hdots ht hd
    have hspot : spot = ⟨spot.place, t.at? spot.place⟩ := by rw [← hw₂.node_eq]
    have hlast := hdotted true
    rw [hspot] at hlast ⊢
    exact (hfront.add ht (by omega) hx hback hlast hend).walks_slashed (Absolute.slashed_add _ hdots) follow
  · obtain ⟨k', hk', hwalked⟩ := hfront.walked
    rw [Absolute.add_name _ hx hdots]
    exact ⟨k' + k₂, by omega, hwalked.append rfl hd (by simp) hw₂⟩

/-! ## (4) Going astray -/

/-- Names that do not go back lead, without the last one, to a directory that is not the one above. -/
theorem astray (ht : t.Sound) (h : Reached t links p dir) (hlinks : links ≤ linkLimit) (hback : ¬t.GoesBack p.names) :
    ∃ e, e ≠ dir.dropLast ∧ Reached t links (p.add "..") e := by
  obtain ⟨e, he⟩ := h.up ht
  have hleads := he.leads_eq hlinks
  rw [Absolute.add_up]
  refine ⟨e, fun hsame => hback ?_, he⟩
  rw [hsame] at hleads
  rw [GoesBack, h.leads_eq hlinks]
  exact hleads

end Reached

end FlatPackage.Tree
