/-
  FlatPackage.Proofs.Path.NormalForm — the text of a place, and the normal form of a text.

  A place that nodes can have is written as one text and read back from it (`names_joined`,
  `ofText_text`). A text without `..` keeps in its normal form the names that it has, less those
  that stay where they are; a relative one has the names of its place in front.

  Proved:
  (1) `joined_inj`: names that are joined by slashes can be told apart again.
  (2) `absolute_text`: the text of a place is in normal form.
  (3) `absolute_eq_foldl`: the normal form of a text, from its steps.
  (4) `closed_absolute`: the normal form of a text without `..`.
-/

import FlatPackage.Proofs.Path.Steps
import FlatPackage.Proofs.Tree.Nodes

namespace FlatPackage

theorem Tree.IsName.not_dots {x : String} (h : Tree.IsName x) : ¬Path.IsDots x := fun hx => hx.elim h.notHere h.notUp

namespace Path

open FlatPackage.Tree (IsName)

variable {ns rel : List String} {s : String}

/-! ## (1) Joined names -/

/-- The text of names one below the other. -/
def joined (ns : List String) : String := "/".intercalate ns

theorem toList_joined_cons {x : String} (hne : ns ≠ []) :
    (joined (x :: ns)).toList = x.toList ++ '/' :: (joined ns).toList := by
  rw [joined, String.intercalate_cons_of_ne_nil hne]
  simp [joined]

theorem pieces_joined (hne : ns ≠ []) (h : ∀ x ∈ ns, '/' ∉ x.toList) :
    pieces (joined ns).toList = ns.map String.toList := by
  induction ns with
  | nil => exact absurd rfl hne
  | cons x ns ih =>
    have hx := pieces_of_not_mem (h x List.mem_cons_self)
    by_cases hnil : ns = []
    · subst hnil
      simpa [joined] using hx
    · rw [toList_joined_cons hnil, pieces_append_slash, hx, ih hnil fun y hy => h y (List.mem_cons_of_mem _ hy)]
      rfl

theorem names_joined (h : ∀ x ∈ ns, IsName x) : names (joined ns).toList = ns := by
  by_cases hne : ns = []
  · subst hne
    rfl
  · rw [names, pieces_joined hne fun x hx => (h x hx).noSlash, List.filter_eq_self.mpr]
    · simp [Function.comp_def]
    · intro p hp
      obtain ⟨x, hx, rfl⟩ := List.mem_map.mp hp
      simpa using (h x hx).nonempty

theorem joined_inj (h : ∀ x ∈ ns, IsName x) (hr : ∀ x ∈ rel, IsName x) (he : joined ns = joined rel) : ns = rel := by
  rw [← names_joined h, he, names_joined hr]

theorem joined_ne_empty (hne : ns ≠ []) (h : ∀ x ∈ ns, IsName x) : joined ns ≠ "" := by
  intro he
  have hnames := names_joined h
  rw [he] at hnames
  exact hne hnames.symm

/-- The last character is that of the last name. -/
theorem endsInSlash_joined (h : ∀ x ∈ ns, IsName x) : endsInSlash (joined ns) = false := by
  induction ns with
  | nil => rfl
  | cons x ns ih =>
    by_cases hnil : ns = []
    · subst hnil
      have hx := (h x List.mem_cons_self).noSlash
      rw [endsInSlash, joined, String.intercalate_singleton, beq_eq_false_iff_ne]
      exact fun hl => hx (List.mem_of_getLast? hl)
    · have hrest := ih fun y hy => h y (List.mem_cons_of_mem _ hy)
      have hne : (joined ns).toList ≠ [] := fun he =>
        joined_ne_empty hnil (fun y hy => h y (List.mem_cons_of_mem _ hy)) (String.toList_inj.mp he)
      rw [endsInSlash, toList_joined_cons hnil, List.getLast?_append_cons, List.getLast?_cons_of_ne_nil hne]
      exact hrest

/-! ## (2) The text of a place -/

theorem text_ofPlace (ns : List String) : (Absolute.ofPlace ns).text = "/" ++ joined ns := by
  simp [Absolute.text, Absolute.ofPlace, joined]

theorem toList_text (ns : List String) : (Absolute.ofPlace ns).text.toList = '/' :: (joined ns).toList := by
  rw [text_ofPlace]
  simp

theorem names_text (h : ∀ x ∈ ns, IsName x) : names (Absolute.ofPlace ns).text.toList = ns := by
  have hcut := names_append_slash [] (joined ns).toList
  rw [List.nil_append] at hcut
  rw [toList_text, hcut, names_joined h]
  rfl

theorem endsInSlash_text (hne : ns ≠ []) (h : ∀ x ∈ ns, IsName x) : endsInSlash (Absolute.ofPlace ns).text = false := by
  have hj : (joined ns).toList ≠ [] := fun he => joined_ne_empty hne h (String.toList_inj.mp he)
  rw [endsInSlash, toList_text, List.getLast?_cons_of_ne_nil hj]
  exact endsInSlash_joined h

theorem steps_text (hne : ns ≠ []) (h : ∀ x ∈ ns, IsName x) : steps (Absolute.ofPlace ns).text = ns := by
  rw [steps_eq, names_text h, endsInSlash_text hne h]
  simp

namespace Absolute

theorem exists_toList_text (p : Absolute) : ∃ r, p.text.toList = '/' :: r := by
  rw [text, String.toList_append, String.toList_append]
  exact ⟨_, rfl⟩

theorem isRooted_text (p : Absolute) : isRooted p.text = true := by
  obtain ⟨r, hr⟩ := p.exists_toList_text
  rw [isRooted, hr]
  rfl

theorem text_ne_empty (p : Absolute) : p.text ≠ "" := by
  intro he
  obtain ⟨r, hr⟩ := p.exists_toList_text
  rw [he] at hr
  cases hr

theorem add_here (p : Absolute) : p.add "." = ⟨p.names, true⟩ := if_pos (.inr rfl)

theorem add_up (p : Absolute) : p.add ".." = ⟨p.names.dropLast, true⟩ := by rw [add, if_neg (by decide), if_pos rfl]

/-- A name goes behind the others. -/
theorem add_name (p : Absolute) {x : String} (hne : x ≠ "") (hx : ¬IsDots x) : p.add x = ⟨p.names ++ [x], false⟩ := by
  rw [IsDots, not_or] at hx
  rw [add, if_neg (not_or.mpr ⟨hne, hx.1⟩), if_neg hx.2]

theorem slashed_add (p : Absolute) {x : String} (hx : IsDots x) : (p.add x).slashed = true := by
  rcases hx with rfl | rfl
  · rw [add_here]
  · rw [add_up]

/-- What a file system walks over a normal form. -/
def steps (p : Absolute) : List String := if p.slashed then p.names ++ ["."] else p.names

end Absolute

/-- A normal form is walked by its names, and stays at the end where its text goes on. -/
theorem steps_text_absolute {p : Absolute} (hne : p.names ≠ []) (h : ∀ x ∈ p.names, IsName x) : steps p.text = p.steps := by
  obtain ⟨ns, slashed⟩ := p
  cases slashed with
  | false => exact steps_text hne h
  | true =>
    have htext : (⟨ns, true⟩ : Absolute).text = (Absolute.ofPlace ns).text ++ "/" := by
      rw [text_ofPlace, Absolute.text, if_pos ⟨rfl, hne⟩, joined]
    have hlist : ((Absolute.ofPlace ns).text ++ "/").toList = (Absolute.ofPlace ns).text.toList ++ ['/'] := by simp
    have hend : endsInSlash ((Absolute.ofPlace ns).text ++ "/") = true := by
      rw [endsInSlash, hlist, List.getLast?_concat]
      rfl
    rw [htext, steps_eq, hend, hlist, names_append_slash, names_text h]
    simp [names, pieces, Absolute.steps]

theorem below_text (hr : rel ≠ []) (h : ∀ x ∈ ns, IsName x) :
    below (Absolute.ofPlace ns).text (joined rel) = (Absolute.ofPlace (ns ++ rel)).text := by
  by_cases hne : ns = []
  · subst hne
    rw [text_ofPlace, text_ofPlace]
    rfl
  · rw [below, endsInSlash_text hne h, text_ofPlace, text_ofPlace, joined, joined, joined,
      String.intercalate_append_of_ne_nil hne hr]
    simp [String.append_assoc]

/-- The text of a name below another text has the names of both, with or without a slash between. -/
theorem names_below (s name : String) : names (below s name).toList = names s.toList ++ names name.toList := by
  rw [below]
  split
  · rename_i hend
    obtain ⟨a, ha⟩ := List.getLast?_eq_some_iff.mp (beq_iff_eq.mp hend)
    have hs := names_append_slash a []
    rw [show names [] = [] from rfl, List.append_nil] at hs
    rw [String.toList_append, ha, List.append_assoc, List.singleton_append, names_append_slash, hs]
  · rw [String.toList_append, String.toList_append, List.append_assoc]
    exact names_append_slash s.toList name.toList

theorem below_ne_empty (s : String) {name : String} (hn : name ≠ "") : below s name ≠ "" := by
  rw [below]
  split <;> simp [hn]

theorem isRooted_below (hs : s ≠ "") (name : String) : isRooted (below s name) = isRooted s := by
  have hne : s.toList ≠ [] := fun he => hs (String.toList_inj.mp he)
  rw [below, isRooted, isRooted]
  split <;> simp only [String.toList_append, List.append_assoc, List.head?_append_of_ne_nil _ hne]

theorem endsInSlash_below (s : String) {name : String} (hn : name ≠ "") :
    endsInSlash (below s name) = endsInSlash name := by
  have hne : name.toList ≠ [] := fun he => hn (String.toList_inj.mp he)
  rw [below]
  split <;> simp only [endsInSlash, String.toList_append, List.getLast?_append_of_ne_nil _ hne]

/-- What is walked to names below a text is the text's own names, and then those. -/
theorem steps_below (s : String) (hne : rel ≠ []) (h : ∀ x ∈ rel, IsName x) :
    steps (below s (joined rel)) = names s.toList ++ rel := by
  rw [steps_eq, names_below, names_joined h, endsInSlash_below s (joined_ne_empty hne h), endsInSlash_joined h]
  simp

theorem foldl_add_names (h : ∀ x ∈ ns, IsName x) (p : Absolute) :
    ns.foldl Absolute.add p = ⟨p.names ++ ns, p.slashed && ns.isEmpty⟩ := by
  induction ns generalizing p with
  | nil => simp
  | cons x ns ih =>
    have hx := h x List.mem_cons_self
    rw [List.foldl_cons, p.add_name hx.nonempty hx.not_dots, ih fun y hy => h y (List.mem_cons_of_mem _ hy)]
    simp

/-- The text of a place other than the root is in normal form. -/
theorem absolute_text (here : Place) (hne : ns ≠ []) (h : ∀ x ∈ ns, IsName x) :
    absolute here (Absolute.ofPlace ns).text = Absolute.ofPlace ns := by
  have hpieces : pieces ('/' :: (joined ns).toList) = [] :: ns.map String.toList := by
    rw [pieces, if_pos rfl, pieces_joined hne fun x hx => (h x hx).noSlash]
  rw [absolute, if_pos (Absolute.isRooted_text _), Absolute.ofText, toList_text, hpieces]
  have hback : (ns.map String.toList).map String.ofList = ns := by simp [Function.comp_def]
  rw [List.tail_cons, hback, foldl_add_names h]
  simp [Absolute.ofPlace]

/-! ## (3) Step by step -/

/-- A piece does the same to two normal forms with the same names. -/
theorem add_congr {p q : Absolute} (h : p.names = q.names) (x : String) : p.add x = q.add x := by
  simp only [Absolute.add, h]

theorem add_empty (p : Absolute) : p.add (String.ofList []) = p.add "." := by simp [Absolute.add]

theorem names_foldl_congr {p q : Absolute} (h : p.names = q.names) (l : List String) :
    (l.foldl Absolute.add p).names = (l.foldl Absolute.add q).names := by
  cases l with
  | nil => exact h
  | cons x l => rw [List.foldl_cons, List.foldl_cons, add_congr h]

theorem foldl_congr {p q : Absolute} (h : p.names = q.names) {l : List String} (hl : l ≠ []) :
    l.foldl Absolute.add p = l.foldl Absolute.add q := by
  cases l with
  | nil => exact absurd rfl hl
  | cons x l => rw [List.foldl_cons, List.foldl_cons, add_congr h]

/-- Empty pieces leave the names as they are. -/
theorem names_foldl_filter (l : List (List Char)) (p : Absolute) :
    (((l.filter (!·.isEmpty)).map String.ofList).foldl Absolute.add p).names =
      ((l.map String.ofList).foldl Absolute.add p).names := by
  induction l generalizing p with
  | nil => rfl
  | cons c l ih =>
    cases c with
    | nil =>
      have hstays : p.names = (p.add (String.ofList [])).names := rfl
      rw [List.filter_cons_of_neg (by simp), ih, List.map_cons, List.foldl_cons]
      exact names_foldl_congr hstays _
    | cons x c =>
      rw [List.filter_cons_of_pos (by simp), List.map_cons, List.map_cons, List.foldl_cons, List.foldl_cons, ih]

/-- Pieces and steps come to the same normal form. -/
theorem foldl_pieces (hs : s ≠ "") (p : Absolute) :
    ((pieces s.toList).map String.ofList).foldl Absolute.add p = (steps s).foldl Absolute.add p := by
  obtain ⟨ps, last, hp⟩ := exists_pieces s
  rw [steps_of_pieces hs hp, hp, List.map_append, List.foldl_append, List.foldl_append, List.map_singleton,
    List.foldl_cons, List.foldl_nil, List.foldl_cons, List.foldl_nil]
  by_cases hlast : last = []
  · rw [hlast, if_pos rfl, add_empty]
    exact add_congr (names_foldl_filter ps p).symm "."
  · rw [if_neg hlast]
    exact add_congr (names_foldl_filter ps p).symm _

/-- The normal form of a text comes from its steps, one after the other from where it starts. -/
theorem absolute_eq_foldl {here : Place} (hhere : ∀ x ∈ here, IsName x) (hs : s ≠ "") :
    absolute here s = (steps s).foldl Absolute.add (Absolute.ofPlace (Tree.origin here s)) := by
  rw [← foldl_pieces hs, absolute, Tree.origin]
  have hne : (pieces s.toList).map String.ofList ≠ [] := by simp [pieces_ne_nil]
  by_cases hr : isRooted s = true
  · obtain ⟨r, hlist⟩ : ∃ r, s.toList = '/' :: r := by
      cases hl : s.toList with
      | nil => simp [isRooted, hl] at hr
      | cons c r =>
        obtain rfl : c = '/' := by simpa [isRooted, hl] using hr
        exact ⟨r, rfl⟩
    have hpieces : pieces s.toList = [] :: pieces r := by rw [hlist, pieces, if_pos rfl]
    have hrest : (pieces r).map String.ofList ≠ [] := by simp [pieces_ne_nil]
    rw [if_pos hr, if_pos hr, Absolute.ofText, hpieces, List.tail_cons, List.map_cons, List.foldl_cons]
    have hstart : (⟨[], false⟩ : Absolute).names = ((Absolute.ofPlace []).add (String.ofList [])).names := by
      simp [Absolute.add, Absolute.ofPlace]
    exact foldl_congr hstart hrest
  · have hlist : ((Absolute.ofPlace here).text ++ "/" ++ s).toList = ('/' :: (joined here).toList) ++ '/' :: s.toList := by
      rw [String.toList_append, String.toList_append, toList_text]
      simp
    have hpieces : pieces ((Absolute.ofPlace here).text ++ "/" ++ s).toList =
        [] :: (pieces (joined here).toList ++ pieces s.toList) := by
      rw [hlist, pieces_append_slash, pieces, if_pos rfl, List.cons_append]
    have hnames : (((pieces (joined here).toList).map String.ofList).foldl Absolute.add ⟨[], false⟩).names = here := by
      rw [← names_foldl_filter, ← names, names_joined hhere, foldl_add_names hhere]
      rfl
    rw [if_neg hr, if_neg hr, Absolute.ofText, hpieces, List.tail_cons, List.map_append, List.foldl_append]
    exact foldl_congr hnames hne

/-- The names of a normal form are those that steps look up. -/
theorem isName_foldl {l : List String} (hl : ∀ x ∈ l, x = "." ∨ x = ".." ∨ IsName x) {p : Absolute}
    (hp : ∀ x ∈ p.names, IsName x) : ∀ x ∈ (l.foldl Absolute.add p).names, IsName x := by
  induction l generalizing p with
  | nil => exact hp
  | cons x l ih =>
    refine ih (fun y hy => hl y (List.mem_cons_of_mem _ hy)) fun y hy => ?_
    rcases hl x List.mem_cons_self with rfl | rfl | hx
    · exact hp y hy
    · exact hp y (List.dropLast_subset _ hy)
    · rw [p.add_name hx.nonempty hx.not_dots] at hy
      rcases List.mem_append.mp hy with hy | hy
      · exact hp y hy
      · rwa [List.mem_singleton.mp hy]

/-! ## (4) Texts without `..` -/

/-- The names of a text that lead on. -/
def plain (s : List Char) : List String := (names s).filter (· ≠ ".")

theorem filter_steps (s : String) : (steps s).filter (· ≠ ".") = plain s.toList := by
  rw [steps_eq, List.filter_append, plain]
  split <;> simp

theorem names_foldl_add {l : List String} (hne : "" ∉ l) (hup : ".." ∉ l) (p : Absolute) :
    (l.foldl Absolute.add p).names = p.names ++ l.filter (· ≠ ".") := by
  induction l generalizing p with
  | nil => simp
  | cons x l ih =>
    have hx : x ≠ "" := fun he => hne (he ▸ List.mem_cons_self)
    have hx' : x ≠ ".." := fun he => hup (he ▸ List.mem_cons_self)
    rw [List.foldl_cons, ih (fun hm => hne (List.mem_cons_of_mem _ hm)) fun hm => hup (List.mem_cons_of_mem _ hm)]
    by_cases hhere : x = "."
    · subst hhere
      rw [Absolute.add_here, List.filter_cons_of_neg (by simp)]
    · rw [p.add_name hx fun hdots => hdots.elim hhere hx', List.filter_cons_of_pos (by simpa using hhere)]
      simp

/-- A text without `..` has in normal form the names of where it starts and then those that lead on. -/
theorem closed_absolute {here : Place} (hhere : ∀ x ∈ here, IsName x) (hs : s ≠ "") (hup : ".." ∉ steps s) :
    (absolute here s).closed = Absolute.ofPlace (Tree.origin here s ++ plain s.toList) := by
  have hne : "" ∉ steps s := fun hm => (isStep_of_mem_steps hm).nonempty rfl
  have hnames := names_foldl_add hne hup (Absolute.ofPlace (Tree.origin here s))
  rw [filter_steps] at hnames
  rw [absolute_eq_foldl hhere hs]
  exact congrArg Absolute.ofPlace hnames

end Path

end FlatPackage
