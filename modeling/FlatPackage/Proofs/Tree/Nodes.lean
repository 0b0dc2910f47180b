/-
  FlatPackage.Proofs.Tree.Nodes — what is at a place, after a change and in a sound tree.

  A tree is looked at through `at?`: what a change did is what it did to the node at each place
  (`at?_set`, `at?_update`, `at?_put`). The tree of a file system is sound (`Sound`): it has a root,
  every node is in a directory and has names that a walk can spell, and no place has two nodes.

  Proved:
  (1) `at?_put`: a node that is put at a place changes the node there and the time of its directory.
  (2) `Sound.put`: a tree stays sound when a node is put into a directory under a possible name, over
      nothing or over what is no directory.
-/

import FlatPackage.Tree.Resolve
import Mathlib.Data.List.Induction

namespace FlatPackage.Tree

/-! ## Looking up -/

theorem lookup_cons_if (q r : Place) (m : Node) (l : List (Place × Node)) :
    List.lookup q ((r, m) :: l) = if q = r then some m else l.lookup q := by
  rw [List.lookup_cons]
  by_cases h : q = r
  · simp [h]
  · rw [beq_eq_false_iff_ne.mpr h, if_neg h]

theorem lookup_replace (p q : Place) (n : Node) (l : List (Place × Node)) :
    (replace p n l).lookup q = if q = p then some n else l.lookup q := by
  induction l with
  | nil => rw [replace, lookup_cons_if]
  | cons x l ih =>
    obtain ⟨r, m⟩ := x
    by_cases hr : r = p
    · subst hr
      rw [replace, if_pos rfl, lookup_cons_if, lookup_cons_if]
      by_cases h : q = r <;> simp [h]
    · rw [replace, if_neg hr, lookup_cons_if, lookup_cons_if, ih]
      by_cases h : q = r
      · subst h
        rw [if_pos rfl, if_neg hr, if_pos rfl]
      · rw [if_neg h, if_neg h]

theorem lookup_map_node (p q : Place) (f : Node → Node) (l : List (Place × Node)) :
    (l.map fun (r, m) => if r = p then (r, f m) else (r, m)).lookup q =
      if q = p then (l.lookup q).map f else l.lookup q := by
  induction l with
  | nil => simp
  | cons x l ih =>
    obtain ⟨r, m⟩ := x
    have hhead : (if r = p then (r, f m) else (r, m)) = (r, if r = p then f m else m) := by split <;> rfl
    rw [List.map_cons]
    dsimp only
    rw [hhead, lookup_cons_if, lookup_cons_if, ih]
    by_cases h : q = r
    · subst h
      by_cases hp : q = p <;> simp [hp]
    · simp [h]

theorem mem_of_lookup {p : Place} {n : Node} {l : List (Place × Node)} (h : l.lookup p = some n) : (p, n) ∈ l := by
  induction l with
  | nil => cases h
  | cons x l ih =>
    obtain ⟨r, m⟩ := x
    rw [lookup_cons_if] at h
    by_cases hr : p = r
    · rw [if_pos hr] at h
      cases h
      exact hr ▸ List.mem_cons_self
    · rw [if_neg hr] at h
      exact List.mem_cons_of_mem _ (ih h)

theorem lookup_of_mem {p : Place} {n : Node} {l : List (Place × Node)} (hu : (l.map Prod.fst).Nodup)
    (hm : (p, n) ∈ l) : l.lookup p = some n := by
  induction l with
  | nil => cases hm
  | cons x l ih =>
    obtain ⟨r, m⟩ := x
    rw [List.map_cons, List.nodup_cons] at hu
    rw [lookup_cons_if]
    rcases List.mem_cons.mp hm with heq | hl
    · cases heq
      exact if_pos rfl
    · have hne : p ≠ r := by
        rintro rfl
        exact hu.1 (List.mem_map.mpr ⟨(p, n), hl, rfl⟩)
      rw [if_neg hne]
      exact ih hu.2 hl

variable {t : Tree} {p q : Place} {n : Node}

theorem mem_of_at? (h : t.at? p = some n) : (p, n) ∈ t.nodes := mem_of_lookup h

theorem isDirectory_iff : t.isDirectory p = true ↔ ∃ n, t.at? p = some n ∧ n.content = .directory := by
  rw [isDirectory, Option.any_eq_true]
  simp

/-! ## (1) Changes -/

theorem at?_set (t : Tree) (p q : Place) (n : Node) : (t.set p n).at? q = if q = p then some n else t.at? q :=
  lookup_replace p q n t.nodes

theorem at?_update (t : Tree) (p q : Place) (f : Node → Node) :
    (t.update p f).at? q = if q = p then (t.at? q).map f else t.at? q :=
  lookup_map_node p q f t.nodes

theorem replace_replace (p : Place) (n m : Node) (l : List (Place × Node)) :
    replace p m (replace p n l) = replace p m l := by
  induction l with
  | nil => simp [replace]
  | cons x l ih =>
    obtain ⟨r, k⟩ := x
    by_cases hr : r = p
    · simp [replace, hr]
    · simp [replace, hr, ih]

theorem set_set (t : Tree) (p : Place) (n m : Node) : (t.set p n).set p m = t.set p m :=
  congrArg Tree.mk (replace_replace p n m t.nodes)

/-- A node that was changed a moment ago: the directory that got a new name, or the node itself. -/
def Node.stamped (now : Int) (n : Node) : Node := { n with mtime := now }

theorem at?_touch (now : Int) (t : Tree) (p q : Place) :
    (touch now t p).at? q = if q = p then (t.at? q).map (Node.stamped now) else t.at? q :=
  at?_update t p q _

/-- A node of the present is put at a place: it is there, the directory that gets a new name is stamped
    with the present, and no other node changes. -/
theorem at?_put {now : Int} (hn : n.mtime = now) (t : Tree) (p q : Place) :
    (t.put now p n).at? q =
      if q = p then some n
      else if q = p.dropLast ∧ t.at? p = none then (t.at? q).map (Node.stamped now)
      else t.at? q := by
  subst hn
  unfold put
  by_cases hp : (t.at? p).isSome
  · have hnone : t.at? p ≠ none := Option.isSome_iff_ne_none.mp hp
    rw [if_pos hp, at?_set]
    simp [hnone]
  · have hnone : t.at? p = none := by simpa using hp
    rw [if_neg hp, at?_touch, at?_set]
    by_cases hq : q = p
    · subst hq
      rw [if_pos rfl, if_pos rfl]
      split <;> rfl
    · simp [hq, hnone]

/-! ## (2) Sound trees -/

/-- A name that a node can have. -/
structure IsName (s : String) : Prop where
  nonempty : s ≠ ""
  noSlash : '/' ∉ s.toList
  notHere : s ≠ "."
  notUp : s ≠ ".."
  short : s.utf8ByteSize ≤ nameLimit

instance (s : String) : Decidable (IsName s) :=
  decidable_of_iff (s ≠ "" ∧ '/' ∉ s.toList ∧ s ≠ "." ∧ s ≠ ".." ∧ s.utf8ByteSize ≤ nameLimit)
    ⟨fun ⟨a, b, c, d, e⟩ => ⟨a, b, c, d, e⟩, fun ⟨a, b, c, d, e⟩ => ⟨a, b, c, d, e⟩⟩

/-- The tree of a file system. The root is its own directory. -/
structure Sound (t : Tree) : Prop where
  root : t.isDirectory [] = true
  parent : ∀ x ∈ t.nodes, t.isDirectory x.1.dropLast = true
  name : ∀ x ∈ t.nodes, ∀ s ∈ x.1, IsName s
  unique : (t.nodes.map Prod.fst).Nodup

instance (t : Tree) : Decidable (Sound t) :=
  decidable_of_iff (t.isDirectory [] = true ∧ (∀ x ∈ t.nodes, t.isDirectory x.1.dropLast = true) ∧
      (∀ x ∈ t.nodes, ∀ s ∈ x.1, IsName s) ∧ (t.nodes.map Prod.fst).Nodup)
    ⟨fun ⟨a, b, c, d⟩ => ⟨a, b, c, d⟩, fun ⟨a, b, c, d⟩ => ⟨a, b, c, d⟩⟩

theorem map_fst_replace (p : Place) (n : Node) (l : List (Place × Node)) :
    (replace p n l).map Prod.fst = if p ∈ l.map Prod.fst then l.map Prod.fst else l.map Prod.fst ++ [p] := by
  induction l with
  | nil => rfl
  | cons x l ih =>
    obtain ⟨r, m⟩ := x
    by_cases hr : r = p
    · simp [replace, hr]
    · have hne : ¬p = r := fun h => hr h.symm
      simp only [replace, if_neg hr, List.map_cons, ih, List.mem_cons, hne, false_or]
      split <;> rfl

theorem mem_replace {x : Place × Node} {l : List (Place × Node)} (h : x ∈ replace p n l) : x = (p, n) ∨ x ∈ l := by
  induction l with
  | nil => exact .inl (List.mem_singleton.mp h)
  | cons y l ih =>
    obtain ⟨r, m⟩ := y
    by_cases hr : r = p
    · rw [replace, if_pos hr] at h
      rcases List.mem_cons.mp h with h | h
      · exact .inl h
      · exact .inr (List.mem_cons_of_mem _ h)
    · rw [replace, if_neg hr] at h
      rcases List.mem_cons.mp h with h | h
      · exact .inr (h ▸ List.mem_cons_self)
      · exact (ih h).imp_right (List.mem_cons_of_mem _)

namespace Sound

theorem at?_of_mem (h : t.Sound) (hm : (p, n) ∈ t.nodes) : t.at? p = some n := lookup_of_mem h.unique hm

theorem isDirectory_dropLast (h : t.Sound) (hn : t.at? p = some n) : t.isDirectory p.dropLast = true :=
  h.parent _ (mem_of_at? hn)

theorem isName (h : t.Sound) (hn : t.at? p = some n) : ∀ s ∈ p, IsName s := h.name _ (mem_of_at? hn)

/-- What is above a directory is a directory. -/
theorem isDirectory_up (h : t.Sound) (hp : t.isDirectory p = true) : t.isDirectory p.dropLast = true := by
  obtain ⟨n, hn, -⟩ := isDirectory_iff.mp hp
  exact h.isDirectory_dropLast hn

/-- Above a node there are directories. -/
theorem isDirectory_of_append (h : t.Sound) (hn : t.at? (p ++ q) = some n) (hq : q ≠ []) :
    t.isDirectory p = true := by
  induction q using List.reverseRecOn generalizing n with
  | nil => exact absurd rfl hq
  | append_singleton q name ih =>
    have hd := h.isDirectory_dropLast hn
    rw [← List.append_assoc, List.dropLast_concat] at hd
    by_cases hnil : q = []
    · rwa [hnil, List.append_nil] at hd
    · obtain ⟨m, hm, -⟩ := isDirectory_iff.mp hd
      exact ih hm hnil

/-- Where nothing is, nothing is below. -/
theorem at?_below_free (h : t.Sound) (hfree : t.at? p = none) (name : String) : t.at? (p ++ [name]) = none := by
  cases hat : t.at? (p ++ [name]) with
  | none => rfl
  | some n =>
    obtain ⟨d, hd, -⟩ := isDirectory_iff.mp (h.isDirectory_of_append hat (by simp))
    rw [hfree] at hd
    cases hd

/-- Whatever happens to the nodes' times and contents, a tree stays sound while its places and
    directories stay. -/
theorem of_same_places {t' : Tree} (h : t.Sound) (hp : t'.nodes.map Prod.fst = t.nodes.map Prod.fst)
    (hd : ∀ q, t.isDirectory q = true → t'.isDirectory q = true) : t'.Sound where
  root := hd _ h.root
  parent x hx := by
    have hm : x.1 ∈ t.nodes.map Prod.fst := hp ▸ List.mem_map_of_mem hx
    obtain ⟨y, hy, he⟩ := List.mem_map.mp hm
    exact hd _ (he ▸ h.parent y hy)
  name x hx := by
    have hm : x.1 ∈ t.nodes.map Prod.fst := hp ▸ List.mem_map_of_mem hx
    obtain ⟨y, hy, he⟩ := List.mem_map.mp hm
    exact he ▸ h.name y hy
  unique := hp ▸ h.unique

theorem touch (h : t.Sound) (now : Int) (p : Place) : (touch now t p).Sound := by
  apply h.of_same_places
  · simp only [Tree.touch, update, List.map_map]
    apply List.map_congr_left
    intro x _
    show (if x.1 = p then _ else _ : Place × Node).1 = x.1
    split <;> rfl
  · intro q hq
    obtain ⟨n, hn, hc⟩ := isDirectory_iff.mp hq
    apply isDirectory_iff.mpr
    rw [at?_touch]
    by_cases h : q = p
    · exact ⟨n.stamped now, by rw [if_pos h, hn]; rfl, hc⟩
    · exact ⟨n, by rw [if_neg h, hn], hc⟩

/-- A node goes into a directory under possible names, and does not take a directory's place unless
    it is one. -/
theorem set (h : t.Sound) (hp : t.isDirectory p.dropLast = true) (hs : ∀ s ∈ p, IsName s)
    (hover : t.isDirectory p = true → n.content = .directory) : (t.set p n).Sound := by
  have hd : ∀ q, t.isDirectory q = true → (t.set p n).isDirectory q = true := by
    intro q hq
    apply isDirectory_iff.mpr
    rw [at?_set]
    by_cases he : q = p
    · exact ⟨n, if_pos he, hover (he ▸ hq)⟩
    · rw [if_neg he]
      exact isDirectory_iff.mp hq
  refine ⟨hd _ h.root, fun x hx => ?_, fun x hx => ?_, ?_⟩
  · rcases mem_replace hx with rfl | hx
    · exact hd _ hp
    · exact hd _ (h.parent x hx)
  · rcases mem_replace hx with rfl | hx
    · exact hs
    · exact h.name x hx
  · show ((replace p n t.nodes).map Prod.fst).Nodup
    rw [map_fst_replace]
    split
    · exact h.unique
    · rename_i hnew
      refine List.nodup_append.mpr ⟨h.unique, by simp, fun a ha b hb => ?_⟩
      rw [List.mem_singleton.mp hb]
      rintro rfl
      exact hnew ha

theorem put (h : t.Sound) (now : Int) (hp : t.isDirectory p.dropLast = true) (hs : ∀ s ∈ p, IsName s)
    (hover : t.isDirectory p = true → n.content = .directory) : (t.put now p n).Sound := by
  unfold Tree.put
  split
  · exact h.set hp hs hover
  · exact (h.set hp hs hover).touch now p.dropLast

end Sound

end FlatPackage.Tree
