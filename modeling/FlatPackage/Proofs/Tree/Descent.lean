/-
  FlatPackage.Proofs.Tree.Descent — what is found going down from a directory.

  What is below a directory is what can be reached from it by entering directories, and directories
  only (`Under`). In a sound tree every node at a place below is reached so, and going down finds
  each of them once. In which order depends on how the tree enumerates its nodes; which ones does not.

  Proved:
  (1) `under_iff`: the nodes below a directory are those at the places below it.
  (2) `mem_descend_iff`, `pairwise_descend`: going down finds every node below, and none twice.
  (3) `Sound.of_perm`, `walk_congr`: what is at a place, and where a walk leads, does not depend on the
      enumeration. The nodes at the places below are those that going down finds (`below_perm_descend`).
-/

import FlatPackage.Proofs.Tree.Nodes
import Mathlib.Data.List.Basic
import Mathlib.Data.List.Nodup

namespace FlatPackage.Tree

variable {t t' : Tree} {dir p q : Place} {n m : Node} {levels : Nat} {x y : Place × Node}

/-! ## (1) Below a directory -/

/-- The nodes that are reached from a directory by entering directories. A link is reached and not
    entered. -/
inductive Under (t : Tree) (dir : Place) : Place → Node → Prop
  | child (name : String) {n : Node} : t.at? (dir ++ [name]) = some n → Under t dir (dir ++ [name]) n
  | deeper {p : Place} {d : Node} (name : String) {n : Node} : Under t dir p d → d.content = .directory →
      t.at? (p ++ [name]) = some n → Under t dir (p ++ [name]) n

theorem Under.at? (h : Under t dir p n) : t.at? p = some n := by
  cases h with
  | child name hn => exact hn
  | deeper name _ _ hn => exact hn

theorem Under.exists_append (h : Under t dir p n) : ∃ rel, rel ≠ [] ∧ p = dir ++ rel := by
  induction h with
  | child name _ => exact ⟨[name], by simp, rfl⟩
  | deeper name _ _ _ ih =>
    obtain ⟨rel, -, rfl⟩ := ih
    exact ⟨rel ++ [name], by simp, by rw [List.append_assoc]⟩

theorem under_iff (ht : t.Sound) : Under t dir p n ↔ t.at? p = some n ∧ ∃ rel, rel ≠ [] ∧ p = dir ++ rel := by
  constructor
  · intro h
    exact ⟨h.at?, h.exists_append⟩
  · rintro ⟨hn, rel, hrel, rfl⟩
    induction rel using List.reverseRecOn generalizing n with
    | nil => exact absurd rfl hrel
    | append_singleton rel name ih =>
      rw [← List.append_assoc] at hn ⊢
      by_cases hnil : rel = []
      · subst hnil
        rw [List.append_nil] at hn ⊢
        exact .child name hn
      · -- what the node is in is a directory, and is below in its turn
        have hd := ht.isDirectory_of_append hn (by simp)
        obtain ⟨d, hd, hc⟩ := isDirectory_iff.mp hd
        exact .deeper name (ih hnil hd) hc hn

/-! ## (2) Going down -/

theorem mem_children_iff (ht : t.Sound) : x ∈ t.children dir ↔ t.at? x.1 = some x.2 ∧ ∃ name, x.1 = dir ++ [name] := by
  have hplace : (dir.isPrefixOf x.1 && x.1.length == dir.length + 1) = true ↔ ∃ name, x.1 = dir ++ [name] := by
    rw [Bool.and_eq_true, List.isPrefixOf_iff_prefix, beq_iff_eq]
    constructor
    · rintro ⟨⟨rel, hrel⟩, hl⟩
      rw [← hrel, List.length_append, Nat.add_left_cancel_iff, List.length_eq_one_iff] at hl
      obtain ⟨name, rfl⟩ := hl
      exact ⟨name, hrel.symm⟩
    · rintro ⟨name, h⟩
      rw [h]
      exact ⟨List.prefix_append _ _, by simp⟩
  rw [children, List.mem_filter, ← hplace]
  constructor
  · rintro ⟨hm, h⟩
    exact ⟨ht.at?_of_mem hm, h⟩
  · rintro ⟨hat, h⟩
    exact ⟨mem_of_at? hat, h⟩

/-- At most so many levels down, every node below is found that has at most so many names more. -/
theorem mem_descendWithin_iff (ht : t.Sound) : x ∈ t.descendWithin levels dir ↔
    t.at? x.1 = some x.2 ∧ ∃ rel, rel ≠ [] ∧ rel.length ≤ levels ∧ x.1 = dir ++ rel := by
  induction levels generalizing dir with
  | zero =>
    constructor
    · intro h
      cases h
    · rintro ⟨-, rel, hrel, hl, -⟩
      exact absurd (List.length_eq_zero_iff.mp (Nat.le_zero.mp hl)) hrel
  | succ levels ih =>
    rw [descendWithin, List.mem_flatMap]
    constructor
    · rintro ⟨c, hc, hx⟩
      obtain ⟨hat, name, hplace⟩ := (mem_children_iff ht).mp hc
      rcases List.mem_cons.mp hx with rfl | hx
      · exact ⟨hat, [name], by simp, by simp, hplace⟩
      · split at hx
        · obtain ⟨hatx, rel, -, hl, hrel⟩ := ih.mp hx
          rw [hplace, List.append_assoc] at hrel
          exact ⟨hatx, [name] ++ rel, by simp, by simp; omega, hrel⟩
        · cases hx
    · rintro ⟨hat, rel, hrel, hl, hplace⟩
      cases rel with
      | nil => exact absurd rfl hrel
      | cons name rel =>
        rw [List.append_cons] at hplace
        by_cases hnil : rel = []
        · subst hnil
          rw [List.append_nil] at hplace
          exact ⟨x, (mem_children_iff ht).mpr ⟨hat, name, hplace⟩, List.mem_cons_self⟩
        · have hd := ht.isDirectory_of_append (hplace ▸ hat) hnil
          obtain ⟨d, hd, hc⟩ := isDirectory_iff.mp hd
          refine ⟨(dir ++ [name], d), (mem_children_iff ht).mpr ⟨hd, name, rfl⟩, List.mem_cons_of_mem _ ?_⟩
          rw [if_pos hc]
          refine ih.mpr ⟨hat, rel, hnil, ?_, hplace⟩
          rw [List.length_cons] at hl
          omega

theorem length_le_depth (hm : x ∈ t.nodes) : x.1.length ≤ t.depth := by
  have hfold : ∀ (l : List (Place × Node)) (d : Nat), d ≤ l.foldl (fun d y => max d y.1.length) d ∧
      ∀ y ∈ l, y.1.length ≤ l.foldl (fun d y => max d y.1.length) d := by
    intro l
    induction l with
    | nil => simp
    | cons z l ih =>
      intro d
      obtain ⟨hd, hl⟩ := ih (max d z.1.length)
      refine ⟨by rw [List.foldl_cons]; omega, fun y hy => ?_⟩
      rw [List.foldl_cons]
      rcases List.mem_cons.mp hy with rfl | hy
      · omega
      · exact hl y hy
  exact (hfold t.nodes 0).2 x hm

/-- Going down finds the nodes below, all of them and nothing else. -/
theorem mem_descend_iff (ht : t.Sound) : x ∈ t.descend dir ↔ Under t dir x.1 x.2 := by
  rw [descend, mem_descendWithin_iff ht, under_iff ht]
  constructor
  · rintro ⟨hat, rel, hrel, -, hplace⟩
    exact ⟨hat, rel, hrel, hplace⟩
  · rintro ⟨hat, rel, hrel, hplace⟩
    have hl := length_le_depth (mem_of_at? hat)
    rw [hplace, List.length_append] at hl
    exact ⟨hat, rel, hrel, by omega, hplace⟩

theorem pairwise_nodes (ht : t.Sound) : t.nodes.Pairwise fun x y => x.1 ≠ y.1 := List.pairwise_map.mp ht.unique

/-- No place is found twice. -/
theorem pairwise_descendWithin (ht : t.Sound) (levels : Nat) (dir : Place) :
    (t.descendWithin levels dir).Pairwise fun x y => x.1 ≠ y.1 := by
  induction levels generalizing dir with
  | zero => exact .nil
  | succ levels ih =>
    have hprefix : ∀ {c x : Place × Node}, x ∈ (c :: if c.2.content = .directory then t.descendWithin levels c.1 else []) →
        x = c ∨ ∃ rel, rel ≠ [] ∧ x.1 = c.1 ++ rel := by
      intro c x hx
      rcases List.mem_cons.mp hx with rfl | hx
      · exact .inl rfl
      · split at hx
        · obtain ⟨-, rel, hrel, -, hplace⟩ := (mem_descendWithin_iff ht).mp hx
          exact .inr ⟨rel, hrel, hplace⟩
        · cases hx
    rw [descendWithin, List.pairwise_flatMap]
    constructor
    · intro c _
      refine List.pairwise_cons.mpr ⟨fun y hy => ?_, ?_⟩
      · split at hy
        · obtain ⟨-, rel, hrel, -, hplace⟩ := (mem_descendWithin_iff ht).mp hy
          rw [hplace]
          exact fun he => hrel (List.append_right_eq_self.mp he.symm)
        · cases hy
      · split
        · exact ih c.1
        · exact .nil
    · -- two children have as many names each, so a place that begins with both has them the same
      have hchildren : (t.children dir).Pairwise fun x y => x.1 ≠ y.1 := (pairwise_nodes ht).filter _
      refine hchildren.imp_of_mem fun {c d} hc hd hne x hx y hy he => ?_
      obtain ⟨-, name, hcp⟩ := (mem_children_iff ht).mp hc
      obtain ⟨-, other, hdp⟩ := (mem_children_iff ht).mp hd
      have hcx : c.1 <+: x.1 := by
        rcases hprefix hx with rfl | ⟨rel, -, h⟩
        · exact List.prefix_refl _
        · exact ⟨rel, h.symm⟩
      have hdx : d.1 <+: x.1 := by
        rw [he]
        rcases hprefix hy with rfl | ⟨rel, -, h⟩
        · exact List.prefix_refl _
        · exact ⟨rel, h.symm⟩
      have hlen : c.1.length = d.1.length := by rw [hcp, hdp, List.length_append, List.length_append]; rfl
      exact hne ((List.prefix_of_prefix_length_le hcx hdx (Nat.le_of_eq hlen)).eq_of_length hlen)

theorem pairwise_descend (ht : t.Sound) (dir : Place) : (t.descend dir).Pairwise fun x y => x.1 ≠ y.1 :=
  pairwise_descendWithin ht t.depth dir

/-! ## (3) The order of enumeration -/

theorem nodup_of_places {l : List (Place × Node)} (h : l.Pairwise fun x y => x.1 ≠ y.1) : l.Nodup :=
  h.imp fun hne he => hne (congrArg Prod.fst he)

/-- The same nodes, enumerated in another order. -/
theorem Sound.of_perm (ht : t.Sound) (h : t'.nodes.Perm t.nodes) : t'.Sound ∧ ∀ p, t'.at? p = t.at? p := by
  have hunique : (t'.nodes.map Prod.fst).Nodup := (h.map Prod.fst).nodup_iff.mpr ht.unique
  have hat : ∀ p, t'.at? p = t.at? p := by
    intro p
    cases hp : t.at? p with
    | some n => exact lookup_of_mem hunique (h.mem_iff.mpr (mem_of_at? hp))
    | none =>
      cases hp' : t'.at? p with
      | none => rfl
      | some n =>
        have hsome := ht.at?_of_mem (h.mem_iff.mp (mem_of_at? hp'))
        rw [hp] at hsome
        cases hsome
  have hd : ∀ p, t'.isDirectory p = t.isDirectory p := fun p => by rw [isDirectory, isDirectory, hat]
  refine ⟨⟨?_, fun x hx => ?_, fun x hx => ?_, hunique⟩, hat⟩
  · rw [hd]
    exact ht.root
  · rw [hd]
    exact ht.parent x (h.mem_iff.mp hx)
  · exact ht.name x (h.mem_iff.mp hx)

/-- A walk only asks what is at a place. -/
theorem walkSteps_congr (hat : ∀ p, t'.at? p = t.at? p) (follow : Bool)
    (jump : Place → List String → Except Refusal Spot) (dir : Place) (steps : List String) :
    t'.walkSteps follow jump dir steps = t.walkSteps follow jump dir steps := by
  induction steps generalizing dir with
  | nil => rw [walkSteps, walkSteps, hat]
  | cons name rest ih => simp only [walkSteps, hat, ih]

theorem walk_congr (hat : ∀ p, t'.at? p = t.at? p) (follow : Bool) (links : Nat) : t'.walk follow links = t.walk follow links := by
  induction links with
  | zero =>
    funext dir steps
    exact walkSteps_congr hat follow _ dir steps
  | succ links ih =>
    funext dir steps
    rw [walk, walk, ih]
    exact walkSteps_congr hat follow _ dir steps

theorem below_perm_descend (ht : t.Sound) (dir : Place) : (t.below dir).Perm (t.descend dir) := by
  have hbelow : (t.below dir).Pairwise fun x y => x.1 ≠ y.1 := (pairwise_nodes ht).filter _
  refine (List.perm_ext_iff_of_nodup (nodup_of_places hbelow) (nodup_of_places (pairwise_descend ht dir))).mpr
    fun x => ?_
  rw [mem_descend_iff ht, under_iff ht, below, List.mem_filter]
  show x ∈ t.nodes ∧ (dir.isPrefixOf x.1 && dir != x.1) = true ↔ _
  rw [Bool.and_eq_true, List.isPrefixOf_iff_prefix, bne_iff_ne]
  constructor
  · rintro ⟨hm, ⟨rel, hrel⟩, hne⟩
    refine ⟨ht.at?_of_mem hm, rel, fun he => hne ?_, hrel.symm⟩
    rw [← hrel, he, List.append_nil]
  · rintro ⟨hat, rel, hrel, hplace⟩
    refine ⟨mem_of_at? hat, ⟨rel, hplace.symm⟩, fun he => hrel ?_⟩
    exact List.append_right_eq_self.mp (hplace.symm.trans he.symm)

end FlatPackage.Tree
