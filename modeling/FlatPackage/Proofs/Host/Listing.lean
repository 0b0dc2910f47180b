/-
  FlatPackage.Proofs.Host.Listing — what a listing shows, and in which order.

  A listing is a list of nodes, each with its description. On a sound host the nodes that are found
  going down from a directory are, sorted by their paths, all nodes below it (`nodesBelow`), each
  once and in the order of the octets of the relative paths.

  Proved:
  (1) `mem_nodesBelow`, `pairwise_nodesBelow`: every node below, and their order.
  (2) `listed_true`: a directory that a path leads to is listed so (`Listed`), unless the text of a
      node below is too long to be looked up.
  (3) `openDirectory_eq`: a directory is opened by the names that its path passes.
-/

import FlatPackage.Proofs.Host.Describing
import FlatPackage.Proofs.Path.Octets
import FlatPackage.Proofs.Tree.Descent

namespace FlatPackage.Host

open FlatPackage.Tree (IsName Node)
open FlatPackage.Path (joined octets steps)

variable {h : Host} {dir p : Place} {n : Node} {s : String}

/-! ## (1) The nodes below a directory -/

/-- The path of a place below a directory, from the directory on. -/
def relative (dir p : Place) : String := joined (p.drop dir.length)

theorem pairwise_sorted (dir : Place) (l : List (Place × Node)) :
    (l.mergeSort fun x y => decide (relative dir x.1 ≤ relative dir y.1)).Pairwise
      fun x y => decide (relative dir x.1 ≤ relative dir y.1) = true := by
  refine List.pairwise_mergeSort (fun a b c hab hbc => ?_) (fun a b => ?_) l
  · exact decide_eq_true (String.le_trans (of_decide_eq_true hab) (of_decide_eq_true hbc))
  · rw [Bool.or_eq_true, decide_eq_true_eq, decide_eq_true_eq]
    exact String.le_total _ _

/-- The nodes below a directory, by their paths. -/
def nodesBelow (t : Tree) (dir : Place) : List (Place × Node) :=
  (t.below dir).mergeSort fun x y => decide (relative dir x.1 ≤ relative dir y.1)

theorem mem_below (ht : h.tree.Sound) {x : Place × Node} :
    x ∈ h.tree.below dir ↔ h.tree.at? x.1 = some x.2 ∧ dir <+: x.1 ∧ x.1 ≠ dir := by
  rw [Tree.below, List.mem_filter]
  show x ∈ h.tree.nodes ∧ (dir.isPrefixOf x.1 && dir != x.1) = true ↔ _
  rw [Bool.and_eq_true, List.isPrefixOf_iff_prefix, bne_iff_ne, ne_comm (a := dir)]
  constructor
  · rintro ⟨hm, hb⟩
    exact ⟨ht.at?_of_mem hm, hb⟩
  · rintro ⟨hat, hb⟩
    exact ⟨Tree.mem_of_at? hat, hb⟩

theorem mem_nodesBelow (ht : h.tree.Sound) {x : Place × Node} :
    x ∈ nodesBelow h.tree dir ↔ h.tree.at? x.1 = some x.2 ∧ dir <+: x.1 ∧ x.1 ≠ dir := by
  rw [nodesBelow, List.mem_mergeSort, mem_below ht]

/-- A place below a directory is the directory with names behind it, one at least. -/
theorem exists_rel (hp : dir <+: p) (hne : p ≠ dir) : ∃ rel, rel ≠ [] ∧ p = dir ++ rel ∧ relative dir p = joined rel := by
  obtain ⟨rel, rfl⟩ := hp
  refine ⟨rel, fun he => hne (by rw [he, List.append_nil]), rfl, ?_⟩
  rw [relative, List.drop_left]

/-- Different nodes have different relative paths. -/
theorem relative_inj (ht : h.tree.Sound) {x y : Place × Node} (hx : x ∈ nodesBelow h.tree dir)
    (hy : y ∈ nodesBelow h.tree dir) (he : relative dir x.1 = relative dir y.1) : x.1 = y.1 := by
  obtain ⟨hatx, hpx, hnex⟩ := (mem_nodesBelow ht).mp hx
  obtain ⟨haty, hpy, hney⟩ := (mem_nodesBelow ht).mp hy
  obtain ⟨rel, -, hrel, hjoin⟩ := exists_rel hpx hnex
  obtain ⟨rel', -, hrel', hjoin'⟩ := exists_rel hpy hney
  have hname : ∀ z ∈ rel, IsName z := fun z hz => ht.isName hatx z (hrel ▸ List.mem_append_right _ hz)
  have hname' : ∀ z ∈ rel', IsName z := fun z hz => ht.isName haty z (hrel' ▸ List.mem_append_right _ hz)
  rw [hjoin, hjoin'] at he
  rw [hrel, hrel', Path.joined_inj hname hname' he]

theorem nodup_nodesBelow (ht : h.tree.Sound) : (nodesBelow h.tree dir).Pairwise fun x y => x.1 ≠ y.1 :=
  (List.mergeSort_perm _ _).symm.pairwise ((Tree.pairwise_nodes ht).filter _) fun hne => hne.symm

/-- The octets of the relative paths grow strictly. -/
theorem pairwise_nodesBelow (ht : h.tree.Sound) :
    (nodesBelow h.tree dir).Pairwise fun x y => octets (relative dir x.1) < octets (relative dir y.1) := by
  refine ((pairwise_sorted dir (h.tree.below dir)).and (nodup_nodesBelow ht)).imp_of_mem fun {x y} hx hy hxy => ?_
  have hne : relative dir x.1 ≠ relative dir y.1 := fun he => hxy.2 (relative_inj ht hx hy he)
  refine Path.octets_lt_octets (String.not_le.mp fun hge => hne ?_)
  exact String.le_antisymm (of_decide_eq_true hxy.1) hge

/-! ## (2) Listing -/

/-- Nodes below a directory that are sorted by their paths come out in one order, whichever they had. -/
theorem mergeSort_eq_of_perm (ht : h.tree.Sound) {l l' : List (Place × Node)} (hp : l.Perm l')
    (hl : ∀ x ∈ l, x ∈ nodesBelow h.tree dir) :
    l.mergeSort (fun x y => decide (relative dir x.1 ≤ relative dir y.1)) =
      l'.mergeSort fun x y => decide (relative dir x.1 ≤ relative dir y.1) := by
  refine List.Perm.eq_of_pairwise (fun x y hx hy hxy hyx => ?_) (pairwise_sorted dir l) (pairwise_sorted dir l')
    ((List.mergeSort_perm _ _).trans (hp.trans (List.mergeSort_perm _ _).symm))
  have hx := hl x (List.mem_mergeSort.mp hx)
  have hy := hl y (hp.mem_iff.mpr (List.mem_mergeSort.mp hy))
  have hplace := relative_inj ht hx hy (String.le_antisymm (of_decide_eq_true hxy) (of_decide_eq_true hyx))
  have hnode := ((mem_nodesBelow ht).mp hx).1
  rw [hplace, ((mem_nodesBelow ht).mp hy).1] at hnode
  exact Prod.ext hplace (Option.some.inj hnode).symm

/-- The text that a node below a listed directory is looked up by. -/
def textBelow (root : String) (dir p : Place) : String := Path.below root (relative dir p)

/-- So long a text leads nowhere. -/
def TooLong (root : String) (dir p : Place) : Prop := Tree.pathLimit ≤ (textBelow root dir p).utf8ByteSize

instance (root : String) (dir p : Place) : Decidable (TooLong root dir p) := inferInstanceAs (Decidable (_ ≤ _))

/-- The description of a node below a listed directory. -/
def shown (h : Host) (root : String) (dir : Place) (x : Place × Node) : Descriptor :=
  Descriptor.ofNode h.clocks (textBelow root dir x.1) (relative dir x.1) x.2
    ((h.find true (textBelow root dir x.1)).toOption.map Prod.snd)

/-- A node below a directory is described, unless its text is too long. -/
theorem describeBelow_eq (hs : h.Sound) (hf : h.find true s = .ok (dir, n)) (hc : n.content = .directory)
    {x : Place × Node} (hx : x ∈ nodesBelow h.tree dir) :
    h.describeBelow s dir x.1 =
      if TooLong s dir x.1 then .error (.refused .status (textBelow s dir x.1) .nameTooLong)
      else .ok (h.shown s dir x) := by
  obtain ⟨hm, hp, hne⟩ := (mem_nodesBelow hs.tree).mp hx
  obtain ⟨rel, hnil, hrel, hjoin⟩ := exists_rel hp hne
  rw [hrel] at hm
  have htext : textBelow s dir x.1 = Path.below s (joined rel) := congrArg (Path.below s) hjoin
  show h.describeAt (textBelow s dir x.1) (relative dir x.1) = _
  by_cases hlong : TooLong s dir x.1
  · have hnonempty : textBelow s dir x.1 ≠ "" := by
      intro he
      rw [TooLong, he] at hlong
      exact absurd hlong (by decide)
    rw [if_pos hlong]
    exact describeAt_of_error (find_of_error (resolve_of_long hnonempty hlong)) _
  · have hshort := Nat.not_le.mp hlong
    rw [if_neg hlong]
    rw [htext] at hshort
    have hfind : h.find false (textBelow s dir x.1) = .ok (dir ++ rel, x.2) := by
      rw [htext]
      exact find_below_path hs hf hc hm hnil hshort fun hfalse => Bool.noConfusion hfalse
    exact describeAt_eq hfind _

/-- What listing nodes below a directory comes to: a description of each, or the refusal of one whose text
    is too long. -/
inductive Listed (h : Host) (root : String) (dir : Place) (nodes : List (Place × Node)) :
    Except Fault (List Descriptor) → Prop
  | whole : (∀ x ∈ nodes, ¬TooLong root dir x.1) → Listed h root dir nodes (.ok (nodes.map (h.shown root dir)))
  | refused (x : Place × Node) : x ∈ nodes → TooLong root dir x.1 →
      Listed h root dir nodes (.error (.refused .status (textBelow root dir x.1) .nameTooLong))

namespace Listed

variable {root : String} {nodes : List (Place × Node)} {r : Except Fault (List Descriptor)}

theorem eq_ok (hl : Listed h root dir nodes r) (hfit : ∀ x ∈ nodes, ¬TooLong root dir x.1) :
    r = .ok (nodes.map (h.shown root dir)) := by
  cases hl with
  | whole _ => rfl
  | refused x hx hlong => exact absurd hlong (hfit x hx)

theorem eq_ok_iff {entries : List Descriptor} (hl : Listed h root dir nodes r) :
    r = .ok entries ↔ (∀ x ∈ nodes, ¬TooLong root dir x.1) ∧ entries = nodes.map (h.shown root dir) := by
  cases hl with
  | whole hfit =>
    rw [Except.ok.injEq, eq_comm]
    exact ⟨fun he => ⟨hfit, he⟩, fun he => he.2⟩
  | refused x hx hlong => exact ⟨nofun, fun he => absurd hlong (he.1 x hx)⟩

end Listed

/-- Nodes are described one after the other, up to the first that is refused. -/
theorem listed_mapM {root : String} {l : List (Place × Node)}
    (hl : ∀ x ∈ l, h.describeBelow root dir x.1 =
      if TooLong root dir x.1 then .error (.refused .status (textBelow root dir x.1) .nameTooLong)
      else .ok (h.shown root dir x)) :
    Listed h root dir l (l.mapM fun x => h.describeBelow root dir x.1) := by
  induction l with
  | nil => exact .whole (by simp)
  | cons y l ih =>
    have hrest := ih fun x hx => hl x (List.mem_cons_of_mem _ hx)
    rw [List.mapM_cons, hl y List.mem_cons_self]
    by_cases hlong : TooLong root dir y.1
    · rw [if_pos hlong]
      exact .refused y List.mem_cons_self hlong
    rw [if_neg hlong]
    generalize l.mapM (fun x => h.describeBelow root dir x.1) = r at hrest ⊢
    cases hrest with
    | whole hshort =>
      refine .whole fun x hx => ?_
      rcases List.mem_cons.mp hx with rfl | hx
      · exact hlong
      · exact hshort x hx
    | refused x hx hx' => exact .refused x (List.mem_cons_of_mem _ hx) hx'

/-- Descriptions are sorted by what they call relative, and so are their nodes. -/
theorem Listed.sorted {root : String} {l : List (Place × Node)} {r : Except Fault (List Descriptor)}
    (hl : Listed h root dir l r) :
    Listed h root dir (l.mergeSort fun x y => decide (relative dir x.1 ≤ relative dir y.1))
      (r >>= fun found => .ok (found.mergeSort fun a b => decide (a.relative ≤ b.relative))) := by
  cases hl with
  | whole hshort =>
    have hsort : ∀ x ∈ l, ∀ y ∈ l, decide (relative dir x.1 ≤ relative dir y.1) =
        decide ((h.shown root dir x).relative ≤ (h.shown root dir y).relative) := fun _ _ _ _ => rfl
    show Listed h root dir _ (.ok ((l.map (h.shown root dir)).mergeSort fun a b => decide (a.relative ≤ b.relative)))
    rw [← List.map_mergeSort hsort]
    exact .whole fun x hx => hshort x (List.mem_mergeSort.mp hx)
  | refused x hx hlong => exact .refused x (List.mem_mergeSort.mpr hx) hlong

/-- A listing is of the nodes that are found, sorted by their paths. -/
theorem listed_sorted (hs : h.Sound) (hf : h.find true s = .ok (dir, n)) (hc : n.content = .directory) (recursive : Bool)
    (hl : ∀ x ∈ (if recursive then h.tree.descend dir else h.tree.children dir), x ∈ nodesBelow h.tree dir) :
    Listed h s dir ((if recursive then h.tree.descend dir else h.tree.children dir).mergeSort
      fun x y => decide (relative dir x.1 ≤ relative dir y.1)) (list s recursive h) := by
  rw [list, hf]
  show Listed h s dir _ (if n.content = .directory then _ else _)
  rw [if_pos hc]
  exact (listed_mapM fun x hx => describeBelow_eq hs hf hc (hl x hx)).sorted

theorem mem_nodesBelow_of_mem_descend (ht : h.tree.Sound) {x : Place × Node} (hx : x ∈ h.tree.descend dir) :
    x ∈ nodesBelow h.tree dir := List.mem_mergeSort.mpr ((Tree.below_perm_descend ht dir).mem_iff.mpr hx)

/-- The long listing is of all nodes below. -/
theorem listed_true (hs : h.Sound) (hf : h.find true s = .ok (dir, n)) (hc : n.content = .directory) :
    Listed h s dir (nodesBelow h.tree dir) (list s true h) := by
  have hmem : ∀ x ∈ h.tree.descend dir, x ∈ nodesBelow h.tree dir := fun x hx => mem_nodesBelow_of_mem_descend hs.tree hx
  have hlisted := listed_sorted hs hf hc true hmem
  rwa [if_pos rfl, mergeSort_eq_of_perm hs.tree (Tree.below_perm_descend hs.tree dir).symm hmem] at hlisted

/-! ## (3) Opening -/

theorem openDirectory_eq (hs : h.Sound) (hf : h.find true s = .ok (dir, n)) (hc : n.content = .directory)
    (hup : ".." ∉ steps s) (hl : (textOf (h.way s)).utf8ByteSize < Tree.pathLimit) :
    openDirectory s h = .ok (textOf (h.way s)) := by
  obtain ⟨m, hfind, hm⟩ := (reaches_way hs hf hc hup hl).directory
  have hne : s ≠ "" := (resolve_eq_ok_iff.mp (find_eq_ok_iff.mp hf)).1
  have htext : (h.absolute s).closed.text = textOf (h.way s) := congrArg textOf (names_absolute hs hne hup)
  rw [openDirectory, if_neg hne]
  simp only [htext, hfind, if_pos hm]

end FlatPackage.Host
