/-
  FlatPackage.Proofs.Host.Enumeration — a listing has every node once, in one order.

  Listing goes down through directories in the order in which the tree enumerates its nodes, or only looks
  at what is directly in the directory, and then sorts by the relative path. Relative paths of different
  nodes differ, so sorting leaves no choice: both ways of listing come to sublists of one list, and
  neither shows the order of enumeration. A slash is a larger octet than some that names have, so `a-b`
  comes between `a` and `a/b`; a directory's path begins the paths of all that is in it, and comes
  before them for that alone. Going down needs no text and describing does: a tree can be so deep that
  its listing is refused, and then the order of enumeration says at which node.

  Proved:
  (1) `Enumerates`, `enumerates_nodesBelow`: what the list of nodes has, and how it is ordered.
  (2) `listed_false`: what is directly in a directory is the part of the list with one component.
  (3) `listed_enumerating`: what a listing comes to does not depend on the enumeration.
  (4) `listing_whole_and_ordered`: all of this of the listings of a directory.
  (5) `list_nested`: directories one in the other are refused once the last one's text is too long.
  Trace: a directory with `a-b`, `a/b` and a link in a circle, enumerated backwards
  (`a_circle_of_links`); sixteen directories with the longest names (`a_tree_too_deep_to_list`).
-/

import FlatPackage.Host.Setup
import FlatPackage.Proofs.Host.Listing

namespace FlatPackage

open FlatPackage.Tree (IsName Node Under)
open FlatPackage.Path (joined names octets pieces)

namespace Host

variable {h : Host} {root : String} {dir : Place} {n : Node} {x : Place × Node}

/-! ## (1) The nodes, in order -/

/-- These are the nodes that are reached from a directory, as they are to be listed. -/
structure Enumerates (h : Host) (root : String) (dir : Place) (nodes : List (Place × Node)) : Prop where
  /-- All nodes that are reached through directories, links among them, and no others. -/
  reached : ∀ x, x ∈ nodes ↔ Under h.tree dir x.1 x.2
  once : nodes.Pairwise fun x y => x.1 ≠ y.1
  /-- A description is of its own node: its relative path has the names that lead there. -/
  named : ∀ x ∈ nodes, (h.shown root dir x).kind = x.2.content.kind ∧
    x.1 = dir ++ names (h.shown root dir x).relative.toList
  ordered : nodes.Pairwise fun x y => octets (h.shown root dir x).relative < octets (h.shown root dir y).relative
  /-- Every directory on the way to a node is listed before it. -/
  directoryFirst : ∀ before x after, nodes = before ++ x :: after → ∀ q, dir <+: q → q ≠ dir → q <+: x.1 → q ≠ x.1 →
    ∃ d ∈ before, d.1 = q ∧ d.2.content = .directory

theorem mem_nodesBelow_iff_under (ht : h.tree.Sound) : x ∈ nodesBelow h.tree dir ↔ Under h.tree dir x.1 x.2 := by
  rw [← Tree.mem_descend_iff ht, ← (Tree.below_perm_descend ht dir).mem_iff, nodesBelow, List.mem_mergeSort]

/-- Names below a directory are read back from the relative path. -/
theorem names_relative (ht : h.tree.Sound) (hx : x ∈ nodesBelow h.tree dir) :
    x.1 = dir ++ names (relative dir x.1).toList := by
  obtain ⟨hat, hp, hne⟩ := (mem_nodesBelow ht).mp hx
  obtain ⟨rel, -, hrel, hjoin⟩ := exists_rel hp hne
  have hname : ∀ z ∈ rel, IsName z := fun z hz => ht.isName hat z (hrel ▸ List.mem_append_right _ hz)
  rw [hjoin, Path.names_joined hname, ← hrel]

/-- A path with more names behind it is larger. -/
theorem octets_joined_lt {a b : List String} (ha : a ≠ []) (hb : b ≠ []) : octets (joined a) < octets (joined (a ++ b)) := by
  have hcut : joined (a ++ b) = joined a ++ ("/" ++ joined b) := by
    rw [joined, joined, joined, String.intercalate_append_of_ne_nil ha hb, String.append_assoc]
  have hoctets : octets (joined (a ++ b)) = octets (joined a) ++ octets ("/" ++ joined b) := by
    rw [hcut, Path.octets_eq, Path.octets_eq, Path.octets_eq, String.toList_append, List.flatMap_append]
  have hslash : octets ("/" ++ joined b) = 47 :: octets (joined b) := by
    rw [Path.octets_eq, Path.octets_eq, String.toList_append, List.flatMap_append]
    rfl
  rw [hoctets, hslash]
  have hlt := Path.append_lt_append (p := octets (joined a)) (List.nil_lt_cons 47 (octets (joined b)))
  rwa [List.append_nil] at hlt

/-- What is on the way to a node of the list is a directory, and its path is smaller. -/
theorem directory_on_the_way (ht : h.tree.Sound) (hx : x ∈ nodesBelow h.tree dir) {q : Place} (hdir : dir <+: q)
    (hne : q ≠ dir) (hq : q <+: x.1) (hqx : q ≠ x.1) :
    ∃ d : Node, (q, d) ∈ nodesBelow h.tree dir ∧ d.content = .directory ∧
      octets (relative dir q) < octets (relative dir x.1) := by
  obtain ⟨hat, -, -⟩ := (mem_nodesBelow ht).mp hx
  obtain ⟨a, ha, rfl, hja⟩ := exists_rel hdir hne
  obtain ⟨b, hb⟩ := hq
  have hbne : b ≠ [] := by
    rintro rfl
    exact hqx (by rw [← hb, List.append_nil])
  obtain ⟨d, hd, hc⟩ := Tree.isDirectory_iff.mp (ht.isDirectory_of_append (hb ▸ hat) hbne)
  refine ⟨d, (mem_nodesBelow ht).mpr ⟨hd, hdir, hne⟩, hc, ?_⟩
  have hjx : relative dir x.1 = joined (a ++ b) := by
    rw [relative, ← hb, List.append_assoc, List.drop_left]
  rw [hja, hjx]
  exact octets_joined_lt ha hbne

theorem enumerates_nodesBelow (ht : h.tree.Sound) (root : String) (dir : Place) :
    Enumerates h root dir (nodesBelow h.tree dir) where
  reached _ := mem_nodesBelow_iff_under ht
  once := nodup_nodesBelow ht
  named _ hx := ⟨rfl, names_relative ht hx⟩
  ordered := pairwise_nodesBelow ht
  directoryFirst := by
    intro before x after hsplit q hdir hne hq hqx
    have hx : x ∈ nodesBelow h.tree dir := hsplit ▸ List.mem_append_right _ List.mem_cons_self
    obtain ⟨d, hd, hc, hlt⟩ := directory_on_the_way ht hx hdir hne hq hqx
    -- the directory is somewhere in the list, and nothing from `x` on has a smaller path
    have hsorted : (nodesBelow h.tree dir).Pairwise fun x y => octets (relative dir x.1) < octets (relative dir y.1) :=
      pairwise_nodesBelow ht
    rw [hsplit, List.pairwise_append, List.pairwise_cons] at hsorted
    rw [hsplit] at hd
    rcases List.mem_append.mp hd with hbefore | hafter
    · exact ⟨(q, d), hbefore, rfl, hc⟩
    rcases List.mem_cons.mp hafter with rfl | hafter
    · exact absurd rfl hqx
    · exact absurd hlt (List.lt_asymm (hsorted.2.1.1 _ hafter))

/-! ## (2) What is directly in a directory -/

/-- The relative path has one component. -/
def Descriptor.isDirect (d : Descriptor) : Bool := (pieces d.relative.toList).length == 1

theorem isDirect_shown (ht : h.tree.Sound) (hx : x ∈ nodesBelow h.tree dir) :
    (h.shown root dir x).isDirect = (x.1.length == dir.length + 1) := by
  obtain ⟨hat, hp, hne⟩ := (mem_nodesBelow ht).mp hx
  obtain ⟨rel, hnil, hrel, hjoin⟩ := exists_rel hp hne
  have hname : ∀ z ∈ rel, IsName z := fun z hz => ht.isName hat z (hrel ▸ List.mem_append_right _ hz)
  show ((pieces (relative dir x.1).toList).length == 1) = _
  rw [hjoin, Path.pieces_joined hnil fun z hz => (hname z hz).noSlash, List.length_map, hrel, List.length_append]
  rw [Bool.eq_iff_iff, beq_iff_eq, beq_iff_eq]
  omega

/-- The nodes directly in a directory are those of all nodes below that have one name more. -/
theorem children_eq_filter (t : Tree) (dir : Place) :
    t.children dir = (t.below dir).filter fun x => x.1.length == dir.length + 1 := by
  rw [Tree.children, Tree.below, List.filter_filter]
  refine List.filter_congr fun x _ => ?_
  show (dir.isPrefixOf x.1 && x.1.length == dir.length + 1) =
    (x.1.length == dir.length + 1 && (dir.isPrefixOf x.1 && dir != x.1))
  have hne : x.1.length = dir.length + 1 → dir ≠ x.1 := by
    intro hl he
    rw [← he] at hl
    omega
  rw [Bool.eq_iff_iff]
  simp only [Bool.and_eq_true, beq_iff_eq, bne_iff_ne]
  constructor
  · rintro ⟨hp, hl⟩
    exact ⟨hl, hp, hne hl⟩
  · rintro ⟨hl, hp, -⟩
    exact ⟨hp, hl⟩

/-- The short listing is of the nodes of the long one that have relative paths of one component. -/
theorem listed_false (hs : h.Sound) (hf : h.find true root = .ok (dir, n)) (hc : n.content = .directory) :
    Listed h root dir ((nodesBelow h.tree dir).filter fun x => (h.shown root dir x).isDirect) (list root false h) := by
  have hfilter : ((nodesBelow h.tree dir).filter fun x => (h.shown root dir x).isDirect) =
      (nodesBelow h.tree dir).filter fun x => x.1.length == dir.length + 1 :=
    List.filter_congr fun x hx => isDirect_shown hs.tree hx
  have hperm : (h.tree.children dir).Perm ((nodesBelow h.tree dir).filter fun x => x.1.length == dir.length + 1) := by
    rw [children_eq_filter]
    exact (List.mergeSort_perm _ _).symm.filter _
  have hmem : ∀ x ∈ h.tree.children dir, x ∈ nodesBelow h.tree dir :=
    fun x hx => List.mem_of_mem_filter (hperm.mem_iff.mp hx)
  -- a part of a sorted list is sorted, so sorting the children comes to it
  have hsorted := (pairwise_sorted dir (h.tree.below dir)).filter fun x => x.1.length == dir.length + 1
  have hsort := (mergeSort_eq_of_perm hs.tree hperm hmem).trans (List.mergeSort_of_pairwise hsorted)
  have hlisted := listed_sorted hs hf hc false hmem
  rw [if_neg Bool.false_ne_true, hsort] at hlisted
  rwa [hfilter]

/-- A directory is listed exactly if no text of what would be described is too long. -/
theorem exists_list_iff (hs : h.Sound) (hf : h.find true root = .ok (dir, n)) (hc : n.content = .directory)
    (recursive : Bool) : (∃ entries, list root recursive h = .ok entries) ↔
      ∀ x ∈ nodesBelow h.tree dir, recursive = true ∨ x.1.length = dir.length + 1 → ¬TooLong root dir x.1 := by
  cases recursive with
  | true => simp [(listed_true hs hf hc).eq_ok_iff]
  | false =>
    simp only [(listed_false hs hf hc).eq_ok_iff, exists_and_left, exists_eq, and_true, List.mem_filter, and_imp]
    refine forall₂_congr fun x hx => ?_
    rw [isDirect_shown hs.tree hx]
    simp

/-- Where the long listing has an outcome, the short one is a part of it. -/
theorem Listed.filter {nodes : List (Place × Node)} {entries : List Descriptor} {r : Except Fault (List Descriptor)}
    (hlong : Listed h root dir nodes (.ok entries))
    (hshort : Listed h root dir (nodes.filter fun x => (h.shown root dir x).isDirect) r) :
    r = .ok (entries.filter Descriptor.isDirect) := by
  cases hlong with
  | whole hfit =>
    cases hshort with
    | whole _ =>
      rw [List.filter_map]
      rfl
    | refused x hx hlong => exact absurd hlong (hfit x (List.mem_of_mem_filter hx))

/-! ## (3) The order of enumeration -/

/-- A host whose nodes are enumerated so. -/
def enumerating (h : Host) (nodes : List (Place × Node)) : Host := { h with tree := ⟨nodes⟩ }

section Enumerating

variable {nodes : List (Place × Node)} (hs : h.Sound) (hp : nodes.Perm h.tree.nodes)

include hs hp

theorem Sound.enumerating : (h.enumerating nodes).Sound := by
  obtain ⟨ht, hat⟩ : Tree.Sound ⟨nodes⟩ ∧ ∀ p, Tree.at? ⟨nodes⟩ p = h.tree.at? p := hs.tree.of_perm hp
  refine ⟨ht, ?_⟩
  show Tree.isDirectory ⟨nodes⟩ h.here = true
  rw [Tree.isDirectory, hat]
  exact hs.here

theorem find_enumerating (follow : Bool) (s : String) : (h.enumerating nodes).find follow s = h.find follow s := by
  have hat : ∀ p, Tree.at? ⟨nodes⟩ p = h.tree.at? p := (hs.tree.of_perm hp).2
  simp only [find, Tree.find, Tree.resolve, Host.enumerating, Tree.walk_congr hat]

theorem nodesBelow_enumerating (dir : Place) : nodesBelow (h.enumerating nodes).tree dir = nodesBelow h.tree dir := by
  have hbelow : ∀ x ∈ h.tree.below dir, x ∈ nodesBelow h.tree dir := fun x hx => List.mem_mergeSort.mpr hx
  have hperm : (h.tree.below dir).Perm (Tree.below ⟨nodes⟩ dir) := (hp.filter _).symm
  exact (mergeSort_eq_of_perm hs.tree hperm hbelow).symm

theorem shown_enumerating (root : String) (dir : Place) : (h.enumerating nodes).shown root dir = h.shown root dir := by
  funext x
  show Descriptor.ofNode h.clocks _ _ _ (((h.enumerating nodes).find true _).toOption.map _) = _
  rw [find_enumerating hs hp]
  rfl

theorem listed_enumerating {l : List (Place × Node)} {r : Except Fault (List Descriptor)}
    (hl : Listed (h.enumerating nodes) root dir l r) : Listed h root dir l r := by
  cases hl with
  | whole hfit =>
    rw [shown_enumerating hs hp]
    exact .whole hfit
  | refused x hx hlong => exact .refused x hx hlong

end Enumerating

/-! ## (4) What a listing is -/

/-- For every tree, and every path that leads to a directory in it. The long listing describes each node
    that is reached from the directory through directories once; links are described and not followed. The
    relative paths grow strictly, octet by octet, and every directory comes before what is below it. The
    short listing is the part of the long one that has relative paths of one component. None of this depends
    on the order in which the nodes are enumerated. A listing is refused exactly if the text of a node that
    it would describe is too long, and then such a node is named. -/
theorem listing_whole_and_ordered (hs : h.Sound) (hf : h.find true root = .ok (dir, n)) (hc : n.content = .directory) :
    ∃ nodes, Enumerates h root dir nodes ∧
      ∀ nodes' : List (Place × Node), nodes'.Perm h.tree.nodes →
        Listed h root dir nodes (list root true (h.enumerating nodes')) ∧
        Listed h root dir (nodes.filter fun x => (h.shown root dir x).isDirect) (list root false (h.enumerating nodes')) ∧
        ∀ entries, list root true (h.enumerating nodes') = .ok entries →
          list root false (h.enumerating nodes') = .ok (entries.filter Descriptor.isDirect) := by
  refine ⟨nodesBelow h.tree dir, enumerates_nodesBelow hs.tree root dir, fun nodes' hp => ?_⟩
  have hs' := hs.enumerating hp
  have hf' : (h.enumerating nodes').find true root = .ok (dir, n) := (find_enumerating hs hp true root).trans hf
  have hlong := listed_true hs' hf' hc
  have hshort := listed_false hs' hf' hc
  rw [nodesBelow_enumerating hs hp] at hlong hshort
  rw [shown_enumerating hs hp] at hshort
  have hlong := listed_enumerating hs hp hlong
  have hshort := listed_enumerating hs hp hshort
  exact ⟨hlong, hshort, fun entries he => (he ▸ hlong).filter hshort⟩

/-- A directory with two files and a link that leads back to the directory it is in. -/
def circular : Host :=
  Host.bare [] ⟨0, 7⟩ |>.addDirectory "d/a" newDirectory |>.addFile "d/a/b" [1] 0o600 |>.addFile "d/a-b" [2] 0o600
    |>.addLink "d/a/up" "../a"

/-- The link is listed and what it leads to is not listed a second time; nodes that are enumerated backwards
    are listed in the same order. -/
theorem a_circle_of_links :
    let link : Place × Node := (["d", "a", "up"], ⟨.symlink "../a", newLink, 7⟩)
    circular.Sound ∧ circular.find true "d" = .ok (["d"], ⟨.directory, newDirectory, 7⟩) ∧
      ∃ nodes, Enumerates circular "d" ["d"] nodes ∧ link ∈ nodes ∧ (∀ n, (["d", "a", "up", "up"], n) ∉ nodes) ∧
        list "d" true (circular.enumerating circular.tree.nodes.reverse) = .ok (nodes.map (circular.shown "d" ["d"])) := by
  intro link
  have hs : circular.Sound := by decide +kernel
  have hf : circular.find true "d" = .ok (["d"], ⟨.directory, newDirectory, 7⟩) := by decide +kernel
  have hat : circular.tree.at? ["d", "a", "up"] = some link.2 := by decide +kernel
  have hup : circular.tree.at? ["d", "a", "up", "up"] = none := by decide +kernel
  have hfit : ∀ x ∈ circular.tree.nodes, ¬TooLong "d" ["d"] x.1 := by decide +kernel
  obtain ⟨nodes, hnodes, hlisted⟩ := listing_whole_and_ordered hs hf rfl
  have hlink : Under circular.tree ["d"] ["d", "a", "up"] link.2 :=
    (Tree.under_iff hs.tree).mpr ⟨hat, ["a", "up"], by simp, rfl⟩
  refine ⟨hs, hf, nodes, hnodes, (hnodes.reached link).mpr hlink, fun n hn => ?_, ?_⟩
  · have hsome := ((hnodes.reached _).mp hn).at?
    rw [hup] at hsome
    cases hsome
  · exact (hlisted _ (List.reverse_perm _)).1.eq_ok fun x hx => hfit x (Tree.mem_of_at? ((hnodes.reached x).mp hx).at?)

/-! ## (5) Too deep a tree -/

/-- Directories of one name, one in the other, so many below the root. -/
def nested (name : String) (levels : Nat) : Host :=
  ⟨⟨(List.range (levels + 1)).map fun k => (List.replicate k name, ⟨.directory, newDirectory, 7⟩)⟩, [], ⟨0, 7⟩⟩

section Nested

variable {name : String} {k levels : Nat}

theorem mem_nested : x ∈ (nested name levels).tree.nodes ↔
    ∃ k, k ≤ levels ∧ x = (List.replicate k name, ⟨.directory, newDirectory, 7⟩) := by
  rw [nested, List.mem_map]
  constructor
  · rintro ⟨k, hk, rfl⟩
    exact ⟨k, Nat.le_of_lt_succ (List.mem_range.mp hk), rfl⟩
  · rintro ⟨k, hk, rfl⟩
    exact ⟨k, List.mem_range.mpr (Nat.lt_succ_of_le hk), rfl⟩

theorem nodup_nested (name : String) (levels : Nat) : ((nested name levels).tree.nodes.map Prod.fst).Nodup := by
  rw [nested, List.map_map]
  refine List.nodup_range.map fun a b he => ?_
  have hlen := congrArg List.length he
  simpa using hlen

theorem at?_nested (hk : k ≤ levels) :
    (nested name levels).tree.at? (List.replicate k name) = some ⟨.directory, newDirectory, 7⟩ :=
  Tree.lookup_of_mem (nodup_nested name levels) (mem_nested.mpr ⟨k, hk, rfl⟩)

theorem sound_nested (hn : IsName name) (levels : Nat) : (nested name levels).Sound := by
  have hroot : (nested name levels).tree.isDirectory [] = true :=
    Tree.isDirectory_iff.mpr ⟨_, at?_nested (Nat.zero_le levels), rfl⟩
  refine ⟨⟨hroot, fun x hx => ?_, fun x hx y hy => ?_, nodup_nested name levels⟩, hroot⟩
  · obtain ⟨k, hk, rfl⟩ := mem_nested.mp hx
    rw [List.dropLast_replicate]
    exact Tree.isDirectory_iff.mpr ⟨_, at?_nested (by omega), rfl⟩
  · obtain ⟨k, -, rfl⟩ := mem_nested.mp hx
    rwa [List.eq_of_mem_replicate hy]

theorem utf8ByteSize_joined_replicate (name : String) (k : Nat) :
    (joined (List.replicate (k + 1) name)).utf8ByteSize = name.utf8ByteSize * (k + 1) + k := by
  induction k with
  | zero => simp [joined]
  | succ k ih =>
    rw [List.replicate_succ, joined, String.intercalate_cons_of_ne_nil (by simp)]
    rw [joined] at ih
    rw [String.utf8ByteSize_append, String.utf8ByteSize_append, ih, Nat.mul_succ _ (k + 1)]
    have hslash : "/".utf8ByteSize = 1 := by decide
    omega

/-- Only what is deep enough has too long a text. -/
theorem tooLong_replicate_iff : TooLong "/" [] (List.replicate (k + 1) name) ↔
    Tree.pathLimit ≤ 1 + (name.utf8ByteSize * (k + 1) + k) := by
  have htext : textBelow "/" [] (List.replicate (k + 1) name) = "/" ++ joined (List.replicate (k + 1) name) := rfl
  have hslash : "/".utf8ByteSize = 1 := by decide
  rw [TooLong, htext, String.utf8ByteSize_append, utf8ByteSize_joined_replicate, hslash]

/-- Where the last directory's text is too long, and only that one, listing ends there. -/
theorem list_nested (hn : IsName name) (hfit : 1 + (name.utf8ByteSize * k + k) ≤ Tree.pathLimit)
    (hlong : Tree.pathLimit ≤ 1 + (name.utf8ByteSize * (k + 1) + k)) :
    list "/" true (nested name (k + 1)) =
      .error (.refused .status (textBelow "/" [] (List.replicate (k + 1) name)) .nameTooLong) := by
  have hs := sound_nested hn (k + 1)
  have hdeep : Under (nested name (k + 1)).tree [] (List.replicate (k + 1) name) ⟨.directory, newDirectory, 7⟩ :=
    (Tree.under_iff hs.tree).mpr ⟨at?_nested (Nat.le_refl _), List.replicate (k + 1) name, by simp, rfl⟩
  have hlisted := listed_true hs (find_root (at?_nested (Nat.zero_le _))) rfl
  generalize list "/" true (nested name (k + 1)) = r at hlisted
  cases hlisted with
  | whole hall =>
    have hmem : (List.replicate (k + 1) name, ⟨.directory, newDirectory, 7⟩) ∈ nodesBelow (nested name (k + 1)).tree [] :=
      (mem_nodesBelow_iff_under hs.tree).mpr hdeep
    exact absurd (tooLong_replicate_iff.mpr hlong) (hall _ hmem)
  | refused x hx hx' =>
    obtain ⟨p, d⟩ := x
    obtain ⟨hat, -, hne⟩ := (mem_nodesBelow hs.tree).mp hx
    obtain ⟨m, hm, he⟩ := mem_nested.mp (Tree.mem_of_at? hat)
    obtain ⟨rfl, -⟩ := Prod.mk.inj he
    obtain ⟨m, rfl⟩ : ∃ l, m = l + 1 := Nat.exists_eq_succ_of_ne_zero fun h0 => hne (congrArg (List.replicate · name) h0)
    replace hx' := tooLong_replicate_iff.mp hx'
    obtain rfl : m = k := by
      by_contra hmk
      have hmul : name.utf8ByteSize * (m + 1) ≤ name.utf8ByteSize * k := Nat.mul_le_mul_left _ (by omega)
      omega
    rfl

end Nested

/-- A name of as many octets as a name may have. -/
def longName : String := String.ofList (List.replicate Tree.nameLimit 'n')

theorem utf8ByteSize_longName : longName.utf8ByteSize = Tree.nameLimit := by decide +kernel

theorem isName_longName : IsName longName := by
  have hlist : longName.toList = List.replicate Tree.nameLimit 'n' := String.toList_ofList
  have hne : ∀ s : String, s.toList.length ≠ Tree.nameLimit → longName ≠ s := by
    rintro s hs rfl
    exact hs (by rw [hlist, List.length_replicate])
  refine ⟨hne _ (by decide), ?_, hne _ (by decide), hne _ (by decide), Nat.le_of_eq utf8ByteSize_longName⟩
  rw [hlist, List.mem_replicate]
  exact fun h => absurd h.2 (by decide)

/-- A directory opens, and listing it ends sixteen directories below: the names are as long as they may be, and
    no text leads there. -/
theorem a_tree_too_deep_to_list :
    (nested longName 16).Sound ∧ openDirectory "." (nested longName 16) = .ok "/" ∧
      Under (nested longName 16).tree [] (List.replicate 16 longName) ⟨.directory, newDirectory, 7⟩ ∧
      list "/" true (nested longName 16) =
        .error (.refused .status (textBelow "/" [] (List.replicate 16 longName)) .nameTooLong) := by
  have hs := sound_nested isName_longName 16
  refine ⟨hs, by rfl, (Tree.under_iff hs.tree).mpr ⟨at?_nested (Nat.le_refl 16), _, ?_, rfl⟩, ?_⟩
  · simp
  · refine list_nested isName_longName ?_ ?_ <;> rw [utf8ByteSize_longName] <;> decide

end Host

end FlatPackage
