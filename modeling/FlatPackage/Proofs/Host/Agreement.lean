/-
  FlatPackage.Proofs.Host.Agreement — what a path describes is what its directory lists.

  A node is described under the normal form of a path, and it is listed under the names below the directory
  that it is in. On a sound host the normal form of a path that takes no link has the names of the node's
  own place, whichever way the path is spelled, so both descriptions are of one node and agree in all that
  is recorded of it; only the time of what a link leads to can differ, since the links of the directory's own
  path count as well. They differ in what the node is called: a normal form has no last name where the
  path ends in a slash or in dots, and a directory is then described without a name.

  Proved:
  (1) `Walks.names_foldl`, `Direct.absolute_eq`: the normal form of a path that takes no link.
  (2) `Direct.find_absolute`: the node is found by the normal form.
  (3) `mem_list`: the one entry of a listing with the node's name.
  (4) `described_as_listed`: both descriptions.
  Trace: a link in a directory, by a path with a detour (`a_link_by_a_detour`), and the directory with a slash
  behind it (`a_directory_without_a_name`).
-/

import FlatPackage.Proofs.Host.Naming

namespace FlatPackage

open FlatPackage.Tree (IsName Node Spot Walks linkLimit origin pathLimit)
open FlatPackage.Path (Absolute IsDots lastPiece steps)

namespace Path

/-- A text that ends in a slash or in dots. -/
def EndsInDots (s : String) : Prop := lastPiece s = "" ∨ lastPiece s = "." ∨ lastPiece s = ".."

instance (s : String) : Decidable (EndsInDots s) := inferInstanceAs (Decidable (_ ∨ _ ∨ _))

/-- The last step of a text tells whether the text ends so. -/
theorem exists_last {s : String} (hne : s ≠ "") : ∃ l x, steps s = l ++ [x] ∧ (EndsInDots s ↔ IsDots x) := by
  obtain ⟨ps, last, hp⟩ := exists_pieces s
  have hlast : lastPiece s = String.ofList last := by simp [lastPiece, hp]
  refine ⟨_, _, steps_of_pieces hne hp, ?_⟩
  rw [EndsInDots, hlast]
  by_cases hnil : last = []
  · simp [hnil, IsDots]
  · have hempty : String.ofList last ≠ "" := by simpa using hnil
    rw [if_neg hnil, or_iff_right hempty, IsDots]

theorem Absolute.names_add {x : String} (hx : Tree.Passable x) (hne : x ≠ "") (q : Absolute) :
    (q.add x).names = q.names ++ [x] := by
  rw [q.add_name hne fun hdots => hdots.elim hx.notHere hx.notUp]

end Path

open FlatPackage.Path (EndsInDots)

variable {t : Tree} {h : Host} {follow : Bool} {s root name : String} {dir p : Place} {n m : Node}
  {l : List String} {spot : Spot}

/-! ## (1) The normal form of a path that takes no link -/

/-- Names that pass only directories are in normal form where they lead. -/
theorem Tree.Walks.names_foldl (hw : Walks t follow 0 dir l spot) (hl : ∀ x ∈ l, x ≠ "") {q : Absolute}
    (hq : q.names = dir) : (l.foldl Absolute.add q).names = spot.place := by
  generalize hk : 0 = k at hw
  induction hw generalizing q with
  | done => exact hq
  | here _ ih => exact ih (fun x hx => hl x (List.mem_cons_of_mem _ hx)) (by rw [Absolute.add_here, hq]) hk
  | up _ ih => exact ih (fun x hx => hl x (List.mem_cons_of_mem _ hx)) (by rw [Absolute.add_up, hq]) hk
  | free hn => rw [List.foldl_cons, List.foldl_nil, q.names_add hn (hl _ List.mem_cons_self), hq]
  | last hn => rw [List.foldl_cons, List.foldl_nil, q.names_add hn (hl _ List.mem_cons_self), hq]
  | into hn _ _ _ ih =>
    exact ih (fun x hx => hl x (List.mem_cons_of_mem _ hx)) (by rw [q.names_add hn (hl _ List.mem_cons_self), hq]) hk
  | through => cases hk

namespace Host

theorem slashed_absolute_iff (hs : h.Sound) (hne : s ≠ "") : (h.absolute s).slashed = true ↔ EndsInDots s := by
  obtain ⟨l, x, hsteps, hdots⟩ := Path.exists_last hne
  have hmem : x ∈ steps s := by simp [hsteps]
  have hx : x ≠ "" := steps_nonempty x hmem
  rw [absolute_eq hs hne, hsteps, List.foldl_concat, hdots]
  by_cases hend : IsDots x
  · exact ⟨fun _ => hend, fun _ => Absolute.slashed_add _ hend⟩
  · rw [Absolute.add_name _ hx hend]
    exact ⟨fun hno => Bool.noConfusion hno, fun hd => absurd hd hend⟩

/-- A path leads to a node itself, and passes no link on its way. -/
def Direct (h : Host) (s : String) (p : Place) (n : Node) : Prop :=
  s ≠ "" ∧ h.tree.walk false 0 (origin h.here s) (steps s) = .ok ⟨p, some n⟩

instance (h : Host) (s : String) (p : Place) (n : Node) : Decidable (h.Direct s p n) :=
  inferInstanceAs (Decidable (_ ∧ _))

namespace Direct

variable (hd : h.Direct s p n)

include hd

theorem walks : Walks h.tree false 0 (origin h.here s) (steps s) ⟨p, some n⟩ := by
  obtain ⟨k, hk, hw⟩ := Tree.walk_eq_ok_iff.mp hd.2
  rwa [Nat.le_zero.mp hk] at hw

theorem at?_eq : h.tree.at? p = some n := hd.walks.node_eq.symm

variable (hs : h.Sound)

include hs

theorem names_absolute : (h.absolute s).names = p := by
  rw [absolute_eq hs hd.1]
  exact hd.walks.names_foldl steps_nonempty rfl

/-- The normal form has the names of the node's place, and goes on behind them if the path ends in dots. -/
theorem absolute_eq : h.absolute s = ⟨p, decide (EndsInDots s)⟩ := by
  have hslashed : (h.absolute s).slashed = decide (EndsInDots s) :=
    Bool.eq_iff_iff.mpr ((slashed_absolute_iff hs hd.1).trans decide_eq_true_iff.symm)
  rw [← hslashed, ← hd.names_absolute hs]

/-- Only a directory's path ends in a slash or in dots. -/
theorem content_of_dots (hdots : EndsInDots s) : n.content = .directory := by
  obtain ⟨l, x, hsteps, hlast⟩ := Path.exists_last hd.1
  have hw := hd.walks
  rw [hsteps] at hw
  obtain ⟨k₁, k₂, e, -, -, he, hw₂⟩ := (Tree.walks_append_iff hs.tree (hs.origin s) (by simp)).mp hw
  obtain ⟨m, hm, hc⟩ := Tree.isDirectory_iff.mp (hw₂.of_dots (hlast.mp hdots) hs.tree he).1
  rw [hd.at?_eq] at hm
  rwa [Option.some.inj hm]

/-! ## (2) What is found by the normal form -/

variable (hl : (h.absolute s).text.utf8ByteSize < pathLimit)

include hl

theorem find_absolute : h.find false (h.absolute s).text = .ok (p, n) := by
  have hname : ∀ x ∈ (h.absolute s).names, IsName x :=
    (hd.names_absolute hs).symm ▸ fun x hx => hs.tree.isName hd.at?_eq x hx
  have hnode : (⟨p, some n⟩ : Spot) = ⟨p, h.tree.at? p⟩ := by rw [hd.at?_eq]
  rw [find_eq_ok_iff, h.resolve_text hname hl, hnode, hd.absolute_eq hs]
  refine ⟨0, Nat.zero_le _, ?_⟩
  by_cases hdots : EndsInDots s
  · have hc := hd.content_of_dots hs hdots
    have hp : h.tree.isDirectory p = true := Tree.isDirectory_iff.mpr ⟨n, hd.at?_eq, hc⟩
    have hw : Walks h.tree true 0 [] p ⟨p, h.tree.at? p⟩ := Tree.walks_names hs.tree hd.at?_eq fun _ => by simp [hc]
    rw [Absolute.steps, if_pos (decide_eq_true hdots)]
    exact hw.append rfl hp (by simp) (.here .done)
  · rw [Absolute.steps, if_neg (mt of_decide_eq_true hdots)]
    exact Tree.walks_names hs.tree hd.at?_eq fun hfalse => Bool.noConfusion hfalse

end Direct

/-! ## (3) The entry of a listing -/

theorem relative_child (dir : Place) (name : String) : relative dir (dir ++ [name]) = name := by
  rw [relative, List.drop_left, Path.joined, String.intercalate_singleton]

/-- What is listed with a node's path is the node. -/
theorem eq_shown (ht : h.tree.Sound) (hmem : (p, n) ∈ nodesBelow h.tree dir) {e : Descriptor}
    (he : e ∈ (nodesBelow h.tree dir).map (h.shown root dir)) (hname : e.relative = relative dir p) :
    e = h.shown root dir (p, n) := by
  obtain ⟨y, hy, rfl⟩ := List.mem_map.mp he
  have hplace : y.1 = p := relative_inj ht hy hmem hname
  have hnode := ((mem_nodesBelow ht).mp hy).1
  rw [hplace, ((mem_nodesBelow ht).mp hmem).1] at hnode
  have hsame : y = (p, n) := Prod.ext hplace (Option.some.inj hnode).symm
  rw [hsame]

/-- A node below a directory is in the long listing of it, and in the short one if it is directly there, and
    nothing else is with its path. -/
theorem mem_list (hs : h.Sound) (hf : h.find true root = .ok (dir, m)) (hc : m.content = .directory)
    (hmem : (p, n) ∈ nodesBelow h.tree dir) {recursive : Bool} (hr : recursive = true ∨ p.length = dir.length + 1)
    {entries : List Descriptor} (hlist : list root recursive h = .ok entries) :
    h.shown root dir (p, n) ∈ entries ∧ ∀ e ∈ entries, e.relative = relative dir p → e = h.shown root dir (p, n) := by
  cases recursive with
  | true =>
    obtain ⟨-, rfl⟩ := (listed_true hs hf hc).eq_ok_iff.mp hlist
    exact ⟨List.mem_map_of_mem hmem, fun e he => eq_shown hs.tree hmem he⟩
  | false =>
    obtain ⟨-, rfl⟩ := (listed_false hs hf hc).eq_ok_iff.mp hlist
    have hdirect : (h.shown root dir (p, n)).isDirect = true := by
      rw [isDirect_shown hs.tree hmem]
      exact beq_iff_eq.mpr (hr.resolve_left Bool.false_ne_true)
    refine ⟨List.mem_map_of_mem (List.mem_filter.mpr ⟨hmem, hdirect⟩), fun e he => eq_shown hs.tree hmem ?_⟩
    exact List.map_subset _ (List.filter_subset_self _) he

/-- A node that is directly in a directory is in both listings, under its own name. -/
theorem mem_list_child (hs : h.Sound) (hf : h.find true root = .ok (dir, m)) (hc : m.content = .directory)
    (hn : h.tree.at? (dir ++ [name]) = some n) (recursive : Bool) (entries : List Descriptor)
    (hlist : list root recursive h = .ok entries) : h.shown root dir (dir ++ [name], n) ∈ entries ∧
      ∀ e ∈ entries, e.relative = name → e = h.shown root dir (dir ++ [name], n) := by
  have hmem : (dir ++ [name], n) ∈ nodesBelow h.tree dir :=
    (mem_nodesBelow hs.tree).mpr ⟨hn, List.prefix_append _ _, by simp⟩
  have hlisted := mem_list hs hf hc hmem (.inr (by simp)) hlist
  rwa [relative_child] at hlisted

/-! ## (4) Both descriptions -/

theorem Direct.describe_eq (hd : h.Direct s (dir ++ [name]) n) (hs : h.Sound)
    (hl : (h.absolute s).text.utf8ByteSize < pathLimit) (root : String) : ∃ t, h.describe s =
      .ok { h.shown root dir (dir ++ [name], n) with
        absolute := (h.absolute s).text, relative := if EndsInDots s then "" else name, mtime := t } ∧
      ((∀ target, n.content ≠ .symlink target) → t = h.clocks.seconds n.mtime) := by
  have hname : (h.absolute s).name = if EndsInDots s then "" else name := by
    rw [hd.absolute_eq hs, Absolute.name]
    simp
  have hfound := hd.find_absolute hs hl
  have hdescribe := Host.describe_eq hd.1 hfound
  rw [hname] at hdescribe
  refine ⟨_, hdescribe, fun hno => ?_⟩
  · have htrue := resolve_of_noLink (find_eq_ok_iff.mp hfound) fun m target hm => Option.some.inj hm ▸ hno target
    rw [find_eq_ok_iff.mpr htrue]
    rfl

/-- A listed node that is no link is shown with its own time. -/
theorem mtime_shown (hs : h.Sound) (hf : h.find true root = .ok (dir, m)) (hc : m.content = .directory)
    (hn : h.tree.at? (dir ++ [name]) = some n) (hfit : ¬TooLong root dir (dir ++ [name]))
    (hno : ∀ target, n.content ≠ .symlink target) :
    (h.shown root dir (dir ++ [name], n)).mtime = h.clocks.seconds n.mtime := by
  have htext : textBelow root dir (dir ++ [name]) = Path.below root (Path.joined [name]) := by
    rw [textBelow, relative, List.drop_left]
  have hshort := Nat.not_le.mp hfit
  rw [htext] at hshort
  have hfind : h.find true _ = _ := find_below_path hs hf hc hn (by simp) hshort fun _ => hno
  show (Descriptor.ofNode h.clocks _ _ n ((h.find true (textBelow root dir (dir ++ [name]))).toOption.map Prod.snd)).mtime = _
  rw [htext, hfind]
  rfl

theorem directory_of_openDirectory {up : String} (hopen : openDirectory up h = .ok root)
    (hf : h.find true root = .ok (dir, m)) : m.content = .directory := by
  unfold openDirectory at hopen
  split at hopen
  · cases hopen
  · dsimp only at hopen
    split at hopen
    · rename_i q n hfound
      split at hopen
      · rename_i hc
        cases hopen
        rw [hfound] at hf
        cases hf
        exact hc
      · cases hopen
    · cases hopen

/-- For every file system, every directory that is opened and every path that leads to a node in it without
    passing a link. Both listings of the directory, where they are not refused for a text that is too long, have
    one entry with the node's name, and it is the same entry. The path is described as that entry, under the
    path's own normal form, and with the entry's time if the node is no link; but if the path ends in a slash, or
    in `.` or `..`, as only a directory's can, the description has no name. A path that is too long in normal
    form is not described. -/
theorem described_as_listed {up : String} (hs : h.Sound) (hopen : openDirectory up h = .ok root)
    (hf : h.find true root = .ok (dir, m)) (hd : h.Direct s (dir ++ [name]) n) :
    ∃ e : Descriptor, e.relative = name ∧ IsName name ∧
      (∀ recursive entries, list root recursive h = .ok entries →
        e ∈ entries ∧ ∀ e' ∈ entries, e'.relative = name → e' = e) ∧
      (∀ recursive, (∃ entries, list root recursive h = .ok entries) ↔
        ∀ x ∈ nodesBelow h.tree dir, recursive = true ∨ x.1.length = dir.length + 1 → ¬TooLong root dir x.1) ∧
      ((h.absolute s).text.utf8ByteSize < pathLimit → ∃ t, h.describe s =
          .ok { e with absolute := (h.absolute s).text, relative := if EndsInDots s then "" else name, mtime := t } ∧
        (¬TooLong root dir (dir ++ [name]) → (∀ target, n.content ≠ .symlink target) → t = e.mtime)) ∧
      (EndsInDots s → n.content = .directory) ∧
      (pathLimit ≤ (h.absolute s).text.utf8ByteSize →
        h.describe s = .error (.refused .status (h.absolute s).text .nameTooLong)) := by
  have hc := directory_of_openDirectory hopen hf
  refine ⟨h.shown root dir (dir ++ [name], n), relative_child dir name, hs.tree.isName hd.at?_eq name (by simp),
    mem_list_child hs hf hc hd.at?_eq, exists_list_iff hs hf hc, fun hl => ?_, hd.content_of_dots hs,
    describe_of_long hd.1⟩
  obtain ⟨t, hdescribe, ht⟩ := hd.describe_eq hs hl root
  exact ⟨t, hdescribe, fun hfit hno => (ht hno).trans (mtime_shown hs hf hc hd.at?_eq hfit hno).symm⟩

/-- A directory with a link in it that leads nowhere. -/
def shelf : Host := ((Host.bare ["here"] ⟨0, 7⟩).addDirectory "d" 0o710).addLink "d/l" "nowhere"

/-- The link is described through a detour as it is listed. -/
theorem a_link_by_a_detour :
    let s := "d/..//d/./l"
    let l : Node := ⟨.symlink "nowhere", newLink, 7⟩
    shelf.Sound ∧ openDirectory "./d/" shelf = .ok "/here/d" ∧
      shelf.find true "/here/d" = .ok (["here", "d"], ⟨.directory, 0o710, 7⟩) ∧ shelf.Direct s ["here", "d", "l"] l ∧
      ∃ (e : Descriptor) (t : Int), (∀ recursive, ∃ entries, list "/here/d" recursive shelf = .ok entries ∧ e ∈ entries) ∧
        shelf.describe s = .ok { e with absolute := "/here/d/l", mtime := t } := by
  intro s l
  have hs : shelf.Sound := by decide +kernel
  have hopen : openDirectory "./d/" shelf = .ok "/here/d" := by decide +kernel
  have hf : shelf.find true "/here/d" = .ok (["here", "d"], ⟨.directory, 0o710, 7⟩) := by decide +kernel
  have hd : shelf.Direct s (["here", "d"] ++ ["l"]) l := by decide +kernel
  have hfit : ∀ x ∈ shelf.tree.nodes, ¬TooLong "/here/d" ["here", "d"] x.1 := by decide +kernel
  obtain ⟨e, hname, -, hmem, hlist, hdescribe, -, -⟩ := described_as_listed hs hopen hf hd
  have hplain : ¬EndsInDots s := by decide +kernel
  have htext : (shelf.absolute s).text = "/here/d/l" := by decide +kernel
  obtain ⟨t, ht, -⟩ := hdescribe (by decide +kernel)
  rw [if_neg hplain, htext, ← hname] at ht
  refine ⟨hs, hopen, hf, hd, e, t, fun recursive => ?_, ht⟩
  obtain ⟨entries, hentries⟩ := (hlist recursive).mpr fun x hx _ =>
    hfit x (Tree.mem_of_at? ((mem_nodesBelow hs.tree).mp hx).1)
  exact ⟨entries, hentries, (hmem recursive entries hentries).1⟩

/-- With a slash behind it the directory is described without a name, although it is listed as `d`. -/
theorem a_directory_without_a_name :
    let e : Descriptor := ⟨"/here/d", "d", .directory, 0, 0o710, 0, ""⟩
    shelf.Direct "d/" ["here", "d"] ⟨.directory, 0o710, 7⟩ ∧ openDirectory "." shelf = .ok "/here" ∧
      (∃ entries, list "/here" false shelf = .ok entries ∧ e ∈ entries) ∧
      shelf.describe "d/" = .ok { e with absolute := "/here/d/", relative := "" } := by
  intro e
  have hs : shelf.Sound := by decide +kernel
  have hf : shelf.find true "/here" = .ok (["here"], ⟨.directory, newDirectory, 7⟩) := by decide +kernel
  have hn : shelf.tree.at? (["here"] ++ ["d"]) = some ⟨.directory, 0o710, 7⟩ := by decide +kernel
  have hfit : ∀ x ∈ shelf.tree.nodes, ¬TooLong "/here" ["here"] x.1 := by decide +kernel
  obtain ⟨entries, hlist⟩ := (exists_list_iff hs hf rfl false).mpr fun x hx _ =>
    hfit x (Tree.mem_of_at? ((mem_nodesBelow hs.tree).mp hx).1)
  have he : shelf.shown "/here" ["here"] (["here"] ++ ["d"], ⟨.directory, 0o710, 7⟩) = e := by decide +kernel
  have hmem := (mem_list_child hs hf rfl hn false entries hlist).1
  exact ⟨by decide +kernel, by decide +kernel, ⟨entries, hlist, he ▸ hmem⟩, by decide +kernel⟩

end Host

end FlatPackage
