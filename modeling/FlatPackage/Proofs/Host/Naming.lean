/-
  FlatPackage.Proofs.Host.Naming — what a path names, and what its normal form names.

  A path is put in normal form before it is described, opened or listed. On a sound host the normal
  form leads where the path leads if every `..` of the path retraces (`Retraces`), as it does behind
  a directory itself and in a path without `..`. Behind a link to a directory elsewhere it does not, and
  what is then described, read or listed is something else that may well be there.

  Proved:
  (1) `resolve_absolute`: the normal form of a path that retraces leads where the path leads.
  (2) `describedAs`: the description and the contents are those of the node that the path names.
  (3) `listedAs`: the directory that the path leads to is opened and listed.
  (4) `listedAs_astray`: a path that does not come back at its end is listed as another directory.
  (5) `normal_form_names`: all of this of describing, reading and listing by a path.
  Trace: a link to a directory beside it, through which a path retraces, and one to a directory that is
  elsewhere (`there_and_back`, `another_file_behind_a_link`).
-/

import FlatPackage.Proofs.Host.Enumeration
import FlatPackage.Proofs.Tree.Retracing

namespace FlatPackage.Host

open FlatPackage.Tree (IsName Node Reached Spot linkLimit origin pathLimit)
open FlatPackage.Path (Absolute steps)

variable {h : Host} {s : String} {follow : Bool} {spot : Spot} {p dir : Place} {n m : Node} {l : List String}

/-! ## (1) The normal form of a path -/

theorem resolve_absolute (hs : h.Sound) (hr : h.resolve follow s = .ok spot) (hback : h.Retraces s)
    (hl : (h.absolute s).text.utf8ByteSize < pathLimit) : h.resolve follow (h.absolute s).text = .ok spot := by
  obtain ⟨hne, -, k, hk, hw⟩ := resolve_eq_ok_iff.mp hr
  obtain ⟨k', hk', hw'⟩ := (reached_origin hs s).walks hs.tree (by omega) (Path.steps_ne_nil hne) steps_nonempty hback hw
  rw [← absolute_eq hs hne] at hw'
  exact (h.resolve_text (isName_absolute hs hr) hl).mpr ⟨k', by omega, hw'⟩

theorem find_absolute (hs : h.Sound) (hf : h.find follow s = .ok (p, n)) (hback : h.Retraces s)
    (hl : (h.absolute s).text.utf8ByteSize < pathLimit) : h.find follow (h.absolute s).text = .ok (p, n) :=
  find_eq_ok_iff.mpr (resolve_absolute hs (find_eq_ok_iff.mp hf) hback hl)

/-! ## (2) Describing and reading -/

/-- A path is described as a node, and opened as a file if the node is one. -/
structure DescribedAs (h : Host) (s : String) (n : Node) : Prop where
  described : ∃ followed, h.describe s = .ok (Descriptor.ofNode h.clocks (h.absolute s).text (h.absolute s).name n followed) ∧
    ∀ q m, h.find true s = .ok (q, m) → followed = some m
  read : ∀ data, n.content = .file data → ∃ d, openFile s h = .ok d ∧ readOpened d h = .ok data
  refused : (∀ data, n.content ≠ .file data) → openFile s h = .error .notARegularFile

theorem kind_eq_file_iff : n.content.kind = .file ↔ ∃ data, n.content = .file data := by
  cases n.content <;> simp [Tree.Content.kind]

theorem describedAs (hs : h.Sound) (hf : h.find false s = .ok (p, n)) (hback : h.Retraces s)
    (hl : (h.absolute s).text.utf8ByteSize < pathLimit) : h.DescribedAs s n := by
  have hne : s ≠ "" := (resolve_eq_ok_iff.mp (find_eq_ok_iff.mp hf)).1
  have hfound := find_absolute hs hf hback hl
  have hdescribe := describe_eq hne hfound
  refine ⟨⟨_, hdescribe, fun q m hm => ?_⟩, fun data hfile => ?_, fun hno => ?_⟩
  · rw [find_absolute hs hm hback hl]
    rfl
  · exact exists_openFile hne hfound hfile
  · have hkind : n.content.kind ≠ .file := fun he => (kind_eq_file_iff.mp he).elim hno
    exact (openFile_eq hdescribe).trans (if_neg hkind)

/-! ## (3) Listing -/

/-- A path is opened as a directory, and the listings are of what is below it and of what is directly in it. -/
structure ListedAs (h : Host) (s : String) (dir : Place) : Prop where
  listed : ∃ root, openDirectory s h = .ok root ∧
    Listed h root dir (nodesBelow h.tree dir) (list root true h) ∧
    Listed h root dir ((nodesBelow h.tree dir).filter fun x => (h.shown root dir x).isDirect) (list root false h)

/-- Without a slash at the end a text is no longer. -/
theorem textOf_names_le (p : Absolute) : (textOf p.names).utf8ByteSize ≤ p.text.utf8ByteSize := by
  have htext : p.text = textOf p.names ++ if p.slashed ∧ p.names ≠ [] then "/" else "" := by
    simp [textOf, Absolute.text, Absolute.ofPlace]
  rw [htext, String.utf8ByteSize_append]
  exact Nat.le_add_right _ _

/-- The names of a normal form that lead to a directory are opened and listed as that directory. -/
theorem listedAs_of_reached (hs : h.Sound) (hne : s ≠ "") (hnames : ∀ x ∈ (h.absolute s).names, IsName x)
    (hl : (h.absolute s).text.utf8ByteSize < pathLimit) (hr : Reached h.tree linkLimit (h.absolute s) dir) :
    h.ListedAs s dir := by
  obtain ⟨n, hf, hc⟩ := (reaches_of_reached hr hnames (Nat.lt_of_le_of_lt (textOf_names_le _) hl)).directory
  have hopen : openDirectory s h = .ok (textOf (h.absolute s).names) := by
    have htext : (h.absolute s).closed.text = textOf (h.absolute s).names := rfl
    rw [openDirectory, if_neg hne]
    simp only [htext, hf, if_pos hc]
  exact ⟨_, hopen, listed_true hs hf hc, listed_false hs hf hc⟩

theorem listedAs (hs : h.Sound) (hf : h.find true s = .ok (dir, n)) (hc : n.content = .directory) (hback : h.Retraces s)
    (hl : (h.absolute s).text.utf8ByteSize < pathLimit) : h.ListedAs s dir := by
  have hr := find_eq_ok_iff.mp hf
  exact listedAs_of_reached hs (resolve_eq_ok_iff.mp hr).1 (isName_absolute hs hr) hl (reached_absolute hs hf hc hback)

/-! ## (4) Another directory -/

/-- Where a path ends by going up and only that does not retrace, another directory is described and listed. -/
theorem listedAs_astray (hs : h.Sound) (hf : h.find true s = .ok (dir, n)) (hsteps : steps s = l ++ [".."])
    (hr : h.tree.Retraces (.ofPlace (origin h.here s)) l)
    (hback : ¬h.tree.GoesBack (l.foldl Absolute.add (.ofPlace (origin h.here s))).names)
    (hl : (h.absolute s).text.utf8ByteSize < pathLimit) :
    ∃ other m, other ≠ dir ∧ m.content = .directory ∧ h.tree.at? other = some m ∧ h.ListedAs s other ∧
      h.describe s = .ok (Descriptor.ofNode h.clocks (h.absolute s).text (h.absolute s).name m (some m)) := by
  have hresolve := find_eq_ok_iff.mp hf
  obtain ⟨hne, -, k, hk, hw⟩ := resolve_eq_ok_iff.mp hresolve
  rw [hsteps] at hw
  obtain ⟨k₁, k₂, d, hsum, hw₁, hd, hw₂⟩ := (Tree.walks_append_iff hs.tree (hs.origin s) (by simp)).mp hw
  have hdrop : dir = d.dropLast := congrArg Spot.place hw₂.of_up.of_nil
  have hfront := (reached_origin hs s).foldl hs.tree (by omega)
    (fun x hx => steps_nonempty x (hsteps ▸ List.mem_append_left _ hx)) hr hw₁ hd
  obtain ⟨other, hother, hreached⟩ := hfront.astray hs.tree (by omega) hback
  have habs : h.absolute s = (l.foldl Absolute.add (.ofPlace (origin h.here s))).add ".." := by
    rw [absolute_eq hs hne, hsteps, List.foldl_concat]
  rw [← habs] at hreached
  obtain ⟨m, hm, hc⟩ := Tree.isDirectory_iff.mp hreached.directory
  have hnames := isName_absolute hs hresolve
  have hfound : ∀ follow, h.find follow (h.absolute s).text = .ok (other, m) := by
    intro follow
    have hslashed : (h.absolute s).slashed = true := habs ▸ Absolute.slashed_add _ (.inr rfl)
    obtain ⟨k', hk', hw'⟩ := hreached.walks_slashed hslashed follow
    rw [hm] at hw'
    exact find_eq_ok_iff.mpr ((h.resolve_text hnames hl).mpr ⟨k', by omega, hw'⟩)
  refine ⟨other, m, hdrop ▸ hother, hc, hm, listedAs_of_reached hs hne hnames hl (hreached.mono (by omega)), ?_⟩
  rw [describe_eq hne (hfound false), hfound true]
  rfl

/-! ## (5) What a path names -/

/-- A normal form that is too long leads nowhere, wherever the path leads. -/
theorem describe_of_long (hne : s ≠ "") (hl : pathLimit ≤ (h.absolute s).text.utf8ByteSize) :
    h.describe s = .error (.refused .status (h.absolute s).text .nameTooLong) := by
  have hf : h.find false (h.absolute s).text = .error .nameTooLong :=
    find_of_error (resolve_of_long (h.absolute s).text_ne_empty hl)
  rw [describe, if_neg hne]
  exact describeAt_of_error hf _

/-- For every file system, working directory and path that is not too long in normal form. Where every
    `..` of the path retraces, the path is described as the node that it names and read as the file that
    it names, and a path to a directory is accepted and lists that directory. Where the path's only
    `..` that does not retrace is its end, a directory is described and listed too, and it is another one. A path
    that is too long in normal form is not described. -/
theorem normal_form_names (hs : h.Sound) (s : String) :
    ((h.absolute s).text.utf8ByteSize < pathLimit → h.Retraces s →
      (∀ p n, h.find false s = .ok (p, n) → h.DescribedAs s n) ∧
      ∀ dir n, h.find true s = .ok (dir, n) → n.content = .directory → h.ListedAs s dir) ∧
    ((h.absolute s).text.utf8ByteSize < pathLimit → ∀ l dir n, steps s = l ++ [".."] →
      h.tree.Retraces (.ofPlace (origin h.here s)) l →
      ¬h.tree.GoesBack (l.foldl Absolute.add (.ofPlace (origin h.here s))).names → h.find true s = .ok (dir, n) →
      ∃ other m, other ≠ dir ∧ m.content = .directory ∧ h.tree.at? other = some m ∧ h.ListedAs s other ∧
        h.describe s = .ok (Descriptor.ofNode h.clocks (h.absolute s).text (h.absolute s).name m (some m))) ∧
    (pathLimit ≤ (h.absolute s).text.utf8ByteSize → s ≠ "" →
      h.describe s = .error (.refused .status (h.absolute s).text .nameTooLong)) :=
  ⟨fun hl hback => ⟨fun _ _ hf => describedAs hs hf hback hl, fun _ _ hf hc => listedAs hs hf hc hback hl⟩,
    fun hl _ _ _ hsteps hr hback hf => listedAs_astray hs hf hsteps hr hback hl, fun hl hne => describe_of_long hne hl⟩

/-- In `here` a link `k` leads to a directory beside it, and a link `l` to one that is elsewhere. Both `here` and
    `else` have a file `f`. -/
def crossing : Host :=
  Host.bare ["here"] ⟨0, 7⟩ |>.addDirectory "/else/d" newDirectory |>.addDirectory "/else/only" newDirectory
    |>.addDirectory "d" newDirectory |>.addFile "/else/f" [1] 0o640 |>.addFile "d/x" [5] 0o640
    |>.addFile "f" [2, 3] 0o640 |>.addLink "k" "d" |>.addLink "l" "/else/d"

/-- Through `k` and up again a path retraces. Through `l` and up again it leads to one directory, and another one
    is listed. -/
theorem there_and_back :
    let x : Node := ⟨.file [5], 0o640, 7⟩
    let d : Node := ⟨.directory, newDirectory, 7⟩
    crossing.Sound ∧ crossing.Retraces "k/../d//./x" ∧ crossing.Retraces "k/.././k" ∧
      crossing.find false "k/../d//./x" = .ok (["here", "d", "x"], x) ∧ crossing.DescribedAs "k/../d//./x" x ∧
      crossing.find true "k/.././k" = .ok (["here", "d"], d) ∧ crossing.ListedAs "k/.././k" ["here", "d"] ∧
      crossing.find true "l/.." = .ok (["else"], d) ∧ ∃ other, other ≠ ["else"] ∧ crossing.ListedAs "l/.." other := by
  intro x d
  have hs : crossing.Sound := by decide +kernel
  have hfile : crossing.find false "k/../d//./x" = .ok (["here", "d", "x"], x) := by decide +kernel
  have hdirectory : crossing.find true "k/.././k" = .ok (["here", "d"], d) := by decide +kernel
  have hup : crossing.find true "l/.." = .ok (["else"], d) := by decide +kernel
  have hback : crossing.Retraces "k/../d//./x" := by decide +kernel
  have hback' : crossing.Retraces "k/.././k" := by decide +kernel
  obtain ⟨hnames, -, -⟩ := normal_form_names hs "k/../d//./x"
  obtain ⟨hnames', -, -⟩ := normal_form_names hs "k/.././k"
  obtain ⟨-, hastray, -⟩ := normal_form_names hs "l/.."
  obtain ⟨other, -, hother, -, -, hlisted, -⟩ :=
    hastray (by decide +kernel) ["l"] ["else"] d (by decide +kernel) (by decide +kernel) (by decide +kernel) hup
  exact ⟨hs, hback, hback', hfile, (hnames (by decide +kernel) hback).1 _ x hfile, hdirectory,
    (hnames' (by decide +kernel) hback').2 _ d hdirectory rfl, hup, other, hother, hlisted⟩

/-- The path leads to one file, and another one is read. A directory that a path leads to is refused. -/
theorem another_file_behind_a_link :
    let named : Node := ⟨.file [1], 0o640, 7⟩
    let d : Node := ⟨.directory, newDirectory, 7⟩
    crossing.Sound ∧ (crossing.absolute "l/../f").text.utf8ByteSize < pathLimit ∧
      crossing.find false "l/../f" = .ok (["else", "f"], named) ∧ ¬crossing.DescribedAs "l/../f" named ∧
      (openFile "l/../f" crossing >>= fun opened => readOpened opened crossing) = .ok [2, 3] ∧
      crossing.find true "l/../only" = .ok (["else", "only"], d) ∧
      openDirectory "l/../only" crossing = .error .notAnExistingDirectory := by
  intro named d
  have hread : (openFile "l/../f" crossing >>= fun opened => readOpened opened crossing) = .ok [2, 3] := by
    decide +kernel
  refine ⟨by decide +kernel, by decide +kernel, by decide +kernel, fun hdescribed => ?_, hread, by decide +kernel, by decide +kernel⟩
  obtain ⟨opened, hopen, hdata⟩ := hdescribed.read [1] rfl
  rw [hopen] at hread
  have hother : readOpened opened crossing = .ok [2, 3] := hread
  rw [hdata] at hother
  cases hother

end FlatPackage.Host
