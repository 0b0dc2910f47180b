/-
  FlatPackage.Proofs.Host.Describing — what a path's normal form leads to, and what is described by it.

  A path is put in normal form before it is described, opened or listed. On a sound host the names of
  the normal form lead to the directory that the path leads to, if every `..` of the path retraces
  (`Retraces`); in a path without `..` they are the names that it passes (`way`). With the names of a
  place below the directory behind them they lead to that place, so what is described, opened
  and read by such a text is the node at the place.

  Proved:
  (1) `reached_absolute`: a directory is reached by the names of its path's normal form.
  (2) `reaches_way`: a directory is reached by the names that its path passes.
  (3) `find_below_path`: what is below a directory is found by its own names behind the directory's path,
      whatever that is; `Reaches.find_below` says it of the normal form.
  (4) `Reaches.openFile_below`: a file below a directory is opened by that text, and read.
-/

import FlatPackage.Host.Listing
import FlatPackage.Proofs.Host.Finding
import FlatPackage.Proofs.Tree.Retracing

namespace FlatPackage.Host

open FlatPackage.Tree (IsName Node Reached Refusal Spot Walks linkLimit origin pathLimit)
open FlatPackage.Path (Absolute joined names plain steps)

variable {h : Host} {s : String} {p dir : Place} {ns rel : List String} {n m : Node} {follow : Bool} {spot : Spot}

/-! ## (1) Normal forms -/

theorem isName_here (hs : h.Sound) : ∀ x ∈ h.here, IsName x := by
  obtain ⟨n, hn, -⟩ := Tree.isDirectory_iff.mp hs.here
  exact hs.tree.isName hn

/-- What a text in normal form leads to is the end of the walk over its names. -/
theorem resolve_text (h : Host) {p : Absolute} (hns : ∀ x ∈ p.names, IsName x) (hl : p.text.utf8ByteSize < pathLimit) :
    h.resolve follow p.text = .ok spot ↔ ∃ k, k ≤ linkLimit ∧ Walks h.tree follow k [] p.steps spot := by
  have horigin : origin h.here p.text = [] := by rw [origin, if_pos p.isRooted_text]
  rw [resolve_eq_ok_iff, horigin]
  have hsteps : ∀ k, Walks h.tree follow k [] (steps p.text) spot ↔ Walks h.tree follow k [] p.steps spot := by
    intro k
    by_cases hne : p.names = []
    · -- the root is one slash, and is walked by one step that stays
      have hroot : steps p.text = ["."] := by
        rw [Absolute.text, hne, if_neg (by simp)]
        decide
      rw [hroot, Absolute.steps, hne]
      split
      · rfl
      · exact ⟨fun hw => hw.of_here, fun hw => .here hw⟩
    · rw [Path.steps_text_absolute hne hns]
  simp only [hsteps, p.text_ne_empty, ne_eq, not_false_eq_true, hl, true_and]

theorem absolute_eq (hs : h.Sound) (hne : s ≠ "") :
    h.absolute s = (steps s).foldl Absolute.add (.ofPlace (origin h.here s)) :=
  Path.absolute_eq_foldl (isName_here hs) hne

/-- The names of a path's normal form are ones that nodes can have. -/
theorem isName_absolute (hs : h.Sound) (hr : h.resolve follow s = .ok spot) : ∀ x ∈ (h.absolute s).names, IsName x := by
  obtain ⟨hne, -⟩ := resolve_eq_ok_iff.mp hr
  obtain ⟨d, hd, -⟩ := Tree.isDirectory_iff.mp (hs.origin s)
  rw [absolute_eq hs hne]
  exact Path.isName_foldl (fun x hx => isName_of_mem_steps hr hx) fun x hx => hs.tree.isName hd x hx

/-- The names of the place where a path starts lead there. -/
theorem reached_origin (hs : h.Sound) (s : String) : Reached h.tree 0 (.ofPlace (origin h.here s)) (origin h.here s) := by
  obtain ⟨m, hm, hc⟩ := Tree.isDirectory_iff.mp (hs.origin s)
  have hnolink : ∀ target, m.content ≠ .symlink target := by simp [hc]
  have hw : Walks h.tree true 0 [] (origin h.here s) ⟨origin h.here s, h.tree.at? (origin h.here s)⟩ :=
    Tree.walks_names hs.tree hm fun _ => hnolink
  exact ⟨⟨0, Nat.le_refl _, hw⟩, hs.origin s⟩

theorem steps_nonempty : ∀ x ∈ steps s, x ≠ "" := fun _ hx => (Path.isStep_of_mem_steps hx).nonempty

/-- Wherever the path goes up, its normal form goes to the same directory. -/
def Retraces (h : Host) (s : String) : Prop := h.tree.Retraces (.ofPlace (origin h.here s)) (steps s)

instance (h : Host) (s : String) : Decidable (h.Retraces s) := inferInstanceAs (Decidable (h.tree.Retraces _ _))

theorem reached_absolute (hs : h.Sound) (hf : h.find true s = .ok (dir, n)) (hc : n.content = .directory)
    (hback : h.Retraces s) : Reached h.tree linkLimit (h.absolute s) dir := by
  obtain ⟨hne, -, k, hk, hw⟩ := resolve_eq_ok_iff.mp (find_eq_ok_iff.mp hf)
  have hd : h.tree.isDirectory dir = true := Tree.isDirectory_iff.mpr ⟨n, at?_of_find hf, hc⟩
  rw [← at?_of_find hf] at hw
  have hreached := (reached_origin hs s).foldl hs.tree (by omega) steps_nonempty hback hw hd
  rw [← absolute_eq hs hne] at hreached
  exact hreached.mono (by omega)

/-! ## (2) The way to a directory -/

/-- The text of a place below the root. -/
def textOf (ns : List String) : String := (Absolute.ofPlace ns).text

theorem textOf_ne_empty (ns : List String) : textOf ns ≠ "" := Absolute.text_ne_empty _

theorem resolve_textOf (h : Host) (hns : ∀ x ∈ ns, IsName x) (hl : (textOf ns).utf8ByteSize < pathLimit) :
    h.resolve follow (textOf ns) = .ok spot ↔ ∃ k, k ≤ linkLimit ∧ Walks h.tree follow k [] ns spot :=
  h.resolve_text (p := Absolute.ofPlace ns) hns hl

/-- Names that lead from the root to a directory. -/
structure Reaches (h : Host) (ns : List String) (dir : Place) : Prop where
  names : ∀ x ∈ ns, IsName x
  directory : ∃ n, h.find true (textOf ns) = .ok (dir, n) ∧ n.content = .directory

theorem reaches_of_reached {p : Absolute} (hr : Reached h.tree linkLimit p dir) (hnames : ∀ x ∈ p.names, IsName x)
    (hl : (textOf p.names).utf8ByteSize < pathLimit) : h.Reaches p.names dir := by
  obtain ⟨k, hk, hw⟩ := hr.walked
  obtain ⟨n, hn, hc⟩ := Tree.isDirectory_iff.mp hr.directory
  rw [hn] at hw
  exact ⟨hnames, n, find_eq_ok_iff.mpr ((h.resolve_textOf hnames hl).mpr ⟨k, hk, hw⟩), hc⟩

/-- The names that a path passes which has no `..`, from the root on. -/
def way (h : Host) (s : String) : List String := origin h.here s ++ plain s.toList

theorem names_absolute (hs : h.Sound) (hne : s ≠ "") (hup : ".." ∉ steps s) : (h.absolute s).names = h.way s :=
  congrArg Absolute.names (Path.closed_absolute (isName_here hs) hne hup)

/-- A directory is reached by the names that its path passes, wherever the path starts. -/
theorem reaches_way (hs : h.Sound) (hf : h.find true s = .ok (dir, n)) (hc : n.content = .directory)
    (hup : ".." ∉ steps s) (hl : (textOf (h.way s)).utf8ByteSize < pathLimit) : h.Reaches (h.way s) dir := by
  have hr := find_eq_ok_iff.mp hf
  have hnames := names_absolute hs (resolve_eq_ok_iff.mp hr).1 hup
  rw [← hnames] at hl ⊢
  exact reaches_of_reached (reached_absolute hs hf hc (Tree.retraces_of_no_up hup)) (isName_absolute hs hr) hl

/-! ## (3) Below a directory -/

/-- The names of a directory's path lead there, whether or not the path ends in a slash. -/
theorem exists_walks_names (hs : h.Sound) (hf : h.find true s = .ok (dir, n)) :
    ∃ k, k ≤ linkLimit ∧ Walks h.tree true k (origin h.here s) (names s.toList) ⟨dir, h.tree.at? dir⟩ := by
  obtain ⟨-, -, k, hk, hw⟩ := resolve_eq_ok_iff.mp (find_eq_ok_iff.mp hf)
  rw [Path.steps_eq, ← at?_of_find hf] at hw
  split at hw
  · -- the slash is a last step that stays
    obtain ⟨k₁, k₂, d, hsum, hw₁, -, hw₂⟩ := (Tree.walks_append_iff hs.tree (hs.origin s) (by simp)).mp hw
    obtain rfl : dir = d := congrArg Spot.place hw₂.of_here.of_nil
    exact ⟨k₁, by omega, hw₁⟩
  · rw [List.append_nil] at hw
    exact ⟨k, hk, hw⟩

/-- What is below a directory is found by its own names behind the directory's path. -/
theorem find_below_path (hs : h.Sound) (hf : h.find true s = .ok (dir, n)) (hc : n.content = .directory)
    (hm : h.tree.at? (dir ++ rel) = some m) (hne : rel ≠ [])
    (hl : (Path.below s (joined rel)).utf8ByteSize < pathLimit)
    (hfollow : follow = true → ∀ target, m.content ≠ .symlink target) :
    h.find follow (Path.below s (joined rel)) = .ok (dir ++ rel, m) := by
  have hs0 : s ≠ "" := (resolve_eq_ok_iff.mp (find_eq_ok_iff.mp hf)).1
  have hrel : ∀ x ∈ rel, IsName x := fun x hx => hs.tree.isName hm x (List.mem_append_right _ hx)
  have hd : h.tree.isDirectory dir = true := Tree.isDirectory_iff.mpr ⟨n, at?_of_find hf, hc⟩
  have horigin : origin h.here (Path.below s (joined rel)) = origin h.here s := by
    rw [origin, origin, Path.isRooted_below hs0]
  obtain ⟨k, hk, hw⟩ := exists_walks_names hs hf
  have happ := hw.append rfl hd hne (Tree.walks_names hs.tree hm hfollow)
  rw [hm, ← Path.steps_below s hne hrel, ← horigin] at happ
  exact find_eq_ok_iff.mpr (resolve_eq_ok_iff.mpr ⟨Path.below_ne_empty s (Path.joined_ne_empty hne hrel), hl, k, hk, happ⟩)

namespace Reaches

variable (hr : h.Reaches ns dir) (hs : h.Sound) (hm : h.tree.at? (dir ++ rel) = some m) (hne : rel ≠ [])
  (hl : (textOf (ns ++ rel)).utf8ByteSize < pathLimit)

include hr hs hm

theorem isName_append : ∀ x ∈ ns ++ rel, IsName x := by
  intro x hx
  rcases List.mem_append.mp hx with hx | hx
  · exact hr.names x hx
  · exact hs.tree.isName hm x (List.mem_append_right _ hx)

include hne hl

/-- What is below a directory is found by its own names behind those that lead to the directory. -/
theorem find_below (hfollow : follow = true → ∀ target, m.content ≠ .symlink target) :
    h.find follow (textOf (ns ++ rel)) = .ok (dir ++ rel, m) := by
  obtain ⟨n, hf, hc⟩ := hr.directory
  have htext : Path.below (textOf ns) (joined rel) = textOf (ns ++ rel) := Path.below_text hne hr.names
  rw [← htext] at hl ⊢
  exact find_below_path hs hf hc hm hne hl hfollow

end Reaches

/-! ## (4) Describing and reading -/

theorem describeAt_eq {text : String} (hf : h.find false text = .ok (p, n)) (name : String) :
    h.describeAt text name =
      .ok (Descriptor.ofNode h.clocks text name n ((h.find true text).toOption.map Prod.snd)) := by
  simp only [describeAt, hf]

theorem describeAt_of_error {text : String} {why : Refusal} (hf : h.find false text = .error why) (name : String) :
    h.describeAt text name = .error (.refused .status text why) := by
  simp only [describeAt, hf]

theorem describe_eq (hne : s ≠ "") (hf : h.find false (h.absolute s).text = .ok (p, n)) :
    h.describe s = .ok (Descriptor.ofNode h.clocks (h.absolute s).text (h.absolute s).name n
      ((h.find true (h.absolute s).text).toOption.map Prod.snd)) := by
  rw [describe, if_neg hne]
  exact describeAt_eq hf _

/-- Opening is describing, and accepts files. -/
theorem openFile_eq {d : Descriptor} (hd : h.describe s = .ok d) :
    openFile s h = if d.kind = .file then .ok d else .error .notARegularFile := by
  rw [openFile, hd]
  rfl

/-- A path whose normal form leads to a file is opened, and read. -/
theorem exists_openFile {data : Bytes} (hne : s ≠ "") (hf : h.find false (h.absolute s).text = .ok (p, n))
    (hfile : n.content = .file data) : ∃ d, openFile s h = .ok d ∧ readOpened d h = .ok data := by
  have hdescribe := describe_eq hne hf
  have hnolink : ∀ m target, some n = some m → m.content ≠ .symlink target := by
    intro m target he hc
    rw [← Option.some.inj he, hfile] at hc
    cases hc
  have htrue := find_eq_ok_iff.mpr (resolve_of_noLink (find_eq_ok_iff.mp hf) hnolink)
  have hkind : n.content.kind = .file := by
    rw [hfile]
    rfl
  exact ⟨_, (openFile_eq hdescribe).trans (if_pos hkind), load_of_find htrue hfile⟩

/-- A file below a directory is opened by its names behind those of the directory, and read. -/
theorem Reaches.openFile_below {data : Bytes} (hr : h.Reaches ns dir) (hs : h.Sound)
    (hm : h.tree.at? (dir ++ rel) = some m) (hne : rel ≠ []) (hl : (textOf (ns ++ rel)).utf8ByteSize < pathLimit)
    (hfile : m.content = .file data) : ∃ d, openFile (textOf (ns ++ rel)) h = .ok d ∧ readOpened d h = .ok data := by
  have habs : h.absolute (textOf (ns ++ rel)) = Absolute.ofPlace (ns ++ rel) :=
    Path.absolute_text h.here (by simp [hne]) (hr.isName_append hs hm)
  have hf : h.find false (textOf (ns ++ rel)) = .ok (dir ++ rel, m) :=
    hr.find_below hs hm hne hl fun hfalse => Bool.noConfusion hfalse
  refine exists_openFile (textOf_ne_empty _) (p := dir ++ rel) ?_ hfile
  rw [habs]
  exact hf

end FlatPackage.Host
