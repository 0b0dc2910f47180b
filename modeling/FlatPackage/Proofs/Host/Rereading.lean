/-
  FlatPackage.Proofs.Host.Rereading — what was written is read back, or nothing was done.

  A file is written into a directory that may have to be made. When that goes well, every text above
  the path leads to a directory, the new ones are empty but for the way to the file, and of all that
  was there before only directories that got a new name show it, in their times. Something in the
  way is found before anything is made: the search up the path stops at it, or, where it is a link
  that leads nowhere, it is the first that would have to be made.

  Proved:
  (1) `status_ancestor`: what is above a path that leads somewhere is a directory.
  (2) `missing_above`: what is above a missing path is not refused.
  (3) `save_of_inTheWay`: something above the path that is no directory keeps all as it was.
  (4) `reread_of_ok`: what a host looks like when a file was written.
  (5) `save_then_load`: all of this of writing and reading.
  Trace: a file in two new directories, a longer file overwritten through a link, and a link in the
  way (`written_below_and_over`).
-/

import FlatPackage.Host.Setup
import FlatPackage.Proofs.Host.Saving

namespace FlatPackage.Host

open FlatPackage.Tree (Node Refusal Spot origin pathLimit)
open Container.Session (bind_of_error)

variable {h h' : Host} {s up : String} {p q : Place} {n : Node} {follow : Bool} {spot : Spot} {data : Bytes}

/-! ## (1) Above a path -/

theorem Ancestor.parent_ne_empty (hup : Ancestor up s) : Path.parent s ≠ "" := by
  induction hup with
  | parent _ hne => exact hne
  | up _ _ ih => exact ih

/-- The first text above a path is its parent, and the others are above that. -/
theorem Ancestor.eq_or (hup : Ancestor up s) : up = Path.parent s ∨ Ancestor up (Path.parent s) := by
  induction hup with
  | parent => exact .inl rfl
  | up _ hne ih =>
    rcases ih with rfl | ih
    · exact .inr (.parent _ hne)
    · exact .inr (.up ih hne)

theorem status_ancestor (hs : h.Sound) (hr : h.resolve follow s = .ok spot) (hup : Ancestor up s) :
    h.status up = .directory := by
  induction hup with
  | parent s hne => exact status_parent hs hr hne
  | up _ hne ih =>
    obtain ⟨p, n, hf, -⟩ := status_eq_directory_iff.mp (ih hr)
    exact status_parent hs (find_eq_ok_iff.mp hf) hne

/-- What is above a directory's path is a directory. -/
theorem status_above_directory (hs : h.Sound) (hd : h.status s = .directory) (hup : Ancestor up s) :
    h.status up = .directory := by
  obtain ⟨p, n, hf, -⟩ := status_eq_directory_iff.mp hd
  exact status_ancestor hs (find_eq_ok_iff.mp hf) hup

/-! ## (2) Missing paths -/

theorem status_of_error {why : Refusal} (hr : h.resolve true s = .error why) :
    h.status s = if why = .notFound ∨ why = .notADirectory then .missing else .refused why := by
  rw [status, find_of_error hr]
  cases why <;> rfl

theorem status_of_ok (hr : h.resolve true s = .ok spot) (why : Refusal) : h.status s ≠ .refused why := by
  obtain ⟨p, node⟩ := spot
  intro hs
  cases node with
  | some n =>
    rw [status, find_eq_ok_iff.mpr hr] at hs
    dsimp only at hs
    split at hs <;> cases hs
  | none =>
    rw [status, find_of_free hr] at hs
    cases hs

/-- Why a path's parent cannot be looked up is why the path cannot, unless the path is too long. -/
theorem resolve_below_error {why : Refusal} (habove : Path.Above up s) (hr : h.resolve true up = .error why) :
    h.resolve true s = .error why ∨ h.resolve true s = .error .nameTooLong := by
  obtain ⟨last, hsteps⟩ := habove.steps
  have hne : s ≠ "" := by
    rintro rfl
    have hnil : Path.steps "" = [] := by decide
    rw [hnil] at hsteps
    exact absurd hsteps.symm (by simp)
  have horigin : origin h.here up = origin h.here s := by rw [origin, origin, habove.rooted]
  by_cases hl : s.utf8ByteSize < pathLimit
  · rw [resolve_eq_walk habove.nonempty (Nat.lt_of_le_of_lt habove.shorter hl)] at hr
    rw [resolve_eq_walk hne hl, ← horigin, hsteps]
    exact .inl (Tree.walk_append_of_error (by simp) hr)
  · exact .inr (resolve_of_long hne (Nat.not_lt.mp hl))

theorem missing_above (hs : h.Sound) (hm : h.status s = .missing) (hne : Path.parent s ≠ "") (why : Refusal) :
    h.status (Path.parent s) ≠ .refused why := by
  intro hp
  rcases Path.parent_cases s with he | he | habove
  · exact hne he
  · rw [he, status_root hs] at hp
    cases hp
  cases hr : h.resolve true (Path.parent s) with
  | ok spot => exact status_of_ok hr why hp
  | error e =>
    rw [status_of_error hr] at hp
    by_cases hcommon : e = .notFound ∨ e = .notADirectory
    · rw [if_pos hcommon] at hp
      cases hp
    rcases resolve_below_error habove hr with hr' | hr'
    · rw [status_of_error hr', if_neg hcommon] at hm
      cases hm
    · rw [status_of_error hr', if_neg (by simp)] at hm
      cases hm

/-! ## (3) Something in the way -/

/-- There is something at a path, and neither is it a directory nor does it lead to one. -/
structure InTheWay (h : Host) (up : String) : Prop where
  present : ∃ p n, h.find false up = .ok (p, n)
  noDirectory : h.status up ≠ .directory

/-- A path with something in its way is no directory. -/
theorem InTheWay.status_below_ne (hs : h.Sound) (hb : h.InTheWay up) (hup : up = s ∨ Ancestor up s) :
    h.status s ≠ .directory := by
  rcases hup with rfl | hup
  · exact hb.noDirectory
  · exact fun hd => hb.noDirectory (status_above_directory hs hd hup)

/-- A path that ends in dots leads to the same whether or not links are followed. -/
theorem find_of_dots (hs : h.Sound) (hdots : Path.IsDots (Path.lastPiece s)) (hf : h.find false s = .ok (p, n)) :
    h.find true s = .ok (p, n) := by
  obtain ⟨a, hsteps⟩ := Path.steps_of_lastPiece hdots
  generalize Path.lastPiece s = x at hdots hsteps
  obtain ⟨hne, hl, k, hk, hw⟩ := resolve_eq_ok_iff.mp (find_eq_ok_iff.mp hf)
  rw [hsteps] at hw
  obtain ⟨k₁, k₂, d, hsum, hw₁, hd, hw₂⟩ := (Tree.walks_append_iff hs.tree (hs.origin s) (by simp)).mp hw
  obtain ⟨-, hdotted⟩ := hw₂.of_dots hdots hs.tree hd
  refine find_eq_ok_iff.mpr (resolve_eq_ok_iff.mpr ⟨hne, hl, k, hk, ?_⟩)
  rw [hsteps]
  exact hsum ▸ hw₁.append rfl hd (by simp) (hdotted true)

/-- Only a link can be in the way and be missing, and it is then the first that would have to be made. -/
theorem missing_of_link (hs : h.Sound) (hb : h.InTheWay s) (hm : h.status s = .missing) (fuel : Nat) (found : List String) :
    (∃ why, h.missing (fuel + 1) found s = .error why) ∨ h.missing (fuel + 1) found s = .ok (s :: found) := by
  obtain ⟨p, n, hf⟩ := hb.present
  have hdots : ¬(Path.lastPiece s = "." ∨ Path.lastPiece s = "..") := by
    intro hdots
    rw [status, find_of_dots hs hdots hf] at hm
    dsimp only at hm
    split at hm <;> cases hm
  rw [missing]
  dsimp only
  rw [if_neg hdots]
  split
  · exact .inl ⟨_, rfl⟩
  · split
    · exact .inr rfl
    · rename_i hne
      rw [status_parent hs (find_eq_ok_iff.mp hf) hne]
      exact .inr rfl

/-- The search for what has to be made fails at what is in the way, or ends with it. -/
theorem missing_of_inTheWay (hs : h.Sound) (hb : h.InTheWay up) {fuel : Nat} (hfuel : s.length < fuel)
    (hup : up = s ∨ Ancestor up s) (hm : h.status s = .missing) (found : List String) :
    (∃ why, h.missing fuel found s = .error why) ∨ ∃ r, h.missing fuel found s = .ok (up :: r) := by
  induction fuel generalizing s found with
  | zero => cases hfuel
  | succ fuel ih =>
    rcases hup with rfl | hup
    · exact (missing_of_link hs hb hm fuel found).imp_right fun h => ⟨_, h⟩
    have hne := hup.parent_ne_empty
    rw [missing]
    dsimp only
    generalize (if Path.lastPiece s = "." ∨ Path.lastPiece s = ".." then found else s :: found) = more
    rw [if_neg hne]
    split
    · exact .inl ⟨_, rfl⟩
    cases hstatus : h.status (Path.parent s) with
    | directory => exact absurd hstatus (hb.status_below_ne hs hup.eq_or)
    | other => exact .inl ⟨_, rfl⟩
    | refused why => exact absurd hstatus (missing_above hs hm hne why)
    | missing =>
      have hroot : Path.parent s ≠ "/" := by
        intro he
        rw [he, status_root hs] at hstatus
        cases hstatus
      exact ih (by have := Path.parent_length_lt hne hroot; omega) hup.eq_or hstatus more

theorem makeDirectory_of_inTheWay (hb : h.InTheWay up) : makeDirectory up h = .error .alreadyExists := by
  obtain ⟨p, n, hf⟩ := hb.present
  rw [makeDirectory, find_eq_ok_iff.mp hf]
  exact if_neg hb.noDirectory

theorem makePath_of_inTheWay (hs : h.Sound) (hb : h.InTheWay up) (hup : up = s ∨ Ancestor up s) :
    ∃ why, makePath s h = (.error why, h) := by
  rw [makePath]
  cases hstatus : h.status s with
  | directory => exact absurd hstatus (hb.status_below_ne hs hup)
  | other => exact ⟨_, rfl⟩
  | refused why => exact ⟨why, rfl⟩
  | missing =>
    rcases missing_of_inTheWay hs hb (Nat.lt_succ_self _) hup hstatus [] with ⟨why, hm⟩ | ⟨r, hm⟩
    · refine ⟨why, ?_⟩
      simp only [hm]
    · refine ⟨.alreadyExists, ?_⟩
      simp only [hm, makeDirectories, makeDirectory_of_inTheWay hb]

/-- With something above the path that is no directory, nothing is written and nothing is made. -/
theorem save_of_inTheWay (hs : h.Sound) (hup : Ancestor up s) (hb : h.InTheWay up) (data : Bytes) :
    ∃ why, save s data h = (.error (.refused .createParents (Path.parent s) why), h) := by
  obtain ⟨why, hm⟩ := makePath_of_inTheWay hs hb hup.eq_or
  have he : ensureParent s h = (.error (.refused .createParents (Path.parent s) why), h) := by
    rw [ensureParent_eq, if_neg hup.parent_ne_empty, hm]
    rfl
  exact ⟨why, bind_of_error he⟩

/-! ## (4) A written file -/

/-- One of the texts above a path leads to the place. -/
def OnTheWay (s : String) (h : Host) (q : Place) : Prop := ∃ up n, Ancestor up s ∧ h.find true up = .ok (q, n)

/-- A kept node that was there is as it was, or is a directory that got a new name. -/
theorem Kept.stays (hk : Kept s h h' q) (hs' : h'.Sound) (hn : h.tree.at? q = some n) :
    h'.tree.at? q = some n ∨ n.content = .directory ∧ h'.tree.at? q = some (n.stamped h.clocks.system) ∧
      ∃ name, h.tree.at? (q ++ [name]) = none ∧ h'.tree.at? (q ++ [name]) ≠ none := by
  cases hk with
  | same e => exact .inl (e.trans hn)
  | stamped m name hm hm' hfree hname =>
    rw [hn] at hm
    cases hm
    obtain ⟨m', hnew⟩ := Option.ne_none_iff_exists'.mp hname
    obtain ⟨d, hd, hc⟩ := Tree.isDirectory_iff.mp (hs'.tree.isDirectory_of_append hnew (by simp))
    rw [hm'] at hd
    cases hd
    exact .inr ⟨hc, hm', name, hfree, hname⟩
  | made _ _ hfree =>
    rw [hn] at hfree
    cases hfree

/-- A kept node that is new is a directory that was made on the way. -/
theorem Kept.fresh (hk : Kept s h h' q) (hfree : h.tree.at? q = none) (hn : h'.tree.at? q = some n) :
    n = h.madeDirectory ∧ OnTheWay s h' q := by
  cases hk with
  | same e =>
    rw [e, hfree] at hn
    cases hn
  | stamped m _ hm =>
    rw [hfree] at hm
    cases hm
  | made up hup _ hf =>
    have hat := at?_of_find hf
    rw [hn] at hat
    exact ⟨Option.some.inj hat, up, _, hup, hf⟩

/-- A host on which a path was written that leads to the place. -/
structure Reread (s : String) (data : Bytes) (h h' : Host) (p : Place) : Prop where
  loads : h'.load s = .ok data
  written : Written s data h h' p
  leads : ∃ n, h'.find true s = .ok (p, n)
  /-- What is above the path is a directory that was there, or one that was made. -/
  above : ∀ up, Ancestor up s → ∃ q n, h'.find true up = .ok (q, n) ∧ n.content = .directory ∧
    (h.tree.isDirectory q = true ∨ h.tree.at? q = none ∧ n = h.madeDirectory)
  /-- Whatever else was there is as it was, but for the time of a directory that got a new name. -/
  stays : ∀ q n, q ≠ p → h.tree.at? q = some n → h'.tree.at? q = some n ∨
    n.content = .directory ∧ h'.tree.at? q = some (n.stamped h.clocks.system) ∧
      ∃ name, h.tree.at? (q ++ [name]) = none ∧ h'.tree.at? (q ++ [name]) ≠ none
  /-- Whatever else is new is a directory above the path, and all that is in it is on the way. -/
  fresh : ∀ q n, q ≠ p → h.tree.at? q = none → h'.tree.at? q = some n → n = h.madeDirectory ∧ OnTheWay s h' q ∧
    ∀ name m, h'.tree.at? (q ++ [name]) = some m → q ++ [name] = p ∨ OnTheWay s h' (q ++ [name])

theorem Saved.reread (hs : h.Sound) (hs' : h'.Sound) (hw : Saved s data h h') : ∃ p, Reread s data h h' p := by
  obtain ⟨p, m, hf, hwritten, hkept⟩ := hw.place
  have hfile : m.content ≠ .directory := by
    intro hc
    have hl := hw.loads
    simp only [load, hf, hc] at hl
    cases hl
  refine ⟨p, hw.loads, hwritten, ⟨m, hf⟩, fun up hup => ?_, fun q n hq hn => (hkept q hq).stays hs' hn,
    fun q n hq hfree hn => ?_⟩
  · obtain ⟨q, n, hfound, hc⟩ := status_eq_directory_iff.mp (status_ancestor hs' (find_eq_ok_iff.mp hf) hup)
    refine ⟨q, n, hfound, hc, ?_⟩
    have hat := at?_of_find hfound
    have hq : q ≠ p := by
      rintro rfl
      rw [at?_of_find hf] at hat
      cases hat
      exact hfile hc
    cases hold : h.tree.at? q with
    | none => exact .inr ⟨rfl, ((hkept q hq).fresh hold hat).1⟩
    | some o =>
      rcases (hkept q hq).stays hs' hold with hsame | ⟨ho, -⟩
      · rw [hat] at hsame
        cases hsame
        exact .inl (Tree.isDirectory_iff.mpr ⟨n, hold, hc⟩)
      · exact .inl (Tree.isDirectory_iff.mpr ⟨o, hold, ho⟩)
  · obtain ⟨hmade, hway⟩ := (hkept q hq).fresh hfree hn
    refine ⟨hmade, hway, fun name m' hm' => ?_⟩
    by_cases hp : q ++ [name] = p
    · exact .inl hp
    · exact .inr ((hkept _ hp).fresh (hs.tree.at?_below_free hfree name) hm').2

theorem reread_of_ok (hs : h.Sound) (hw : save s data h = (.ok (), h')) : ∃ p, Reread s data h h' p := by
  have hs' : h'.Sound := by
    have hkeeps := hs.save s data
    rwa [hw] at hkeeps
  rcases save_cases s data h with ⟨f, h₁, he, -⟩ | ⟨h₁, hok, hsaved⟩
  · rw [hw] at he
    cases he
  · rw [hw] at hok
    cases hok
    exact hsaved.reread hs hs'

/-- A file that is written with what it holds gets the present time. -/
theorem save_same (hs : h.Sound) (hf : h.find true s = .ok (p, n)) (hc : n.content = .file data) :
    save s data h = (.ok (), { h with tree := h.tree.set p (n.stamped h.clocks.system) }) := by
  have hr := find_eq_ok_iff.mp hf
  have hspot : TakesFile ⟨p, some n⟩ := fun m hm => ⟨data, by rw [← Option.some.inj hm, hc]⟩
  have hstamped : (⟨.file data, n.permissions, h.clocks.system⟩ : Node) = n.stamped h.clocks.system := by
    rw [← hc]
    rfl
  rw [save_eq_write hs hr hspot, write, put]
  show (_, ({ h with tree := h.tree.put _ p ⟨.file data, n.permissions, h.clocks.system⟩ } : Host)) = _
  rw [Tree.put, at?_of_find hf, hstamped]
  rfl

/-! ## (5) Writing and reading -/

/-- For every file system, path and data. Where writing returns, reading returns the data and nothing
    else has changed but what is new above the path; a path that leads to a file or to a free name is
    written. Whatever comes of it, no other file changes. Something above the path that is no
    directory, and leads to none, is refused before anything changes. A file that is read and written
    back holds the same. -/
theorem save_then_load (hs : h.Sound) (s : String) (data : Bytes) :
    (∀ h', save s data h = (.ok (), h') → ∃ p, Reread s data h h' p) ∧
    (∀ spot, h.resolve true s = .ok spot → TakesFile spot → save s data h = (.ok (), h.write spot data)) ∧
    (∀ f h', save s data h = (.error f, h') → ∀ q n, h.tree.at? q = some n → n.content ≠ .directory →
      h'.tree.at? q = some n) ∧
    (∀ up, Ancestor up s → h.InTheWay up →
      ∃ why, save s data h = (.error (.refused .createParents (Path.parent s) why), h)) ∧
    ∀ p n, h.find true s = .ok (p, n) → n.content = .file data →
      save s data h = (.ok (), { h with tree := h.tree.set p (n.stamped h.clocks.system) }) := by
  refine ⟨fun h' hw => reread_of_ok hs hw, fun spot hr hspot => save_eq_write hs hr hspot data, ?_,
    fun up hup hb => save_of_inTheWay hs hup hb data, fun p n hf hc => save_same hs hf hc⟩
  intro f h' he q n hn hc
  rcases save_cases s data h with ⟨f', h₁, hfails, -, hgrown⟩ | ⟨h₁, hok, -⟩
  · rw [he] at hfails
    cases hfails
    have hs' : h'.Sound := by
      have hkeeps := hs.save s data
      rwa [he] at hkeeps
    rcases (hgrown.kept q).stays hs' hn with hsame | ⟨hd, -⟩
    · exact hsame
    · exact absurd hd hc
  · rw [he] at hok
    cases hok

/-- A directory with a file, a link to the file and a link that leads nowhere. -/
def drawer : Host := (((Host.bare ["here"] ⟨0, 7⟩).addFile "f" [1, 2, 3] 0o640).addLink "l" "f").addLink "lost" "nowhere"

/-- The same with a file in two directories that had to be made. -/
def filled : Host := (save "a/b/x" [9] drawer).2

/-- Two directories are made for a new file, a longer file is written over through the link to it, and the
    link that leads nowhere is in the way although the path only goes past it. -/
theorem written_below_and_over :
    let file : Node := ⟨.file [1, 2, 3], 0o640, 7⟩
    drawer.Sound ∧
      save "a/b/x" [9] drawer = (.ok (), filled) ∧ (∃ p, Reread "a/b/x" [9] drawer filled p) ∧
      drawer.find true "l" = .ok (["here", "f"], file) ∧
      save "l" [9] drawer = (.ok (), drawer.write ⟨["here", "f"], some file⟩ [9]) ∧
      save "l" [1, 2, 3] drawer = (.ok (), { drawer with tree := drawer.tree.set ["here", "f"] (file.stamped 7) }) ∧
      Ancestor "lost" "lost/../a/x" ∧ drawer.InTheWay "lost" ∧
      ∃ why, save "lost/../a/x" [9] drawer = (.error (.refused .createParents "lost/../a" why), drawer) ∧
        drawer.tree.at? ["here", "f"] = some file := by
  intro file
  have hs : drawer.Sound := by decide
  have hok : (save "a/b/x" [9] drawer).1 = .ok () := by rfl
  have hfilled : save "a/b/x" [9] drawer = (.ok (), filled) := Prod.ext hok rfl
  have hlink : drawer.find true "l" = .ok (["here", "f"], file) := by rfl
  have hthird : Path.parent (Path.parent (Path.parent "lost/../a/x")) = "lost" := by decide
  have hup : Ancestor "lost" "lost/../a/x" := hthird ▸ .up (.up (.parent _ (by decide)) (by decide)) (by decide)
  have hway : drawer.InTheWay "lost" := ⟨⟨["here", "lost"], ⟨.symlink "nowhere", newLink, 7⟩, by rfl⟩, by decide⟩
  have hspot : TakesFile ⟨["here", "f"], some file⟩ := fun n hn => ⟨[1, 2, 3], by rw [← Option.some.inj hn]⟩
  obtain ⟨hreread, -, -, -, -⟩ := save_then_load hs "a/b/x" [9]
  obtain ⟨-, hover, -, -, -⟩ := save_then_load hs "l" [9]
  obtain ⟨-, -, -, -, hsame⟩ := save_then_load hs "l" [1, 2, 3]
  obtain ⟨-, -, hfiles, hrefused, -⟩ := save_then_load hs "lost/../a/x" [9]
  obtain ⟨why, hfails⟩ := hrefused "lost" hup hway
  have hkept := hfiles _ _ hfails ["here", "f"] file (by rfl) (by simp [file])
  exact ⟨hs, hfilled, hreread filled hfilled, hlink, hover _ (find_eq_ok_iff.mp hlink) hspot, hsame _ _ hlink rfl, hup, hway,
    why, hfails, hkept⟩

end FlatPackage.Host
