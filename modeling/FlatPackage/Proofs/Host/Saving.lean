/-
  FlatPackage.Proofs.Host.Saving — what is left of a host when a file is written.

  The directories above the path come first. What that does is said place by place (`Kept`): a
  node stays, or stays but for its time because it got a new name, or is a new directory that
  one of the texts above the path leads to. This composes, so it holds of the whole run up the
  path and down again (`Grown`), whether it went well or stopped halfway.

  Proved:
  (1) `grown_ensureParent`: making a path's directory changes nothing else, whatever comes of it.
  (2) `saved_of_ok`: a path that was written leads to a file with the data (`Saved`), and of all
      other nodes the same holds.
  (3) `save_eq_put`: a path that leads to a file or a free name is written, and no directory is made.
  (4) `Sound.save`: a sound host stays sound.
-/

import FlatPackage.Proofs.Container.Session
import FlatPackage.Proofs.Host.Finding

namespace FlatPackage.Host

open FlatPackage.Tree (Alike IsName Node Refusal Spot Within)
open Container.Session (bind_eq_ok bind_of_error bind_of_ok)

variable {h h₁ h' : Host} {s up : String} {p q : Place} {n : Node} {follow : Bool} {spot : Spot}
  {content : Tree.Content} {permissions : UInt32} {data : Bytes}

/-! ## Putting a node -/

theorem at?_put (h : Host) (p q : Place) (content : Tree.Content) (permissions : UInt32) :
    (h.put p content permissions).tree.at? q =
      if q = p then some ⟨content, permissions, h.clocks.system⟩
      else if q = p.dropLast ∧ h.tree.at? p = none then (h.tree.at? q).map (Node.stamped h.clocks.system)
      else h.tree.at? q :=
  Tree.at?_put rfl h.tree p q

/-- Of two nodes that are put over one, the second stays. -/
theorem put_put (hn : h.tree.at? p = some n) (content' : Tree.Content) (permissions' : UInt32) :
    (h.put p content permissions).put p content' permissions' = h.put p content' permissions' := by
  have hat : (h.put p content permissions).tree.at? p = some ⟨content, permissions, h.clocks.system⟩ := by
    rw [at?_put, if_pos rfl]
  have hput : ∀ m, h.tree.put h.clocks.system p m = h.tree.set p m := by
    intro m
    rw [Tree.put, hn]
    rfl
  show (⟨Tree.put _ _ _ _, _, _⟩ : Host) = ⟨Tree.put _ _ _ _, _, _⟩
  rw [hput, Tree.put, hat]
  show (⟨((h.tree.put _ p _).set p _), _, _⟩ : Host) = _
  rw [hput, Tree.set_set]
  rfl

/-- A node is put over one that leads to the same, or over nothing when it is no link. -/
theorem within_put (hover : ∀ n, h.tree.at? p = some n → Alike n.content content)
    (hlink : ∀ target, content ≠ .symlink target) : Within h.tree (h.put p content permissions).tree where
  stays {q m} hq := by
    rw [at?_put]
    by_cases hp : q = p
    · rw [if_pos hp]
      exact ⟨_, rfl, hover m (hp ▸ hq)⟩
    · rw [if_neg hp]
      split
      · exact ⟨m.stamped h.clocks.system, by rw [hq]; rfl, .refl _⟩
      · exact ⟨m, hq, .refl _⟩
  fresh {q m target} hq hm := by
    rw [at?_put] at hm
    by_cases hp : q = p
    · rw [if_pos hp] at hm
      cases hm
      exact hlink target
    · rw [if_neg hp, hq] at hm
      split at hm <;> cases hm

/-- A node is put where a path leads. -/
theorem Sound.put_of_resolve (hs : h.Sound) (hr : h.resolve follow s = .ok spot)
    (hover : h.tree.isDirectory spot.place = true → content = .directory) :
    (h.put spot.place content permissions).Sound where
  tree := hs.tree.put _ (isDirectory_of_resolve hs hr) (isName_of_resolve hs hr) hover
  here := by
    obtain ⟨n, hn, hc⟩ := Tree.isDirectory_iff.mp hs.here
    apply Tree.isDirectory_iff.mpr
    show ∃ n, (h.put spot.place content permissions).tree.at? h.here = some n ∧ _
    rw [at?_put]
    by_cases hp : h.here = spot.place
    · rw [if_pos hp]
      exact ⟨_, rfl, hover (hp ▸ hs.here)⟩
    · rw [if_neg hp]
      split
      · exact ⟨n.stamped h.clocks.system, by rw [hn]; rfl, hc⟩
      · exact ⟨n, hn, hc⟩

/-! ## Place by place -/

/-- The texts that lead up from a path: its parent, the parent of that, and so on. -/
inductive Ancestor : String → String → Prop
  | parent (s : String) : Path.parent s ≠ "" → Ancestor (Path.parent s) s
  | up {up s : String} : Ancestor up s → Path.parent up ≠ "" → Ancestor (Path.parent up) s

/-- The directory that is made at present. -/
def madeDirectory (h : Host) : Node := ⟨.directory, newDirectory, h.clocks.system⟩

/-- What becomes of the node at a place while the directories above a path are made. -/
inductive Kept (s : String) (h h' : Host) (q : Place) : Prop
  | same : h'.tree.at? q = h.tree.at? q → Kept s h h' q
  /-- The node got a new name, which shows in its time. -/
  | stamped (n : Node) (name : String) : h.tree.at? q = some n → h'.tree.at? q = some (n.stamped h.clocks.system) →
      h.tree.at? (q ++ [name]) = none → h'.tree.at? (q ++ [name]) ≠ none → Kept s h h' q
  | made (up : String) : Ancestor up s → h.tree.at? q = none → h'.find true up = .ok (q, h.madeDirectory) →
      Kept s h h' q

theorem Kept.trans {a b c : Host} (h₁ : Kept s a b q) (h₂ : Kept s b c q) (hclocks : b.clocks = a.clocks)
    (hab : Within a.tree b.tree) (hbc : Within b.tree c.tree) (hhere : c.here = b.here) : Kept s a c q := by
  have hdir : b.madeDirectory = a.madeDirectory := by rw [madeDirectory, hclocks, madeDirectory]
  cases h₁ with
  | same e₁ =>
    cases h₂ with
    | same e₂ => exact .same (e₂.trans e₁)
    | stamped n name hn hn' hfree hname =>
      exact .stamped n name (e₁ ▸ hn) (hclocks ▸ hn') (hab.at?_eq_none hfree) hname
    | made up hup hfree hf => exact .made up hup (e₁ ▸ hfree) (hdir ▸ hf)
  | stamped n name hn hn' hfree hname =>
    have hname' : c.tree.at? (q ++ [name]) ≠ none := fun he => hname (hbc.at?_eq_none he)
    cases h₂ with
    | same e₂ => exact .stamped n name hn (e₂.trans hn') hfree hname'
    | stamped m _ hm hm' =>
      rw [hn'] at hm
      cases hm
      rw [hclocks] at hm'
      exact .stamped n name hn hm' hfree hname'
    | made _ _ hnone =>
      rw [hn'] at hnone
      cases hnone
  | made up hup hfree hf =>
    have hb := at?_of_find hf
    obtain ⟨n', hn', -, hf'⟩ := find_of_within hf hbc hhere
    have hsame : n' = a.madeDirectory := by
      cases h₂ with
      | same e₂ =>
        rw [hn', hb] at e₂
        exact Option.some.inj e₂
      | stamped m _ hm hm' =>
        rw [hb] at hm
        cases hm
        rw [hn', hclocks] at hm'
        exact Option.some.inj hm'
      | made _ _ hnone =>
        rw [hb] at hnone
        cases hnone
    exact .made up hup hfree (hsame ▸ hf')

/-- Every node other than the one that is put is kept. -/
theorem kept_put (h : Host) (hq : q ≠ p) : Kept s h (h.put p content permissions) q := by
  have hat := at?_put h p q content permissions
  rw [if_neg hq] at hat
  by_cases hd : q = p.dropLast ∧ h.tree.at? p = none
  · obtain ⟨hd, hfree⟩ := hd
    rw [if_pos ⟨hd, hfree⟩] at hat
    cases hn : h.tree.at? q with
    | none => exact .same (by rw [hat, hn]; rfl)
    | some n =>
      rw [hn] at hat
      have hne : p ≠ [] := fun he => hq (by rw [hd, he]; rfl)
      have hp : q ++ [p.getLast hne] = p := by rw [hd, List.dropLast_append_getLast]
      refine .stamped n (p.getLast hne) hn hat (by rw [hp, hfree]) ?_
      rw [hp, at?_put, if_pos rfl]
      exact Option.some_ne_none _
  · rw [if_neg hd] at hat
    exact .same hat

/-- The directories above a path may have been made, and nothing else. -/
structure Grown (s : String) (h h' : Host) : Prop where
  here : h'.here = h.here
  clocks : h'.clocks = h.clocks
  kept : ∀ q, Kept s h h' q

namespace Grown

theorem refl (s : String) (h : Host) : Grown s h h := ⟨rfl, rfl, fun _ => .same rfl⟩

theorem within (g : Grown s h h') : Within h.tree h'.tree where
  stays {q n} hn := by
    cases g.kept q with
    | same e => exact ⟨n, e.trans hn, .refl _⟩
    | stamped m _ hm hm' =>
      rw [hn] at hm
      cases hm
      exact ⟨_, hm', .refl _⟩
    | made _ _ hnone =>
      rw [hn] at hnone
      cases hnone
  fresh {q n' target} hnone hn' := by
    cases g.kept q with
    | same e =>
      rw [hn', hnone] at e
      cases e
    | stamped m _ hm =>
      rw [hnone] at hm
      cases hm
    | made _ _ _ hf =>
      have hat := at?_of_find hf
      rw [hn'] at hat
      cases hat
      simp [madeDirectory]

theorem trans (g : Grown s h h₁) (g' : Grown s h₁ h') : Grown s h h' where
  here := g'.here.trans g.here
  clocks := g'.clocks.trans g.clocks
  kept q := (g.kept q).trans (g'.kept q) g.clocks g.within g'.within g'.here

end Grown

/-! ## (1) The directories above a path -/

theorem resolve_put_of_free (hr : h.resolve false s = .ok ⟨p, none⟩) (hlink : ∀ target, content ≠ .symlink target) :
    (h.put p content permissions).find true s = .ok (p, ⟨content, permissions, h.clocks.system⟩) := by
  have hfree := (node_eq_of_resolve hr).symm
  have hw : Within h.tree (h.put p content permissions).tree :=
    within_put (fun n hn => by rw [hfree] at hn; cases hn) hlink
  have hr' := resolve_of_within (resolve_of_free hr) hw rfl
  rw [at?_put, if_pos rfl] at hr'
  exact find_eq_ok_iff.mpr hr'

theorem grown_makeDirectory (hup : Ancestor up s) (hm : makeDirectory up h = .ok h') : Grown s h h' := by
  unfold makeDirectory at hm
  split at hm
  · rename_i p hr
    cases hm
    refine ⟨rfl, rfl, fun q => ?_⟩
    by_cases hq : q = p
    · subst hq
      exact .made up hup (node_eq_of_resolve hr).symm (resolve_put_of_free hr (by simp))
    · exact kept_put h hq
  · split at hm
    · cases hm
      exact .refl s h
    · cases hm
  · cases hm

theorem grown_makeDirectories {l : List String} (hl : ∀ up ∈ l, Ancestor up s) : Grown s h (makeDirectories l h).2 := by
  induction l generalizing h with
  | nil => exact .refl s h
  | cons up l ih =>
    rw [makeDirectories]
    cases hm : makeDirectory up h with
    | ok h₁ =>
      have g := grown_makeDirectory (hl up List.mem_cons_self) hm
      exact g.trans (ih fun up hup => hl up (List.mem_cons_of_mem _ hup))
    | error why => exact .refl s h

/-- The search finds paths that lead up from the one it was started for. -/
theorem ancestor_of_mem_missing {fuel : Nat} {found l : List String} (hup : Ancestor up s)
    (hfound : ∀ x ∈ found, Ancestor x s) (hm : h.missing fuel found up = .ok l) : ∀ x ∈ l, Ancestor x s := by
  induction fuel generalizing found up with
  | zero =>
    cases hm
    exact hfound
  | succ fuel ih =>
    rw [missing] at hm
    have hmore : ∀ x ∈ (if Path.lastPiece up = "." ∨ Path.lastPiece up = ".." then found else up :: found),
        Ancestor x s := by
      intro x hx
      split at hx
      · exact hfound x hx
      · rcases List.mem_cons.mp hx with rfl | hx
        · exact hup
        · exact hfound x hx
    dsimp only at hm
    generalize (if Path.lastPiece up = "." ∨ Path.lastPiece up = ".." then found else up :: found) = more at hm hmore
    split at hm
    · cases hm
    · split at hm
      · cases hm
        exact hmore
      · rename_i hne
        split at hm
        · exact ih (.up hup hne) hmore hm
        · cases hm
        · cases hm
          exact hmore

theorem grown_makePath (hup : Ancestor up s) : Grown s h (makePath up h).2 := by
  unfold makePath
  split
  · exact .refl s h
  · exact .refl s h
  · exact .refl s h
  · cases hm : h.missing (up.length + 1) [] up with
    | ok l => exact grown_makeDirectories (ancestor_of_mem_missing hup (by simp) hm)
    | error why => exact .refl s h

theorem ensureParent_eq (s : String) (h : Host) : ensureParent s h =
    if Path.parent s = "" then (.ok (), h)
    else ((makePath (Path.parent s) h).1.mapError (.refused .createParents (Path.parent s)), (makePath (Path.parent s) h).2) :=
  rfl

/-- Whatever comes of it, making the directory of a path makes directories above the path and changes
    nothing else. -/
theorem grown_ensureParent (s : String) (h : Host) : Grown s h (ensureParent s h).2 := by
  rw [ensureParent_eq]
  split
  · exact .refl s h
  · rename_i hne
    exact grown_makePath (.parent s hne)

/-! ## (2) Writing -/

/-- The faults of writing to a path. -/
inductive WriteFault (s : String) : Fault → Prop
  | parents (why : Refusal) : WriteFault s (.refused .createParents (Path.parent s) why)
  | unopened : WriteFault s (.cannotOpenForWriting s)
  | unwritten : WriteFault s (.cannotWrite s)

theorem writeFault_of_ensureParent {f : Fault} (he : ensureParent s h = (.error f, h')) : WriteFault s f := by
  rw [ensureParent_eq] at he
  split at he
  · cases he
  · cases hm : (makePath (Path.parent s) h).1 with
    | ok _ =>
      rw [hm] at he
      cases he
    | error why =>
      rw [hm] at he
      cases he
      exact .parents why

/-- Paths that lead to the same place have the same contents. -/
theorem load_of_find_eq {s' : String} (hf : h.find true s' = h.find true s) (hl : h.load s = .ok data) :
    h.load s' = .ok data := by
  unfold load at hl ⊢
  rw [hf]
  cases hs : h.find true s with
  | error why =>
    rw [hs] at hl
    cases hl
  | ok x =>
    rw [hs] at hl
    exact hl

/-- A file can be written at the spot: it is free, or a file is there. -/
def TakesFile (spot : Spot) : Prop := ∀ n, spot.node = some n → ∃ old, n.content = .file old

/-- What a file at the spot may be used for once it is written. -/
def filePermissions (spot : Spot) : UInt32 := (spot.node.map (·.permissions)).getD newFile

/-- The data is written at the spot. -/
def write (h : Host) (spot : Spot) (data : Bytes) : Host := h.put spot.place (.file data) (filePermissions spot)

/-- Writing where the directory is there: the data is at the spot then, or the host is as it was. -/
inductive Replaced (s : String) (data : Bytes) (h : Host) : Except Fault Unit × Host → Prop
  | written (spot : Spot) : h.resolve true s = .ok spot → TakesFile spot → Replaced s data h (.ok (), h.write spot data)
  | taken (p : Place) (n : Node) : h.resolve true s = .ok ⟨p, some n⟩ → n.content = .special → data = [] →
      Replaced s data h (.ok (), h)
  | failed (f : Fault) : WriteFault s f → Replaced s data h (.error f, h)

theorem replaced (s : String) (data : Bytes) (h : Host) : Replaced s data h (replaceFile s data h) := by
  unfold replaceFile
  split
  · exact .failed _ .unopened
  · rename_i p hr
    exact .written ⟨p, none⟩ hr (by simp [TakesFile])
  · rename_i p n hr
    split
    · rename_i old hc
      exact .written ⟨p, some n⟩ hr (by simp [TakesFile, hc])
    · rename_i hc
      by_cases hd : data = []
      · rw [if_pos (List.isEmpty_iff.mpr hd)]
        exact .taken p n hr hc hd
      · rw [if_neg (fun he => hd (List.isEmpty_iff.mp he))]
        exact .failed _ .unwritten
    · exact .failed _ .unopened

/-- What has become of the node at the place that a written path leads to. -/
inductive Written (s : String) (data : Bytes) (h h' : Host) (p : Place) : Prop
  | new : h.tree.at? p = none → h'.tree.at? p = some ⟨.file data, newFile, h.clocks.system⟩ → Written s data h h' p
  | over (n : Node) (old : Bytes) : h.tree.at? p = some n → n.content = .file old →
      h'.tree.at? p = some ⟨.file data, n.permissions, h.clocks.system⟩ → Written s data h h' p
  /-- A fifo or a device takes no octets, so it can be written when there are none. -/
  | taken (n : Node) : data = [] → h'.tree.at? p = some n → n.content = .special → Kept s h h' p → Written s data h h' p

/-- A path was written: it leads to the data, and every other node is kept. -/
structure Saved (s : String) (data : Bytes) (h h' : Host) : Prop where
  here : h'.here = h.here
  clocks : h'.clocks = h.clocks
  loads : h'.load s = .ok data
  place : ∃ p n, h'.find true s = .ok (p, n) ∧ Written s data h h' p ∧ ∀ q, q ≠ p → Kept s h h' q

theorem within_write (hr : h.resolve follow s = .ok spot) (hspot : TakesFile spot) (data : Bytes) :
    Within h.tree (h.write spot data).tree := by
  refine within_put (fun n hn => ?_) (by simp)
  rw [← node_eq_of_resolve hr] at hn
  obtain ⟨old, hc⟩ := hspot n hn
  rw [hc]
  trivial

/-- The path then leads to the data. -/
theorem find_write (hr : h.resolve true s = .ok spot) (hspot : TakesFile spot) (data : Bytes) :
    (h.write spot data).find true s = .ok (spot.place, ⟨.file data, filePermissions spot, h.clocks.system⟩) := by
  have hr' := resolve_of_within hr (within_write hr hspot data) rfl
  rw [write, at?_put, if_pos rfl] at hr'
  exact find_eq_ok_iff.mpr hr'

theorem saved_write (g : Grown s h h₁) (hr : h₁.resolve true s = .ok spot) (hspot : TakesFile spot) (data : Bytes) :
    Saved s data h (h₁.write spot data) := by
  have hf := find_write hr hspot data
  have hat := at?_of_find hf
  rw [g.clocks] at hat
  refine ⟨g.here, g.clocks, load_of_find hf rfl, _, _, hf, ?_, fun q hq => ?_⟩
  · have hnode := node_eq_of_resolve hr
    cases hn : spot.node with
    | none =>
      rw [hn] at hnode
      have hperm : filePermissions spot = newFile := by rw [filePermissions, hn]; rfl
      exact .new (g.within.at?_eq_none hnode.symm) (hperm ▸ hat)
    | some n =>
      obtain ⟨old, hc⟩ := hspot n hn
      rw [hn] at hnode
      have hperm : filePermissions spot = n.permissions := by rw [filePermissions, hn]; rfl
      rw [hperm] at hat
      cases g.kept spot.place with
      | same e => exact .over n old (e ▸ hnode.symm) hc hat
      | stamped m _ hm hm' =>
        rw [← hnode] at hm'
        cases hm'
        exact .over m old hm hc hat
      | made _ _ _ hmade =>
        have hdir := at?_of_find hmade
        rw [← hnode] at hdir
        cases hdir
        cases hc
  · exact (g.kept q).trans (kept_put h₁ hq) g.clocks g.within (within_write hr hspot data) rfl

/-- Writing either fails, and then directories may have been made, or leaves the data. -/
theorem save_cases (s : String) (data : Bytes) (h : Host) :
    (∃ f h', save s data h = (.error f, h') ∧ WriteFault s f ∧ Grown s h h') ∨
      ∃ h', save s data h = (.ok (), h') ∧ Saved s data h h' := by
  have g := grown_ensureParent s h
  rcases he : ensureParent s h with ⟨f | _, h₁⟩
  · rw [he] at g
    exact .inl ⟨f, h₁, bind_of_error he, writeFault_of_ensureParent he, g⟩
  · rw [he] at g
    have hsave : save s data h = replaceFile s data h₁ := bind_of_ok he
    have hrep := replaced s data h₁
    rw [← hsave] at hrep
    generalize save s data h = r at hrep ⊢
    cases hrep with
    | written spot hr hspot => exact .inr ⟨_, rfl, saved_write g hr hspot data⟩
    | taken p n hr hc hd =>
      have hf := find_eq_ok_iff.mpr hr
      have hl : h₁.load s = .ok data := by simp [load, hf, hc, hd]
      exact .inr ⟨h₁, rfl, g.here, g.clocks, hl, p, n, hf, .taken n hd (at?_of_find hf) hc (g.kept p), fun q _ => g.kept q⟩
    | failed f hw => exact .inl ⟨f, h₁, rfl, hw, g⟩

/-! ## (3) Paths that can be written -/

theorem replaceFile_eq (hr : h.resolve true s = .ok spot) (hspot : TakesFile spot) (data : Bytes) :
    replaceFile s data h = (.ok (), h.write spot data) := by
  obtain ⟨p, node⟩ := spot
  unfold replaceFile
  cases node with
  | none =>
    simp only [hr]
    rfl
  | some n =>
    obtain ⟨old, hc⟩ := hspot n rfl
    simp only [hr, hc]
    rfl

theorem ensureParent_of_resolve (hs : h.Sound) (hr : h.resolve follow s = .ok spot) : ensureParent s h = (.ok (), h) := by
  rw [ensureParent_eq]
  split
  · rfl
  · rename_i hp
    have hm : makePath (Path.parent s) h = (.ok (), h) := by
      rw [makePath, status_parent hs hr hp]
    rw [hm]
    rfl

/-- On a sound host a path that leads to a file or to a free name is written. -/
theorem save_eq_write (hs : h.Sound) (hr : h.resolve true s = .ok spot) (hspot : TakesFile spot) (data : Bytes) :
    save s data h = (.ok (), h.write spot data) := by
  have he : save s data h = replaceFile s data h := bind_of_ok (ensureParent_of_resolve hs hr)
  rw [he, replaceFile_eq hr hspot]

/-! ## (4) Sound hosts -/

namespace Sound

theorem write (hs : h.Sound) (hr : h.resolve follow s = .ok spot) (hspot : TakesFile spot) (data : Bytes) :
    (h.write spot data).Sound := by
  have hnode := node_eq_of_resolve hr
  refine hs.put_of_resolve hr fun hd => ?_
  obtain ⟨n, hn, hc⟩ := Tree.isDirectory_iff.mp hd
  obtain ⟨old, hold⟩ := hspot n (hnode.trans hn)
  rw [hc] at hold
  cases hold

theorem makeDirectory (hs : h.Sound) (hm : makeDirectory s h = .ok h') : h'.Sound := by
  unfold Host.makeDirectory at hm
  split at hm
  · rename_i p hr
    cases hm
    exact hs.put_of_resolve hr fun _ => rfl
  · split at hm
    · cases hm
      exact hs
    · cases hm
  · cases hm

theorem makeDirectories {l : List String} (hs : h.Sound) : (makeDirectories l h).2.Sound := by
  induction l generalizing h with
  | nil => exact hs
  | cons s l ih =>
    rw [Host.makeDirectories]
    cases hm : Host.makeDirectory s h with
    | ok h₁ => exact ih (hs.makeDirectory hm)
    | error why => exact hs

theorem makePath (hs : h.Sound) (s : String) : (makePath s h).2.Sound := by
  unfold Host.makePath
  split
  · exact hs
  · exact hs
  · exact hs
  · cases h.missing (s.length + 1) [] s with
    | ok l => exact hs.makeDirectories
    | error why => exact hs

theorem ensureParent (hs : h.Sound) (s : String) : (ensureParent s h).2.Sound := by
  rw [ensureParent_eq]
  split
  · exact hs
  · exact hs.makePath _

/-- Writing a file keeps a host sound, whatever comes of it. -/
theorem save (hs : h.Sound) (s : String) (data : Bytes) : (save s data h).2.Sound := by
  have hs₁ := hs.ensureParent s
  rcases he : Host.ensureParent s h with ⟨f | _, h₁⟩
  · have hsave : Host.save s data h = (.error f, h₁) := bind_of_error he
    rw [hsave]
    rwa [he] at hs₁
  · rw [he] at hs₁
    have hsave : Host.save s data h = replaceFile s data h₁ := bind_of_ok he
    have hrep := replaced s data h₁
    rw [← hsave] at hrep
    generalize Host.save s data h = r at hrep ⊢
    cases hrep with
    | written spot hr hspot => exact hs₁.write hr hspot data
    | taken => exact hs₁
    | failed => exact hs₁

end Sound

end FlatPackage.Host
