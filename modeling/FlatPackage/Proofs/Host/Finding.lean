/-
  FlatPackage.Proofs.Host.Finding — what a path leads to on a host.

  A host is sound when its tree is and the working directory is a directory of it. What a
  path leads to is the end of a walk (`resolve_eq_ok_iff`), so what holds of walks is said here of
  paths.

  Proved:
  (1) `resolve_of_within`: a path leads to the same place on a host with more nodes.
  (2) `isName_of_resolve`, `isDirectory_of_resolve`: a place that a path leads to can be taken by a
      node, and its directory is there.
  (3) `status_parent`: the directory of a path that leads somewhere is a directory.
-/

import FlatPackage.Host.Files
import FlatPackage.Proofs.Path.Steps
import FlatPackage.Proofs.Tree.Walk

namespace FlatPackage

open FlatPackage.Tree (IsName Node Refusal Spot Walks Within linkLimit origin pathLimit)

/-- The names on the way to a place are ones that nodes can have. -/
theorem Tree.Walks.isName {t : Tree} {follow : Bool} {k : Nat} {dir : Place} {steps : List String} {s : Spot}
    (h : Walks t follow k dir steps s) (ht : t.Sound) (hd : ∀ x ∈ dir, IsName x) (hs : ∀ x ∈ steps, Path.IsStep x) :
    ∀ x ∈ s.place, IsName x := by
  induction h with
  | done => exact hd
  | here _ ih => exact ih hd fun x hx => hs x (List.mem_cons_of_mem _ hx)
  | up _ ih => exact ih (fun x hx => hd x (List.dropLast_subset _ hx)) fun x hx => hs x (List.mem_cons_of_mem _ hx)
  | free hn =>
    intro x hx
    rcases List.mem_append.mp hx with hx | hx
    · exact hd x hx
    · obtain ⟨hne, hno⟩ := hs _ List.mem_cons_self
      rw [List.mem_singleton.mp hx]
      exact ⟨hne, hno, hn.notHere, hn.notUp, hn.short⟩
  | last _ hat => exact ht.isName hat
  | into _ hat _ _ ih => exact ih (ht.isName hat) fun x hx => hs x (List.mem_cons_of_mem _ hx)
  | through _ _ _ _ _ ih =>
    refine ih ?_ fun x hx => ?_
    · unfold Tree.origin
      split
      · simp
      · exact hd
    · rcases List.mem_append.mp hx with hx | hx
      · exact Path.isStep_of_mem_steps hx
      · exact hs x (List.mem_cons_of_mem _ hx)

namespace Host

variable {h h' : Host} {follow : Bool} {s : String} {spot : Spot} {p : Place} {n : Node}

/-! ## Where a path leads -/

structure Sound (h : Host) : Prop where
  tree : h.tree.Sound
  here : h.tree.isDirectory h.here = true

instance (h : Host) : Decidable h.Sound :=
  decidable_of_iff (h.tree.Sound ∧ h.tree.isDirectory h.here = true) ⟨fun ⟨a, b⟩ => ⟨a, b⟩, fun ⟨a, b⟩ => ⟨a, b⟩⟩

theorem resolve_eq_ok_iff : h.resolve follow s = .ok spot ↔ s ≠ "" ∧ s.utf8ByteSize < pathLimit ∧
    ∃ k, k ≤ linkLimit ∧ Walks h.tree follow k (origin h.here s) (Path.steps s) spot := by
  rw [← Tree.walk_eq_ok_iff, resolve, Tree.resolve]
  by_cases hs : s = ""
  · simp [hs]
  by_cases hl : s.utf8ByteSize < pathLimit
  · simp [hs, hl, Nat.not_le.mpr hl]
  · simp [hs, hl, Nat.not_lt.mp hl]

theorem find_eq_ok_iff : h.find follow s = .ok (p, n) ↔ h.resolve follow s = .ok ⟨p, some n⟩ := by
  show (h.resolve follow s >>= _) = _ ↔ _
  cases h.resolve follow s with
  | error why => simp [bind, Except.bind]
  | ok spot =>
    obtain ⟨q, m⟩ := spot
    cases m <;> simp [bind, Except.bind, pure, Except.pure, throw, throwThe, MonadExceptOf.throw]

theorem find_of_error {why : Refusal} (hr : h.resolve follow s = .error why) : h.find follow s = .error why := by
  show (h.resolve follow s >>= _) = _
  rw [hr]
  rfl

theorem find_of_free (hr : h.resolve follow s = .ok ⟨p, none⟩) : h.find follow s = .error .notFound := by
  show (h.resolve follow s >>= _) = _
  rw [hr]
  rfl

theorem resolve_eq_walk (hs : s ≠ "") (hl : s.utf8ByteSize < pathLimit) :
    h.resolve follow s = h.tree.walk follow linkLimit (origin h.here s) (Path.steps s) := by
  rw [resolve, Tree.resolve, if_neg (by simpa using hs), if_neg (Nat.not_le.mpr hl)]

theorem resolve_of_long (hs : s ≠ "") (hl : pathLimit ≤ s.utf8ByteSize) : h.resolve follow s = .error .nameTooLong := by
  rw [resolve, Tree.resolve, if_neg (by simpa using hs), if_pos hl]

theorem node_eq_of_resolve (hr : h.resolve follow s = .ok spot) : spot.node = h.tree.at? spot.place := by
  obtain ⟨-, -, k, -, hw⟩ := resolve_eq_ok_iff.mp hr
  exact hw.node_eq

theorem at?_of_find (hf : h.find follow s = .ok (p, n)) : h.tree.at? p = some n :=
  (node_eq_of_resolve (find_eq_ok_iff.mp hf)).symm

theorem load_of_find {data : Bytes} (hf : h.find true s = .ok (p, n)) (hc : n.content = .file data) :
    h.load s = .ok data := by
  simp [load, hf, hc]

theorem status_eq_directory_iff : h.status s = .directory ↔ ∃ p n, h.find true s = .ok (p, n) ∧ n.content = .directory := by
  unfold status
  cases hf : h.find true s with
  | ok x =>
    obtain ⟨p, n⟩ := x
    by_cases hc : n.content = .directory <;> simp [hc]
  | error why => cases why <;> simp

/-! ## (1) More nodes -/

theorem resolve_of_within (hr : h.resolve follow s = .ok spot) (hw : Within h.tree h'.tree) (hh : h'.here = h.here) :
    h'.resolve follow s = .ok ⟨spot.place, h'.tree.at? spot.place⟩ := by
  obtain ⟨hs, hl, k, hk, hwalks⟩ := resolve_eq_ok_iff.mp hr
  exact resolve_eq_ok_iff.mpr ⟨hs, hl, k, hk, hh ▸ hwalks.of_within hw⟩

theorem find_of_within (hf : h.find follow s = .ok (p, n)) (hw : Within h.tree h'.tree) (hh : h'.here = h.here) :
    ∃ n', h'.tree.at? p = some n' ∧ Tree.Alike n.content n'.content ∧ h'.find follow s = .ok (p, n') := by
  obtain ⟨n', hn', ha⟩ := hw.stays (at?_of_find hf)
  have hr := resolve_of_within (find_eq_ok_iff.mp hf) hw hh
  exact ⟨n', hn', ha, find_eq_ok_iff.mpr (by rw [hr, ← hn'])⟩

/-- A path that does not lead to a link leads to the same when its last link is followed. -/
theorem resolve_of_noLink (hr : h.resolve false s = .ok spot)
    (hspot : ∀ n target, spot.node = some n → n.content ≠ .symlink target) : h.resolve true s = .ok spot := by
  obtain ⟨hs, hl, k, hk, hw⟩ := resolve_eq_ok_iff.mp hr
  exact resolve_eq_ok_iff.mpr ⟨hs, hl, k, hk, hw.follow_of_noLink hspot⟩

theorem resolve_of_free (hr : h.resolve false s = .ok ⟨p, none⟩) : h.resolve true s = .ok ⟨p, none⟩ :=
  resolve_of_noLink hr (by simp)

/-! ## (2) Places that a path leads to -/

theorem Sound.origin (hs : h.Sound) (s : String) : h.tree.isDirectory (origin h.here s) = true := by
  unfold Tree.origin
  split
  · exact hs.tree.root
  · exact hs.here

theorem isDirectory_of_resolve (hs : h.Sound) (hr : h.resolve follow s = .ok spot) :
    h.tree.isDirectory spot.place.dropLast = true := by
  obtain ⟨-, -, k, -, hw⟩ := resolve_eq_ok_iff.mp hr
  exact hw.isDirectory_dropLast hs.tree (hs.origin s)

theorem isName_of_resolve (hs : h.Sound) (hr : h.resolve follow s = .ok spot) : ∀ x ∈ spot.place, IsName x := by
  obtain ⟨-, -, k, -, hw⟩ := resolve_eq_ok_iff.mp hr
  obtain ⟨n, hn, -⟩ := Tree.isDirectory_iff.mp (hs.origin s)
  exact hw.isName hs.tree (hs.tree.isName hn) fun _ hx => Path.isStep_of_mem_steps hx

/-- Every step of a path that leads somewhere is dots or a name that a node can have. -/
theorem isName_of_mem_steps (hr : h.resolve follow s = .ok spot) {x : String} (hx : x ∈ Path.steps s) :
    x = "." ∨ x = ".." ∨ IsName x := by
  obtain ⟨-, -, k, -, hw⟩ := resolve_eq_ok_iff.mp hr
  obtain ⟨hne, hslash⟩ := Path.isStep_of_mem_steps hx
  rcases hw.passable x hx with he | he | hp
  · exact .inl he
  · exact .inr (.inl he)
  · exact .inr (.inr ⟨hne, hslash, hp.notHere, hp.notUp, hp.short⟩)

/-! ## (3) Parents -/

theorem find_root (hn : h.tree.at? [] = some n) : h.find true "/" = .ok ([], n) := by
  have hsteps : Path.steps "/" = ["."] := by decide
  have hw : Walks h.tree true 0 (origin h.here "/") (Path.steps "/") ⟨[], some n⟩ := by
    rw [hsteps, ← hn]
    exact .here .done
  exact find_eq_ok_iff.mpr (resolve_eq_ok_iff.mpr ⟨by decide, by decide, 0, Nat.zero_le _, hw⟩)

theorem status_root (hs : h.Sound) : h.status "/" = .directory := by
  obtain ⟨n, hn, hc⟩ := Tree.isDirectory_iff.mp hs.tree.root
  exact status_eq_directory_iff.mpr ⟨[], n, find_root hn, hc⟩

/-- On a sound host the walk to a path passes through the directory that the path's parent leads to. -/
theorem status_parent (hs : h.Sound) (hr : h.resolve follow s = .ok spot) (hp : Path.parent s ≠ "") :
    h.status (Path.parent s) = .directory := by
  rcases Path.parent_cases s with he | he | habove
  · exact absurd he hp
  · rw [he]
    exact status_root hs
  obtain ⟨-, hl, k, hk, hw⟩ := resolve_eq_ok_iff.mp hr
  obtain ⟨last, hsteps⟩ := habove.steps
  rw [hsteps] at hw
  obtain ⟨k₁, k₂, d, hsum, hw₁, hd, -⟩ := (Tree.walks_append_iff hs.tree (hs.origin s) (by simp)).mp hw
  obtain ⟨n, hn, hc⟩ := Tree.isDirectory_iff.mp hd
  have horigin : origin h.here (Path.parent s) = origin h.here s := by
    rw [Tree.origin, Tree.origin, habove.rooted]
  have hr' : h.resolve true (Path.parent s) = .ok ⟨d, some n⟩ := by
    refine resolve_eq_ok_iff.mpr ⟨hp, Nat.lt_of_le_of_lt habove.shorter hl, k₁, by omega, ?_⟩
    rw [horigin, ← hn]
    exact hw₁
  exact status_eq_directory_iff.mpr ⟨d, n, find_eq_ok_iff.mpr hr', hc⟩

end Host

end FlatPackage
