/-
  FlatPackage.Proofs.Tree.Walk — walks that arrive.

  A walk that arrives is a derivation (`Walks`): one rule for each kind of step, and the number of
  links that were taken. The walk as it is computed arrives exactly where a derivation with
  no more links than allowed does (`walk_eq_ok_iff`), so what holds of arriving walks is proved
  on derivations and the forty links never come up.

  Proved:
  (1) `Walks.node_eq`, `Walks.isDirectory_dropLast`: a walk that starts in a directory ends at the node of its
      place, in a directory that is there.
  (2) `walks_append_iff`: a walk over two ways is one over the first to a directory, links
      followed, and from there one over the second; where the first fails, so does the whole
      (`walk_append_of_error`).
  (3) `Walks.of_within`: a walk arrives at the same place once the tree has got more nodes.
  (4) `walks_names`: the names of a place lead to it.
-/

import FlatPackage.Proofs.Path.Steps
import FlatPackage.Proofs.Tree.Nodes

namespace FlatPackage.Tree

/-- A step that looks up a name. -/
structure Passable (name : String) : Prop where
  notHere : name ≠ "."
  notUp : name ≠ ".."
  short : name.utf8ByteSize ≤ nameLimit

/-- A walk from a directory over these steps that takes so many links and ends at a spot. -/
inductive Walks (t : Tree) (follow : Bool) : Nat → Place → List String → Spot → Prop
  | done {dir : Place} : Walks t follow 0 dir [] ⟨dir, t.at? dir⟩
  | here {k : Nat} {dir : Place} {rest : List String} {s : Spot} : Walks t follow k dir rest s →
      Walks t follow k dir ("." :: rest) s
  | up {k : Nat} {dir : Place} {rest : List String} {s : Spot} : Walks t follow k dir.dropLast rest s →
      Walks t follow k dir (".." :: rest) s
  | free {dir : Place} {name : String} : Passable name → t.at? (dir ++ [name]) = none →
      Walks t follow 0 dir [name] ⟨dir ++ [name], none⟩
  | last {dir : Place} {name : String} {n : Node} : Passable name → t.at? (dir ++ [name]) = some n →
      n.content ≠ .directory → (follow = true → ∀ target, n.content ≠ .symlink target) →
      Walks t follow 0 dir [name] ⟨dir ++ [name], some n⟩
  | into {k : Nat} {dir : Place} {name : String} {n : Node} {rest : List String} {s : Spot} : Passable name →
      t.at? (dir ++ [name]) = some n → n.content = .directory → Walks t follow k (dir ++ [name]) rest s →
      Walks t follow k dir (name :: rest) s
  | through {k : Nat} {dir : Place} {name : String} {n : Node} {target : String} {rest : List String} {s : Spot} :
      Passable name → t.at? (dir ++ [name]) = some n → n.content = .symlink target → rest ≠ [] ∨ follow = true →
      Walks t follow k (origin dir target) (Path.steps target ++ rest) s →
      Walks t follow (k + 1) dir (name :: rest) s

variable {t : Tree} {follow : Bool} {k links : Nat} {dir p : Place} {steps : List String} {s : Spot}

/-! ## The walk as it is computed -/

/-- How a walk that may take so many links goes on through one. -/
def jump (t : Tree) (follow : Bool) : Nat → Place → List String → Except Refusal Spot
  | 0 => fun _ _ => .error .tooManyLinks
  | links + 1 => t.walk follow links

theorem walk_eq (t : Tree) (follow : Bool) (links : Nat) : t.walk follow links = t.walkSteps follow (jump t follow links) := by
  cases links <;> rfl

/-- What one turn of the walk does with a name, by what is there. -/
theorem walk_name {name : String} (hn : Passable name) (rest : List String) :
    t.walk follow links dir (name :: rest) =
      match t.at? (dir ++ [name]) with
      | none => if rest.isEmpty then .ok ⟨dir ++ [name], none⟩ else .error .notFound
      | some node =>
        match node.content with
        | .directory => t.walk follow links (dir ++ [name]) rest
        | .symlink target =>
          if rest.isEmpty ∧ !follow then .ok ⟨dir ++ [name], some node⟩
          else jump t follow links (origin dir target) (Path.steps target ++ rest)
        | _ => if rest.isEmpty then .ok ⟨dir ++ [name], some node⟩ else .error .notADirectory := by
  rw [walk_eq, walkSteps, if_neg hn.notHere, if_neg hn.notUp]
  exact if_neg (Nat.not_lt.mpr hn.short)

theorem walk_here (rest : List String) : t.walk follow links dir ("." :: rest) = t.walk follow links dir rest := by
  rw [walk_eq, walkSteps, if_pos rfl]

theorem walk_up (rest : List String) :
    t.walk follow links dir (".." :: rest) = t.walk follow links dir.dropLast rest := by
  rw [walk_eq, walkSteps, if_neg (by decide), if_pos rfl]

theorem Walks.walk_eq_ok (h : Walks t follow k dir steps s) (hk : k ≤ links) : t.walk follow links dir steps = .ok s := by
  induction h generalizing links with
  | done => rw [walk_eq, walkSteps]
  | here _ ih => rw [walk_here, ih hk]
  | up _ ih => rw [walk_up, ih hk]
  | free hn hat => simp [walk_name hn, hat]
  | last hn hat hd hl =>
    rename_i n
    rw [walk_name hn, hat]
    cases hc : n.content with
    | directory => exact absurd hc hd
    | symlink target =>
      have hf : follow = false := by
        rw [← Bool.not_eq_true]
        exact fun hf => hl hf target hc
      simp [hf, hc]
    | file => simp [hc]
    | special => simp [hc]
  | into hn hat hc _ ih =>
    rw [walk_name hn, hat]
    simp only [hc]
    exact ih hk
  | through hn hat hc hr _ ih =>
    obtain ⟨m, rfl⟩ : ∃ m, links = m + 1 := ⟨links - 1, by omega⟩
    have hnot : ¬((_ : List String).isEmpty = true ∧ (!follow) = true) := fun ⟨he, hf⟩ =>
      hr.elim (fun hr => hr (List.isEmpty_iff.mp he)) (fun hr => by simp [hr] at hf)
    rw [walk_name hn, hat]
    simp only [hc]
    rw [if_neg hnot]
    exact ih (by omega)

theorem walk_long {name : String} (hhere : name ≠ ".") (hup : name ≠ "..") (hlong : ¬name.utf8ByteSize ≤ nameLimit)
    (rest : List String) : t.walk follow links dir (name :: rest) = .error .nameTooLong := by
  rw [walk_eq, walkSteps, if_neg hhere, if_neg hup, if_pos (Nat.not_le.mp hlong)]

section Arriving

variable (hjump : ∀ {d : Place} {l : List String}, jump t follow links d l = .ok s →
  ∃ k, k < links ∧ Walks t follow k d l s)

include hjump

/-- A walk that goes on through a name arrives by the rule for what is there. -/
theorem exists_walks_of_name {name : String} {rest : List String} (hn : Passable name)
    (hrest : t.walk follow links (dir ++ [name]) rest = .ok s →
      ∃ k, k ≤ links ∧ Walks t follow k (dir ++ [name]) rest s)
    (h : t.walk follow links dir (name :: rest) = .ok s) : ∃ k, k ≤ links ∧ Walks t follow k dir (name :: rest) s := by
  rw [walk_name hn] at h
  cases hat : t.at? (dir ++ [name]) with
  | none =>
    simp only [hat] at h
    split at h
    · rename_i hr
      cases h
      rw [List.isEmpty_iff.mp hr]
      exact ⟨0, Nat.zero_le _, .free hn hat⟩
    · cases h
  | some n =>
    simp only [hat] at h
    split at h
    · rename_i hc
      obtain ⟨k, hk, hw⟩ := hrest h
      exact ⟨k, hk, .into hn hat hc hw⟩
    · rename_i target hc
      split at h
      · rename_i hr
        cases h
        rw [List.isEmpty_iff.mp hr.1]
        refine ⟨0, Nat.zero_le _, .last hn hat (by simp [hc]) fun hf => ?_⟩
        simp [hf] at hr
      · rename_i hr
        obtain ⟨k, hk, hw⟩ := hjump h
        refine ⟨k + 1, hk, .through hn hat hc ?_ hw⟩
        by_cases hf : follow = true
        · exact .inr hf
        · exact .inl fun he => hr ⟨by simp [he], by simp [hf]⟩
    · rename_i hd hl
      split at h
      · rename_i hr
        cases h
        rw [List.isEmpty_iff.mp hr]
        exact ⟨0, Nat.zero_le _, .last hn hat hd fun _ target hc => hl target hc⟩
      · cases h

theorem exists_walks_of_walk (h : t.walk follow links dir steps = .ok s) :
    ∃ k, k ≤ links ∧ Walks t follow k dir steps s := by
  induction steps generalizing dir with
  | nil =>
    rw [walk_eq, walkSteps] at h
    cases h
    exact ⟨0, Nat.zero_le _, .done⟩
  | cons name rest ih =>
    by_cases hhere : name = "."
    · subst hhere
      rw [walk_here] at h
      obtain ⟨k, hk, hw⟩ := ih h
      exact ⟨k, hk, .here hw⟩
    by_cases hup : name = ".."
    · subst hup
      rw [walk_up] at h
      obtain ⟨k, hk, hw⟩ := ih h
      exact ⟨k, hk, .up hw⟩
    by_cases hshort : name.utf8ByteSize ≤ nameLimit
    · exact exists_walks_of_name hjump ⟨hhere, hup, hshort⟩ ih h
    · rw [walk_long hhere hup hshort] at h
      cases h

end Arriving

/-- The walk arrives at a spot exactly when there is a derivation with no more links than allowed. -/
theorem walk_eq_ok_iff : t.walk follow links dir steps = .ok s ↔ ∃ k, k ≤ links ∧ Walks t follow k dir steps s := by
  constructor
  · intro h
    induction links generalizing dir steps with
    | zero => exact exists_walks_of_walk (fun h => by cases h) h
    | succ links ih =>
      refine exists_walks_of_walk (fun h => ?_) h
      obtain ⟨k, hk, hw⟩ := ih h
      exact ⟨k, Nat.lt_succ_of_le hk, hw⟩
  · rintro ⟨k, hk, hw⟩
    exact hw.walk_eq_ok hk

/-! ## (1) Where a walk ends -/

namespace Walks

theorem node_eq (h : Walks t follow k dir steps s) : s.node = t.at? s.place := by
  induction h with
  | done => rfl
  | here _ ih => exact ih
  | up _ ih => exact ih
  | free _ hat => exact hat.symm
  | last _ hat => exact hat.symm
  | into _ _ _ _ ih => exact ih
  | through _ _ _ _ _ ih => exact ih

theorem isDirectory_origin (ht : t.Sound) (hd : t.isDirectory dir = true) (target : String) :
    t.isDirectory (origin dir target) = true := by
  unfold origin
  split
  · exact ht.root
  · exact hd

/-- The directory that a walk's last name is in is there. -/
theorem isDirectory_dropLast (h : Walks t follow k dir steps s) (ht : t.Sound) (hd : t.isDirectory dir = true) :
    t.isDirectory s.place.dropLast = true := by
  induction h with
  | done => exact ht.isDirectory_up hd
  | here _ ih => exact ih hd
  | up _ ih => exact ih (ht.isDirectory_up hd)
  | free => rwa [List.dropLast_concat]
  | last => rwa [List.dropLast_concat]
  | into _ hat hc _ ih => exact ih (isDirectory_iff.mpr ⟨_, hat, hc⟩)
  | through _ _ _ _ _ ih => exact ih (isDirectory_origin ht hd _)

/-- Where no link is, a walk ends whether or not links are followed. -/
theorem follow_of_noLink (h : Walks t false k dir steps s) (hs : ∀ n target, s.node = some n → n.content ≠ .symlink target) :
    Walks t true k dir steps s := by
  induction h with
  | done => exact .done
  | here _ ih => exact .here (ih hs)
  | up _ ih => exact .up (ih hs)
  | free hn hat => exact .free hn hat
  | last hn hat hc _ => exact .last hn hat hc fun _ target => hs _ target rfl
  | into hn hat hc _ ih => exact .into hn hat hc (ih hs)
  | through hn hat hc _ _ ih => exact .through hn hat hc (.inr rfl) (ih hs)

/-- Every name of a way that was walked was looked up. -/
theorem passable (h : Walks t follow k dir steps s) : ∀ x ∈ steps, x = "." ∨ x = ".." ∨ Passable x := by
  have hcons : ∀ {x : String} {rest : List String}, (x = "." ∨ x = ".." ∨ Passable x) →
      (∀ y ∈ rest, y = "." ∨ y = ".." ∨ Passable y) → ∀ y ∈ x :: rest, y = "." ∨ y = ".." ∨ Passable y := by
    intro x rest hx hrest y hy
    rcases List.mem_cons.mp hy with rfl | hy
    · exact hx
    · exact hrest y hy
  induction h with
  | done => simp
  | here _ ih => exact hcons (.inl rfl) ih
  | up _ ih => exact hcons (.inr (.inl rfl)) ih
  | free hn => exact hcons (.inr (.inr hn)) (by simp)
  | last hn => exact hcons (.inr (.inr hn)) (by simp)
  | into hn _ _ _ ih => exact hcons (.inr (.inr hn)) ih
  | through hn _ _ _ _ ih => exact hcons (.inr (.inr hn)) fun y hy => ih y (List.mem_append_right _ hy)

theorem of_nil (h : Walks t follow k dir [] s) : s = ⟨dir, t.at? dir⟩ := by
  cases h
  rfl

/-- At the end of the way no link is left to follow. -/
theorem follow_of_nil (h : Walks t follow k dir [] s) (follow' : Bool) : Walks t follow' k dir [] s := by
  cases h
  exact .done

theorem of_here {rest : List String} (h : Walks t follow k dir ("." :: rest) s) : Walks t follow k dir rest s := by
  generalize hl : "." :: rest = l at h
  cases h with
  | done => cases hl
  | here h =>
    cases hl
    exact h
  | up => exact absurd (List.cons.inj hl).1 (by decide)
  | free hn => exact absurd (List.cons.inj hl).1.symm hn.notHere
  | last hn => exact absurd (List.cons.inj hl).1.symm hn.notHere
  | into hn => exact absurd (List.cons.inj hl).1.symm hn.notHere
  | through hn => exact absurd (List.cons.inj hl).1.symm hn.notHere

theorem of_up {rest : List String} (h : Walks t follow k dir (".." :: rest) s) : Walks t follow k dir.dropLast rest s := by
  generalize hl : ".." :: rest = l at h
  cases h with
  | done => cases hl
  | here => exact absurd (List.cons.inj hl).1 (by decide)
  | up h =>
    cases hl
    exact h
  | free hn => exact absurd (List.cons.inj hl).1.symm hn.notUp
  | last hn => exact absurd (List.cons.inj hl).1.symm hn.notUp
  | into hn => exact absurd (List.cons.inj hl).1.symm hn.notUp
  | through hn => exact absurd (List.cons.inj hl).1.symm hn.notUp

/-- A step to dots ends in a directory, whether or not links are followed. -/
theorem of_dots {x : String} (hx : Path.IsDots x) (h : Walks t follow k dir [x] s) (ht : t.Sound)
    (hd : t.isDirectory dir = true) : t.isDirectory s.place = true ∧ ∀ follow', Walks t follow' k dir [x] s := by
  rcases hx with rfl | rfl
  · have hend := h.of_here
    exact ⟨by rwa [hend.of_nil], fun follow' => .here (hend.follow_of_nil follow')⟩
  · have hend := h.of_up
    refine ⟨?_, fun follow' => .up (hend.follow_of_nil follow')⟩
    rw [hend.of_nil]
    exact ht.isDirectory_up hd

/-! ## (2) Two ways in one -/

theorem append {k' : Nat} {a b : List String} {d : Place} (h : Walks t true k dir a s) (hs : s.place = d)
    (hd : t.isDirectory d = true) (hb : b ≠ []) {s' : Spot} (h' : Walks t follow k' d b s') :
    Walks t follow (k + k') dir (a ++ b) s' := by
  induction h with
  | done =>
    subst hs
    simpa using h'
  | here _ ih => exact .here (ih hs)
  | up _ ih => exact .up (ih hs)
  | free hn hat =>
    obtain ⟨n, hat', -⟩ := isDirectory_iff.mp hd
    rw [← hs, hat] at hat'
    cases hat'
  | last hn hat hc =>
    obtain ⟨n, hat', hc'⟩ := isDirectory_iff.mp hd
    rw [← hs, hat] at hat'
    cases hat'
    exact absurd hc' hc
  | into hn hat hc _ ih => exact .into hn hat hc (ih hs)
  | through hn hat hc _ _ ih =>
    have h := ih hs
    rw [List.append_assoc] at h
    rw [Nat.add_right_comm]
    exact .through hn hat hc (.inl (by simp [hb])) h

theorem split (h : Walks t follow k dir steps s) (ht : t.Sound) (hd : t.isDirectory dir = true) {a b : List String}
    (hab : steps = a ++ b) (hb : b ≠ []) :
    ∃ k₁ k₂ d, k₁ + k₂ = k ∧ Walks t true k₁ dir a ⟨d, t.at? d⟩ ∧ t.isDirectory d = true ∧ Walks t follow k₂ d b s := by
  -- at the end of the first way there is nothing to derive
  have hnil : ∀ {k dir steps s}, Walks t follow k dir steps s → t.isDirectory dir = true → steps = b →
      ∃ k₁ k₂ d, k₁ + k₂ = k ∧ Walks t true k₁ dir [] ⟨d, t.at? d⟩ ∧ t.isDirectory d = true ∧ Walks t follow k₂ d b s :=
    fun {k dir _ _} h hd he => ⟨0, k, dir, Nat.zero_add k, .done, hd, he ▸ h⟩
  have hone : ∀ {name x : String} {a : List String}, [name] ≠ x :: a ++ b := by
    intro name x a he
    rw [List.cons_append] at he
    exact hb (List.append_eq_nil_iff.mp (List.cons.inj he).2.symm).2
  induction h generalizing a with
  | done =>
    exact absurd (List.append_eq_nil_iff.mp hab.symm).2 hb
  | here h ih =>
    rcases a with _ | ⟨x, a⟩
    · exact hnil (.here h) hd hab
    · obtain ⟨rfl, hr⟩ := List.cons.inj hab
      obtain ⟨k₁, k₂, d, hk, h₁, hd', h₂⟩ := ih hd hr
      exact ⟨k₁, k₂, d, hk, .here h₁, hd', h₂⟩
  | up h ih =>
    rcases a with _ | ⟨x, a⟩
    · exact hnil (.up h) hd hab
    · obtain ⟨rfl, hr⟩ := List.cons.inj hab
      obtain ⟨k₁, k₂, d, hk, h₁, hd', h₂⟩ := ih (ht.isDirectory_up hd) hr
      exact ⟨k₁, k₂, d, hk, .up h₁, hd', h₂⟩
  | free hn hat =>
    rcases a with _ | ⟨x, a⟩
    · exact hnil (.free hn hat) hd hab
    · exact absurd hab hone
  | last hn hat hc hl =>
    rcases a with _ | ⟨x, a⟩
    · exact hnil (.last hn hat hc hl) hd hab
    · exact absurd hab hone
  | into hn hat hc h ih =>
    rcases a with _ | ⟨x, a⟩
    · exact hnil (.into hn hat hc h) hd hab
    · obtain ⟨rfl, hr⟩ := List.cons.inj hab
      obtain ⟨k₁, k₂, d, hk, h₁, hd', h₂⟩ := ih (isDirectory_iff.mpr ⟨_, hat, hc⟩) hr
      exact ⟨k₁, k₂, d, hk, .into hn hat hc h₁, hd', h₂⟩
  | through hn hat hc hr h ih =>
    rcases a with _ | ⟨x, a⟩
    · exact hnil (.through hn hat hc hr h) hd hab
    · obtain ⟨rfl, rfl⟩ := List.cons.inj hab
      obtain ⟨k₁, k₂, d, hk, h₁, hd', h₂⟩ := ih (isDirectory_origin ht hd _) (List.append_assoc _ _ _).symm
      exact ⟨k₁ + 1, k₂, d, by omega, .through hn hat hc (.inr rfl) h₁, hd', h₂⟩

end Walks

/-- A walk over two ways, the second with a step at least, is one over the first to a directory and from
    there one over the second. -/
theorem walks_append_iff (ht : t.Sound) (hd : t.isDirectory dir = true) {a b : List String} (hb : b ≠ []) :
    Walks t follow k dir (a ++ b) s ↔
      ∃ k₁ k₂ d, k₁ + k₂ = k ∧ Walks t true k₁ dir a ⟨d, t.at? d⟩ ∧ t.isDirectory d = true ∧ Walks t follow k₂ d b s :=
  ⟨fun h => h.split ht hd rfl hb, fun ⟨_, _, _, hk, h₁, hd', h₂⟩ => hk ▸ h₁.append rfl hd' hb h₂⟩

/-- A walk fails where its first part does, if the jumps that it takes do. -/
theorem walk_append_of_jump {b : List String} {why : Refusal}
    (hjump : ∀ {d : Place} {l b : List String}, b ≠ [] → jump t true links d l = .error why →
      jump t follow links d (l ++ b) = .error why) (hb : b ≠ []) {a : List String}
    (h : t.walk true links dir a = .error why) : t.walk follow links dir (a ++ b) = .error why := by
  induction a generalizing dir with
  | nil =>
    rw [walk_eq, walkSteps] at h
    cases h
  | cons name rest ih =>
    by_cases hhere : name = "."
    · subst hhere
      rw [List.cons_append, walk_here]
      rw [walk_here] at h
      exact ih h
    by_cases hup : name = ".."
    · subst hup
      rw [List.cons_append, walk_up]
      rw [walk_up] at h
      exact ih h
    by_cases hshort : name.utf8ByteSize ≤ nameLimit
    · have hn : Passable name := ⟨hhere, hup, hshort⟩
      have hmore : (rest ++ b).isEmpty = false := by simp [hb]
      rw [walk_name hn] at h
      rw [List.cons_append, walk_name hn]
      cases hat : t.at? (dir ++ [name]) with
      | none =>
        simp only [hat] at h
        split at h
        · cases h
        · cases h
          simp [hmore]
      | some n =>
        simp only [hat] at h
        cases hc : n.content with
        | directory =>
          simp only [hc] at h ⊢
          exact ih h
        | symlink target =>
          have hfails : jump t true links (origin dir target) (Path.steps target ++ rest) = .error why := by
            simpa [hc] using h
          have hgoes := hjump hb hfails
          rw [List.append_assoc] at hgoes
          simpa [hc, hmore] using hgoes
        | file data =>
          simp only [hc, hmore] at h ⊢
          split at h
          · cases h
          · cases h
            rfl
        | special =>
          simp only [hc, hmore] at h ⊢
          split at h
          · cases h
          · cases h
            rfl
    · rw [List.cons_append, walk_long hhere hup hshort]
      rwa [walk_long hhere hup hshort] at h

/-- A walk that fails, its last link followed, fails for the same reason when it is to go on. -/
theorem walk_append_of_error {a b : List String} {why : Refusal} (hb : b ≠ []) (h : t.walk true links dir a = .error why) :
    t.walk follow links dir (a ++ b) = .error why := by
  -- through one link less it holds of whatever the link leads to
  induction links generalizing dir a b with
  | zero => exact walk_append_of_jump (fun _ hf => hf) hb h
  | succ links ih => exact walk_append_of_jump ih hb h

/-! ## (3) Trees with more nodes -/

/-- Two contents that a walk cannot tell apart. -/
def Alike : Content → Content → Prop
  | .file _, .file _ => True
  | c, c' => c = c'

theorem Alike.refl (c : Content) : Alike c c := by cases c <;> simp [Alike]

/-- Every node is still there and leads to the same, and what is new is no link. -/
structure Within (t t' : Tree) : Prop where
  stays : ∀ {p : Place} {n : Node}, t.at? p = some n → ∃ n', t'.at? p = some n' ∧ Alike n.content n'.content
  fresh : ∀ {p : Place} {n' : Node} {target : String}, t.at? p = none → t'.at? p = some n' → n'.content ≠ .symlink target

namespace Alike

variable {c c' : Content} {target : String}

theorem directory_iff (h : Alike c c') : c' = .directory ↔ c = .directory := by
  cases c <;> cases c' <;> simp_all [Alike]

theorem symlink_iff (h : Alike c c') : c' = .symlink target ↔ c = .symlink target := by
  cases c <;> cases c' <;> simp_all [Alike]

end Alike

namespace Within

variable {t' : Tree}

/-- A place that is empty in the larger tree was empty before. -/
theorem at?_eq_none (h : Within t t') (hn : t'.at? p = none) : t.at? p = none := by
  cases hat : t.at? p with
  | none => rfl
  | some n =>
    obtain ⟨n', hn', -⟩ := h.stays hat
    rw [hn] at hn'
    cases hn'

end Within

/-- A walk arrives at the same place, and finds what is there now. -/
theorem Walks.of_within {t' : Tree} (h : Walks t follow k dir steps s) (hw : Within t t') :
    Walks t' follow k dir steps ⟨s.place, t'.at? s.place⟩ := by
  induction h with
  | done => exact .done
  | here _ ih => exact .here ih
  | up _ ih => exact .up ih
  | free hn hat =>
    rename_i dir name
    show Walks t' follow 0 dir [name] ⟨dir ++ [name], t'.at? (dir ++ [name])⟩
    cases hat' : t'.at? (dir ++ [name]) with
    | none => exact .free hn hat'
    | some n' =>
      by_cases hc : n'.content = .directory
      · rw [← hat']
        exact .into hn hat' hc .done
      · exact .last hn hat' hc fun _ _ => hw.fresh hat hat'
  | last hn hat hc hl =>
    rename_i dir name n
    show Walks t' follow 0 dir [name] ⟨dir ++ [name], t'.at? (dir ++ [name])⟩
    obtain ⟨n', hn', ha⟩ := hw.stays hat
    rw [hn']
    exact .last hn hn' (fun hd => hc (ha.directory_iff.mp hd)) fun hf target hs => hl hf target (ha.symlink_iff.mp hs)
  | into hn hat hc _ ih =>
    obtain ⟨n', hn', ha⟩ := hw.stays hat
    exact .into hn hn' (ha.directory_iff.mpr hc) ih
  | through hn hat hc hr _ ih =>
    obtain ⟨n', hn', ha⟩ := hw.stays hat
    exact .through hn hn' (ha.symlink_iff.mpr hc) hr ih

/-! ## (4) The names of a place -/

/-- The way to a node from a directory above it leads through directories; only the node itself may be a
    link, which then must not be followed. -/
theorem walks_names (ht : t.Sound) {names : List String} {n : Node} (hn : t.at? (dir ++ names) = some n)
    (hl : follow = true → ∀ target, n.content ≠ .symlink target) :
    Walks t follow 0 dir names ⟨dir ++ names, t.at? (dir ++ names)⟩ := by
  induction names generalizing dir with
  | nil =>
    rw [List.append_nil]
    exact .done
  | cons name rest ih =>
    have hname : IsName name := ht.isName hn name (by simp)
    have hp : Passable name := ⟨hname.notHere, hname.notUp, hname.short⟩
    have hassoc : dir ++ name :: rest = (dir ++ [name]) ++ rest := by simp
    rw [hassoc] at hn ⊢
    by_cases hrest : rest = []
    · subst hrest
      rw [List.append_nil] at hn ⊢
      by_cases hd : n.content = .directory
      · exact .into hp hn hd .done
      · rw [hn]
        exact .last hp hn hd hl
    · obtain ⟨m, hm, hc⟩ := isDirectory_iff.mp (ht.isDirectory_of_append hn hrest)
      exact .into hp hm hc (ih hn)

end FlatPackage.Tree
