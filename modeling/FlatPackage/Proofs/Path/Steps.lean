/-
  FlatPackage.Proofs.Path.Steps — the steps of a text and of the text of its directory.

  A text's names are its pieces less the empty ones (`names`); a slash between two texts cuts
  between their names (`names_append_slash`). Taking the last piece off a text takes its last step
  off.

  Proved:
  (1) `isStep_of_mem_steps`: a step is not empty and has no slash.
  (2) `parent_cases`: a text has no parent, or one that is the root, or one whose steps are the
      text's own but the last.
  (3) `steps_of_pieces`: the last step of a text is its last piece.
-/

import FlatPackage.Path
import Mathlib.Data.List.Basic
import Mathlib.Data.List.TakeWhile

namespace FlatPackage.Path

/-! ## Names -/

/-- The pieces of a text that are not empty. -/
def names (s : List Char) : List String := ((pieces s).filter (!·.isEmpty)).map String.ofList

theorem steps_eq (s : String) : steps s = names s.toList ++ if endsInSlash s then ["."] else [] := by
  unfold steps names
  split <;> simp

theorem pieces_ne_nil (s : List Char) : pieces s ≠ [] := by
  cases s with
  | nil => simp [pieces]
  | cons c r =>
    rw [pieces]
    split
    · simp
    · split <;> simp

theorem pieces_append_slash (a b : List Char) : pieces (a ++ '/' :: b) = pieces a ++ pieces b := by
  induction a with
  | nil => simp [pieces]
  | cons c a ih =>
    rw [List.cons_append, pieces, pieces, ih]
    split
    · rfl
    · cases ha : pieces a with
      | nil => exact absurd ha (pieces_ne_nil a)
      | cons p ps => rfl

theorem pieces_of_not_mem {s : List Char} (h : '/' ∉ s) : pieces s = [s] := by
  induction s with
  | nil => rfl
  | cons c s ih =>
    have hc : c ≠ '/' := fun he => h (he ▸ List.mem_cons_self)
    rw [pieces, if_neg hc, ih fun hm => h (List.mem_cons_of_mem _ hm)]

theorem not_mem_of_mem_pieces {s p : List Char} (h : p ∈ pieces s) : '/' ∉ p := by
  induction s generalizing p with
  | nil =>
    rw [pieces, List.mem_singleton] at h
    simp [h]
  | cons c s ih =>
    rw [pieces] at h
    split at h
    · rcases List.mem_cons.mp h with rfl | h
      · simp
      · exact ih h
    · rename_i hc
      cases hs : pieces s with
      | nil => exact absurd hs (pieces_ne_nil s)
      | cons q qs =>
        rw [hs] at h ih
        rcases List.mem_cons.mp h with rfl | h
        · intro hm
          rcases List.mem_cons.mp hm with he | hm
          · exact hc he.symm
          · exact ih List.mem_cons_self hm
        · exact ih (List.mem_cons_of_mem _ h)

theorem names_append_slash (a b : List Char) : names (a ++ '/' :: b) = names a ++ names b := by
  simp [names, pieces_append_slash]

theorem names_of_not_mem {s : List Char} (h : '/' ∉ s) (hs : s ≠ []) : names s = [String.ofList s] := by
  simp [names, pieces_of_not_mem h, hs]

theorem names_slashes {s : List Char} (h : ∀ c ∈ s, c = '/') (r : List Char) : names (s ++ r) = names r := by
  induction s with
  | nil => rfl
  | cons c s ih =>
    obtain rfl := h c List.mem_cons_self
    have hone := names_append_slash [] (s ++ r)
    rw [List.nil_append] at hone
    rw [List.cons_append, hone, ih fun c hc => h c (List.mem_cons_of_mem _ hc)]
    rfl

/-! ## (1) Steps -/

/-- What stands between slashes. -/
structure IsStep (s : String) : Prop where
  nonempty : s ≠ ""
  noSlash : '/' ∉ s.toList

theorem isStep_of_mem_names {s : List Char} {x : String} (h : x ∈ names s) : IsStep x := by
  obtain ⟨p, hp, rfl⟩ := List.mem_map.mp h
  obtain ⟨hm, hne⟩ := List.mem_filter.mp hp
  refine ⟨fun he => ?_, ?_⟩
  · have hnil : p = [] := by simpa using congrArg String.toList he
    simp [hnil] at hne
  · rw [String.toList_ofList]
    exact not_mem_of_mem_pieces hm

theorem isStep_of_mem_steps {s x : String} (h : x ∈ steps s) : IsStep x := by
  rw [steps_eq] at h
  rcases List.mem_append.mp h with h | h
  · exact isStep_of_mem_names h
  · split at h
    · rw [List.mem_singleton.mp h]
      exact ⟨by decide, by decide⟩
    · cases h

/-! ## (2) Parents -/

/-- A text without a slash has no parent. Any other is what its parent is made of, a run of slashes and a
    last piece. -/
theorem exists_parts (s : String) :
    ('/' ∉ s.toList ∧ parent s = "") ∨
      ∃ up slashes last, s.toList = up ++ (slashes ++ last) ∧ slashes ≠ [] ∧ (∀ c ∈ slashes, c = '/') ∧ '/' ∉ last ∧
        up.getLast? ≠ some '/' ∧ parent s = if up = [] then "/" else String.ofList up := by
  have hcut := List.takeWhile_append_dropWhile (p := (· != '/')) (l := s.toList.reverse)
  have hlast : '/' ∉ s.toList.reverse.takeWhile (· != '/') := fun hm => by simpa using List.mem_takeWhile_imp hm
  have hhead := List.head?_dropWhile_not (· != '/') s.toList.reverse
  cases hu : s.toList.reverse.dropWhile (· != '/') with
  | nil =>
    rw [hu, List.append_nil] at hcut
    rw [hcut, List.mem_reverse] at hlast
    exact .inl ⟨hlast, by simp [parent, hu]⟩
  | cons x r =>
    obtain rfl : x = '/' := by simpa [hu] using hhead
    have hrun := List.takeWhile_append_dropWhile (p := (· == '/')) (l := '/' :: r)
    have hend := List.head?_dropWhile_not (· == '/') ('/' :: r)
    refine .inr ⟨(('/' :: r).dropWhile (· == '/')).reverse, (('/' :: r).takeWhile (· == '/')).reverse,
      (s.toList.reverse.takeWhile (· != '/')).reverse, ?_, by simp, fun c hc => ?_, by simpa using hlast, ?_, ?_⟩
    · rw [← List.reverse_append, ← List.reverse_append, List.append_assoc, hrun, ← hu, hcut, List.reverse_reverse]
    · simpa using List.mem_takeWhile_imp (List.mem_reverse.mp hc)
    · intro hc
      rw [List.getLast?_reverse] at hc
      rw [hc] at hend
      simp at hend
    · rw [parent]
      simp only [hu]
      cases ('/' :: r).dropWhile (· == '/') <;> simp

theorem names_parts {up slashes last : List Char} (hne : slashes ≠ []) (h : ∀ c ∈ slashes, c = '/') (hl : '/' ∉ last) :
    names (up ++ (slashes ++ last)) = names up ++ if last = [] then [] else [String.ofList last] := by
  have hlast : names last = if last = [] then [] else [String.ofList last] := by
    split
    · rename_i he
      rw [he]
      rfl
    · rename_i he
      exact names_of_not_mem hl he
  cases slashes with
  | nil => exact absurd rfl hne
  | cons c r =>
    obtain rfl := h c List.mem_cons_self
    rw [List.cons_append, names_append_slash, names_slashes fun c hc => h c (List.mem_cons_of_mem _ hc), hlast]

theorem endsInSlash_parts {s : String} {up slashes last : List Char} (hs : s.toList = up ++ (slashes ++ last))
    (hne : slashes ≠ []) (h : ∀ c ∈ slashes, c = '/') (hl : '/' ∉ last) : endsInSlash s = true ↔ last = [] := by
  rw [endsInSlash, hs, beq_iff_eq]
  constructor
  · intro he
    by_contra hlast
    rw [List.getLast?_append_of_ne_nil _ (by simp [hlast]), List.getLast?_append_of_ne_nil _ hlast] at he
    exact hl (List.mem_of_getLast? he)
  · rintro rfl
    rw [List.append_nil, List.getLast?_append_of_ne_nil _ hne, List.getLast?_eq_getLast_of_ne_nil hne,
      h _ (List.getLast_mem hne)]

/-- What a text's parent is to the text. -/
structure Above (up s : String) : Prop where
  nonempty : up ≠ ""
  steps : ∃ last, steps s = steps up ++ [last]
  rooted : isRooted up = isRooted s
  shorter : up.utf8ByteSize ≤ s.utf8ByteSize

/-- A text has no parent, or one that is the root, or one with the text's own steps but the last. -/
theorem parent_cases (s : String) : parent s = "" ∨ parent s = "/" ∨ Above (parent s) s := by
  rcases exists_parts s with ⟨-, h⟩ | ⟨up, slashes, last, hs, hne, hrun, hl, hup, hp⟩
  · exact .inl h
  by_cases hnil : up = []
  · rw [if_pos hnil] at hp
    exact .inr (.inl hp)
  rw [if_neg hnil] at hp
  have hend : endsInSlash (String.ofList up) = false := by simpa [endsInSlash] using hup
  refine .inr (.inr ⟨?_, ⟨if last = [] then "." else String.ofList last, ?_⟩, ?_, ?_⟩)
  · rw [hp]
    intro he
    exact hnil (by simpa using congrArg String.toList he)
  · rw [hp, steps_eq, steps_eq, hend, hs, names_parts hne hrun hl, String.toList_ofList]
    by_cases hlast : last = []
    · simp [hlast, (endsInSlash_parts hs hne hrun hl).mpr hlast]
    · have hno : endsInSlash s = false := by
        rw [← Bool.not_eq_true]
        exact fun he => hlast ((endsInSlash_parts hs hne hrun hl).mp he)
      simp [hlast, hno]
  · rw [hp, isRooted, isRooted, hs, String.toList_ofList, List.head?_append_of_ne_nil _ hnil]
  · have htext : s = String.ofList up ++ String.ofList (slashes ++ last) := by
      rw [← String.ofList_append, ← hs, String.ofList_toList]
    rw [hp, htext, String.utf8ByteSize_append]
    omega

/-- A parent is shorter, but for that of a text of slashes and one name. -/
theorem parent_length_lt {s : String} (hne : parent s ≠ "") (hroot : parent s ≠ "/") : (parent s).length < s.length := by
  rcases exists_parts s with ⟨-, h⟩ | ⟨up, slashes, last, hs, hslashes, -, -, -, hp⟩
  · exact absurd h hne
  by_cases hup : up = []
  · rw [if_pos hup] at hp
    exact absurd hp hroot
  · rw [if_neg hup] at hp
    have hlen : 0 < slashes.length := List.length_pos_iff.mpr hslashes
    rw [hp, ← String.length_toList, ← String.length_toList, String.toList_ofList, hs]
    simp only [List.length_append]
    omega

/-! ## (3) Last steps -/

/-- The last piece is empty exactly behind a slash at the end. -/
theorem endsInSlash_iff {s : String} (hs : s ≠ "") {ps : List (List Char)} {p : List Char}
    (hp : pieces s.toList = ps ++ [p]) : endsInSlash s = true ↔ p = [] := by
  rcases exists_parts s with ⟨hno, -⟩ | ⟨up, slashes, last, hparts, hne, hrun, hl, -⟩
  · rw [pieces_of_not_mem hno] at hp
    have hone : [] ++ [s.toList] = ps ++ [p] := hp
    obtain ⟨-, hlast⟩ := List.append_inj' hone rfl
    obtain rfl := (List.cons.inj hlast).1
    have hend : endsInSlash s = false := by
      rw [endsInSlash, beq_eq_false_iff_ne]
      exact fun he => hno (List.mem_of_getLast? he)
    simp [hend, hs]
  · obtain ⟨run, slash, rfl⟩ := (List.eq_nil_or_concat slashes).resolve_left hne
    obtain rfl := hrun slash (by simp)
    have hcut : s.toList = (up ++ run) ++ '/' :: last := by simp [hparts]
    rw [hcut, pieces_append_slash, pieces_of_not_mem hl] at hp
    obtain ⟨-, hlast⟩ := List.append_inj' hp rfl
    rw [endsInSlash_parts hparts hne hrun hl, (List.cons.inj hlast).1]

/-- The last step is the last piece, or stays when that is empty. -/
theorem steps_of_pieces {s : String} (hs : s ≠ "") {ps : List (List Char)} {p : List Char}
    (hp : pieces s.toList = ps ++ [p]) :
    steps s = (ps.filter (!·.isEmpty)).map String.ofList ++ [if p = [] then "." else String.ofList p] := by
  have hend := endsInSlash_iff hs hp
  rw [steps_eq, names, hp]
  by_cases hnil : p = []
  · simp [hend.mpr hnil, hnil]
  · have hno : endsInSlash s = false := by
      rw [← Bool.not_eq_true]
      exact fun he => hnil (hend.mp he)
    simp [hno, hnil]

theorem exists_pieces (s : String) : ∃ ps p, pieces s.toList = ps ++ [p] := by
  obtain ⟨ps, p, hp⟩ := (List.eq_nil_or_concat (pieces s.toList)).resolve_left (pieces_ne_nil _)
  exact ⟨ps, p, by simpa using hp⟩

theorem steps_ne_nil {s : String} (hs : s ≠ "") : steps s ≠ [] := by
  obtain ⟨ps, p, hp⟩ := exists_pieces s
  rw [steps_of_pieces hs hp]
  simp

/-- A step that looks up no name. -/
def IsDots (x : String) : Prop := x = "." ∨ x = ".."

theorem steps_of_lastPiece {s : String} (h : IsDots (lastPiece s)) : ∃ a, steps s = a ++ [lastPiece s] := by
  obtain ⟨ps, p, hp⟩ := exists_pieces s
  have hlast : lastPiece s = String.ofList p := by simp [lastPiece, hp]
  have hs : s ≠ "" := by
    rintro rfl
    rcases h with h | h <;> exact absurd h (by decide)
  have hne : p ≠ [] := by
    rintro rfl
    rw [hlast] at h
    rcases h with h | h <;> exact absurd h (by decide)
  rw [steps_of_pieces hs hp, if_neg hne, ← hlast]
  exact ⟨_, rfl⟩

end FlatPackage.Path
