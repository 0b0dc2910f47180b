/-
  FlatPackage.Proofs.Xz.Files — what a file is, and which inputs are files.

  A file is read from its own octets like everything in it. Files that are strung together are not quite, for the zeros
  behind a file are taken as far as they go; but no file begins with a zero, so there is one way only to tell files
  and zeros apart (`zeros_append_eq`).

  Proved:
  (1) `File.accepts_read`: one file, whatever its first octets would have been judged as and wherever its contents go.
  (2) `File.readAll_eq_ok_iff`: an input is accepted if and only if it is one or more files, each with its padding.
  (3) `strung_append_iff`, `not_strung_of_cut`: what may stand behind files, and that a cut file is none.
-/

import FlatPackage.Proofs.Xz.Blocks

namespace FlatPackage.Xz

variable {check : Check} {a c s t : Bytes}

/-! ## (1) One file -/

theorem IsBlock.exists_cons {b : Record × Bytes} (h : IsBlock check a b) : ∃ first t, a = first :: t ∧ first ≠ 0 := by
  obtain ⟨_, _, _, _, _, rfl, ⟨first, fields, rfl, hfirst, -⟩, -⟩ := h
  exact ⟨first, _, rfl, hfirst⟩

namespace File

theorem accepts_turn (check : Check) (d : Delivery) (sofar : Blocks) : Accepts (turn check d sofar) fun a t =>
    a = [0] ∧ t = .done sofar ∨ ∃ b, IsBlock check a b ∧ t = .more (b :: sofar) := by
  refine fun t => (AcceptsAt.octet fun first => AcceptsAt.ite (fun _ => accepts_pure _ t) fun hfirst =>
    AcceptsAt.bind (Block.accepts_read check _ hfirst) fun b => accepts_pure _ t).congr fun a => ?_
  constructor
  · rintro ⟨first, _, rfl, ⟨rfl, rfl, rfl⟩ | ⟨hfirst, b, _, _, rfl, hb, rfl, rfl⟩⟩
    · exact .inl ⟨rfl, rfl⟩
    · rw [List.append_nil]
      exact .inr ⟨b, hb, rfl⟩
  · rintro (⟨rfl, rfl⟩ | ⟨b, hb, rfl⟩)
    · exact ⟨0, [], rfl, .inl ⟨rfl, rfl, rfl⟩⟩
    · obtain ⟨first, t, rfl, hfirst⟩ := hb.exists_cons
      exact ⟨first, t, rfl, .inr ⟨hfirst, b, t, [], (List.append_nil t).symm, hb, rfl, rfl⟩⟩

/-- Blocks one behind the other, and the zero octet that is no block's. -/
theorem accepts_blocks (check : Check) (d : Delivery) (sofar : Blocks) : Accepts (Scan.repeated (turn check d) sofar)
    fun a y => ∃ b bs, a = b ++ [0] ∧ Strung (IsBlock check) b bs ∧ y = bs.reverse ++ sofar := by
  intro y
  refine (acceptsAt_repeated (fun sofar _ => accepts_turn check d sofar _) (fun sofar => accepts_turn check d sofar _)
    sofar).congr fun a => ?_
  constructor
  · intro h
    induction h with
    | done h =>
      obtain ⟨rfl, h⟩ | ⟨b, -, h⟩ := h
      · cases h
        exact ⟨[], [], rfl, .nil, rfl⟩
      · cases h
    | more h _ _ ih =>
      obtain ⟨-, h⟩ | ⟨b, hb, h⟩ := h
      · cases h
      · cases h
        obtain ⟨b', bs, rfl, hbs, rfl⟩ := ih
        exact ⟨_, b :: bs, (List.append_assoc _ _ _).symm, .cons hb hbs, by simp⟩
  · rintro ⟨b, bs, rfl, hbs, rfl⟩
    induction hbs generalizing sofar with
    | nil => exact .done (.inl ⟨rfl, rfl⟩)
    | @cons b b' x bs hb hbs ih =>
      obtain ⟨first, t, rfl, -⟩ := hb.exists_cons
      rw [List.append_assoc, List.reverse_cons, List.append_assoc]
      exact .more (.inr ⟨x, hb, rfl⟩) (List.cons_ne_nil _ _) (ih (x :: sofar))

end File

/-- A whole file and its contents: a header, blocks, an index of these blocks and a footer. The sizes are such as the
    index and the footer have room for. -/
def IsFile (a c : Bytes) : Prop :=
  ∃ check text blocks, a = File.header check ++ text ++ Index.write (blocks.map Prod.fst) ++
      File.footer check (Index.size (blocks.map Prod.fst)) ∧
    check.id < 16 ∧ Strung (IsBlock check) text blocks ∧ blocks.length < sizeLimit ∧
    (∀ b ∈ blocks, b.1.Fits) ∧ Index.size (blocks.map Prod.fst) ≤ Nat.pow 2 34 ∧ c = blocks.flatMap Prod.snd

theorem File.accepts_read (notMagic : Flaw) (d : Delivery) : Accepts (File.read notMagic d) IsFile := by
  refine fun c => (AcceptsAt.bind (accepts_header notMagic) fun check => AcceptsAt.bind (File.accepts_blocks check d [])
    fun blocks => AcceptsAt.bind accepts_index fun _ => AcceptsAt.bind accepts_footer fun _ => accepts_pure _ c).congr
      fun a => ?_
  constructor
  · rintro ⟨check, _, _, rfl, ⟨rfl, hid⟩, _, _, _, rfl, ⟨text, bs, rfl, hbs, rfl⟩, _, index, _, rfl, ⟨hindex, hcount, hfit⟩, _, _,
      _, rfl, ⟨rfl, -, hnamed⟩, rfl, rfl⟩
    simp only [List.append_nil, List.reverse_reverse] at hindex hcount hfit hnamed ⊢
    refine ⟨check, text, bs, ?_, hid, hbs, ?_, ?_, (named_size _).mp hnamed, rfl⟩
    · rw [← hindex]
      simp only [List.append_assoc, List.cons_append, List.nil_append]
    · rwa [List.length_map] at hcount
    · simpa using hfit
  · rintro ⟨check, text, bs, rfl, hid, hbs, hcount, hfit, hsize, rfl⟩
    obtain ⟨index, hindex⟩ : ∃ index, Index.write (bs.map Prod.fst) = 0 :: index := ⟨_, Index.write_eq _⟩
    refine ⟨check, File.header check, _, ?_, ⟨rfl, hid⟩, bs.reverse, text ++ [0], _, rfl, ⟨text, bs, rfl, hbs, ?_⟩, (),
      index, _, rfl, ?_, (), File.footer check (Index.size (bs.map Prod.fst)), [], (List.append_nil _).symm, ?_, rfl, ?_⟩
    · rw [hindex]
      simp only [List.append_assoc, List.cons_append, List.nil_append]
    · rw [List.append_nil]
    · rw [List.reverse_reverse]
      exact ⟨hindex.symm, by rwa [List.length_map], by simpa using hfit⟩
    · rw [List.reverse_reverse]
      exact ⟨rfl, hid, (named_size _).mpr hsize⟩
    · rw [List.reverse_reverse]

theorem IsFile.exists_cons (h : IsFile a c) : ∃ t, a = 0xFD :: t := by
  obtain ⟨_, _, _, rfl, -⟩ := h
  exact ⟨_, rfl⟩

/-! ## (2) Files strung together -/

/-- A file and what may stand behind it: zeros in multiples of four. -/
def IsPadded (a c : Bytes) : Prop := ∃ file k, a = file ++ Bytes.zeros (4 * k) ∧ IsFile file c

variable {cs ds : List Bytes} {r : Bytes}

/-- Where files begin or nothing does, there is no zero. -/
theorem Strung.head_ne_zero (h : Strung IsPadded s cs) : s.head? ≠ some 0 := by
  cases h with
  | nil => simp
  | cons ha =>
    obtain ⟨_, k, rfl, hfile⟩ := ha
    obtain ⟨t, rfl⟩ := hfile.exists_cons
    simp

theorem IsPadded.ne_nil (h : IsPadded a c) : a ≠ [] := by
  obtain ⟨_, _, rfl, hfile⟩ := h
  obtain ⟨_, rfl⟩ := hfile.exists_cons
  exact List.cons_ne_nil _ _

theorem Strung.eq_nil_iff (h : Strung IsPadded s cs) : s = [] ↔ cs = [] := by
  cases h with
  | nil => simp
  | cons ha => simp [ha.ne_nil]

theorem zeros_add (m n : Nat) : Bytes.zeros (m + n) = Bytes.zeros m ++ Bytes.zeros n := List.replicate_append_replicate.symm

/-- Zeros that something else stands behind begin with any zeros that the same octets begin with. -/
theorem zeros_append_eq {m n : Nat} (hs : s.head? ≠ some 0) (h : Bytes.zeros m ++ r = Bytes.zeros n ++ s) :
    ∃ k, n = m + k ∧ r = Bytes.zeros k ++ s := by
  induction m generalizing n with
  | zero => exact ⟨n, (Nat.zero_add n).symm, h⟩
  | succ m ih =>
    cases n with
    | zero =>
      obtain rfl : 0 :: (Bytes.zeros m ++ r) = s := h
      exact absurd rfl hs
    | succ n =>
      obtain ⟨k, rfl, rfl⟩ := ih (List.cons.inj h).2
      exact ⟨k, Nat.add_right_comm m k 1, rfl⟩

theorem zeros_append_inj {m n : Nat} (hr : r.head? ≠ some 0) (hs : s.head? ≠ some 0)
    (h : Bytes.zeros m ++ r = Bytes.zeros n ++ s) : m = n ∧ r = s := by
  obtain ⟨k, rfl, rfl⟩ := zeros_append_eq hs h
  cases k with
  | zero => exact ⟨rfl, rfl⟩
  | succ k => exact absurd rfl hr

namespace File

/-- All zeros are taken, and they have to be a multiple of four. -/
theorem padding_eq_ok_iff {u : Unit} : padding s = .ok (u, r) ↔ ∃ k, s = Bytes.zeros (4 * k) ++ r ∧ r.head? ≠ some 0 := by
  have hzeros : s.takeWhile (· == 0) = Bytes.zeros (s.takeWhile (· == 0)).length :=
    List.eq_replicate_iff.mpr ⟨rfl, fun b hb => eq_of_beq (List.all_eq_true.mp List.all_takeWhile b hb)⟩
  have hsplit : s = Bytes.zeros (s.takeWhile (· == 0)).length ++ s.dropWhile (· == 0) := by
    rw [← hzeros, List.takeWhile_append_dropWhile]
  have hhead : (s.dropWhile (· == 0)).head? ≠ some 0 := by
    intro h
    have hnot := List.head?_dropWhile_not (· == 0) s
    rw [h] at hnot
    cases hnot
  unfold padding
  constructor
  · intro h
    split at h
    · rename_i hlen
      cases h
      refine ⟨(s.takeWhile (· == 0)).length / 4, ?_, hhead⟩
      rw [Nat.mul_div_cancel' (Nat.dvd_of_mod_eq_zero hlen)]
      exact hsplit
    · cases h
  · rintro ⟨k, hs, hr⟩
    obtain ⟨hlen, hrest⟩ := zeros_append_inj hr hhead (hs.symm.trans hsplit)
    rw [← hlen, if_pos (Nat.mul_mod_right 4 k), hrest]

/-- One file, its padding, and a look whether anything is left. -/
theorem next_eq_ok_iff {notMagic : Flaw} {d : Delivery} {x : Scan.Turn (List Bytes) (List Bytes)} :
    next notMagic d cs s = .ok (x, r) ↔ ∃ a c, s = a ++ r ∧ IsPadded a c ∧ r.head? ≠ some 0 ∧
      x = if r.isEmpty then .done (c :: cs) else .more (c :: cs) := by
  unfold next
  simp only [bind_eq_ok_iff]
  constructor
  · rintro ⟨c, t, hread, _, t', hpad, hend⟩
    obtain ⟨file, rfl, hfile⟩ := (accepts_read _ _ c s t).mp hread
    obtain ⟨k, rfl, hr⟩ := padding_eq_ok_iff.mp hpad
    cases hend
    exact ⟨file ++ Bytes.zeros (4 * k), c, (List.append_assoc _ _ _).symm, ⟨file, k, rfl, hfile⟩, hr, rfl⟩
  · rintro ⟨_, c, rfl, ⟨file, k, rfl, hfile⟩, hr, rfl⟩
    rw [List.append_assoc]
    exact ⟨c, _, (accepts_read _ _ c).append hfile _, (), r, padding_eq_ok_iff.mpr ⟨k, rfl, hr⟩, rfl⟩

/-- What judges the first octets, and where the contents go, has no part in what is accepted. -/
theorem repeated_next_eq_ok_iff (flaw : List Bytes → Flaw) (d : Delivery) (sofar : List Bytes) {y : List Bytes} :
    Scan.repeated (fun sofar => next (flaw sofar) d sofar) sofar s = .ok (y, r) ↔
      r = [] ∧ ∃ cs, cs ≠ [] ∧ Strung IsPadded s cs ∧ y = cs.reverse ++ sofar := by
  constructor
  · intro h
    -- by induction on the octets that are left
    induction hn : s.length using Nat.strongRecOn generalizing s sofar with
    | ind n ih =>
      rw [Scan.repeated] at h
      split at h
      · cases h
      · rename_i hturn
        cases h
        obtain ⟨a, c, rfl, ha, -, hx⟩ := next_eq_ok_iff.mp hturn
        split at hx
        · rename_i hr
          obtain rfl := List.isEmpty_iff.mp hr
          cases hx
          exact ⟨rfl, [c], List.cons_ne_nil _ _, .cons ha .nil, rfl⟩
        · cases hx
      · rename_i x t hturn
        obtain ⟨a, c, rfl, ha, -, hx⟩ := next_eq_ok_iff.mp hturn
        split at hx
        · cases hx
        · cases hx
          split at h
          · rename_i hlt
            obtain ⟨rfl, cs, -, hcs, rfl⟩ := ih _ (hn ▸ hlt) _ h rfl
            exact ⟨rfl, c :: cs, List.cons_ne_nil _ _, .cons ha hcs, by simp⟩
          · cases h
  · rintro ⟨rfl, cs, hne, hcs, rfl⟩
    induction hcs generalizing sofar with
    | nil => exact absurd rfl hne
    | @cons a b c cs ha hcs ih =>
      have hturn : next (flaw sofar) d sofar (a ++ b) =
          .ok (if b.isEmpty then .done (c :: sofar) else .more (c :: sofar), b) :=
        next_eq_ok_iff.mpr ⟨a, c, rfl, ha, hcs.head_ne_zero, rfl⟩
      rw [Scan.repeated, hturn]
      by_cases hb : b = []
      · obtain rfl := hcs.eq_nil_iff.mp hb
        rw [hb]
        rfl
      · have hlt : b.length < (a ++ b).length := by
          rw [List.length_append]
          exact Nat.lt_add_of_pos_left (List.length_pos_iff.mpr ha.ne_nil)
        have hcsne := mt hcs.eq_nil_iff.mpr hb
        simp only [List.isEmpty_iff, if_neg hb, if_pos hlt]
        rw [ih (c :: sofar) hcsne]
        simp

/-- An input is accepted if it is one or more files, each with its padding; the result is their contents, strung
    together. -/
theorem readAll_eq_ok_iff : readAll s = .ok c ↔ ∃ cs, cs ≠ [] ∧ Strung IsPadded s cs ∧ c = cs.flatten := by
  let flaw := fun sofar : List Bytes => if sofar.isEmpty then Flaw.format else .corrupt
  have hrun : readAll s = (Scan.repeated (fun sofar => next (flaw sofar) (Delivery.start s.length) sofar) [] s).map
      fun x => x.1.reverse.flatten := by
    show (_ >>= _) = _
    cases Scan.repeated (fun sofar => next (flaw sofar) (Delivery.start s.length) sofar) [] s <;> rfl
  rw [hrun]
  constructor
  · intro h
    cases hx : Scan.repeated (fun sofar => next (flaw sofar) (Delivery.start s.length) sofar) [] s with
    | error f =>
      rw [hx] at h
      cases h
    | ok x =>
      obtain ⟨y, r⟩ := x
      rw [hx] at h
      cases h
      obtain ⟨-, cs, hne, hcs, rfl⟩ := (repeated_next_eq_ok_iff flaw _ []).mp hx
      exact ⟨cs, hne, hcs, by simp⟩
  · rintro ⟨cs, hne, hcs, rfl⟩
    rw [(repeated_next_eq_ok_iff flaw _ []).mpr ⟨rfl, cs, hne, hcs, rfl⟩]
    simp [Except.map]

end File

/-! ## (3) What may follow -/

/-- Where a file begins, its contents come first, and what stands behind it is padding and more files. -/
theorem strung_file_append_iff (ha : IsFile a c) : Strung IsPadded (a ++ r) ds ↔
    ∃ k b es, r = Bytes.zeros (4 * k) ++ b ∧ Strung IsPadded b es ∧ ds = c :: es := by
  constructor
  · intro h
    generalize hs : a ++ r = s at h
    cases h with
    | nil =>
      obtain ⟨t, rfl⟩ := ha.exists_cons
      cases hs
    | @cons _ b _ es ha' hes =>
      obtain ⟨file, k, rfl, hfile⟩ := ha'
      rw [List.append_assoc] at hs
      obtain ⟨rfl, rfl, rfl⟩ := (File.accepts_read .format ⟨0, 0⟩).append_inj ha hfile hs
      exact ⟨k, b, es, rfl, hes, rfl⟩
  · rintro ⟨k, b, es, rfl, hes, rfl⟩
    rw [← List.append_assoc]
    exact .cons ⟨a, k, rfl, ha⟩ hes

/-- Behind files that are accepted, more zeros and more files are accepted, and nothing else. -/
theorem strung_append_iff (hcs : Strung IsPadded s cs) (hne : cs ≠ []) : Strung IsPadded (s ++ t) ds ↔
    ∃ k u es, t = Bytes.zeros (4 * k) ++ u ∧ Strung IsPadded u es ∧ ds = cs ++ es := by
  induction hcs generalizing ds with
  | nil => exact absurd rfl hne
  | @cons a b c cs ha hcs ih =>
    obtain ⟨file, n, rfl, hfile⟩ := ha
    rw [List.append_assoc, List.append_assoc, strung_file_append_iff hfile]
    by_cases hb : b = []
    · obtain rfl := hcs.eq_nil_iff.mp hb
      subst hb
      constructor
      · rintro ⟨m, u, es, hzeros, hu, rfl⟩
        obtain ⟨k, hk, ht⟩ := zeros_append_eq hu.head_ne_zero hzeros
        obtain rfl : k = 4 * (m - n) := by omega
        exact ⟨m - n, u, es, ht, hu, rfl⟩
      · rintro ⟨k, u, es, rfl, hu, rfl⟩
        refine ⟨n + k, u, es, ?_, hu, rfl⟩
        rw [Nat.mul_add, zeros_add, List.append_assoc]
        rfl
    · have hcsne := mt hcs.eq_nil_iff.mpr hb
      constructor
      · rintro ⟨m, v, es, hzeros, hv, rfl⟩
        have hhead : (b ++ t).head? ≠ some 0 := by
          obtain ⟨x, b, rfl⟩ := List.exists_cons_of_ne_nil hb
          exact hcs.head_ne_zero
        obtain ⟨-, rfl⟩ := zeros_append_inj hhead hv.head_ne_zero hzeros
        obtain ⟨k, u, fs, rfl, hu, rfl⟩ := (ih hcsne).mp hv
        exact ⟨k, u, fs, rfl, hu, rfl⟩
      · rintro ⟨k, u, es, rfl, hu, rfl⟩
        exact ⟨n, _, cs ++ es, rfl, (ih hcsne).mpr ⟨k, u, es, rfl, hu, rfl⟩, rfl⟩

/-- A file that is cut is no file, and nothing else that is accepted. -/
theorem not_strung_of_cut {b : Bytes} (h : IsFile (a ++ b) c) (hb : b ≠ []) (hne : cs ≠ []) : ¬ Strung IsPadded a cs := by
  intro hcs
  cases hcs with
  | nil => exact hne rfl
  | @cons _ t _ _ ha =>
    obtain ⟨file, k, rfl, hfile⟩ := ha
    have hs : (file ++ Bytes.zeros (4 * k) ++ t ++ b) ++ [] = file ++ (Bytes.zeros (4 * k) ++ t ++ b) := by
      simp only [List.append_assoc, List.append_nil]
    obtain ⟨-, -, hnil⟩ := (File.accepts_read .format ⟨0, 0⟩).append_inj h hfile hs
    exact hb (List.append_eq_nil_iff.mp hnil.symm).2

end FlatPackage.Xz
