/-
  FlatPackage.Proofs.Stream.Lossless — the codec of compressed chunks gives back what it was given, and ignores nothing.

  Everything follows from what the reader accepts, which is known exactly: one or more files, each with zeros behind
  it. What is written for some contents is such a file, and anything that is not made of such files is refused.

  Proved:
  (1) `opened_eq_ok_iff`, `opened_append_iff`: the bodies that are opened, and what may stand behind one.
  (2) `lossless_and_exact`: files that were written, with padding, are opened as their contents; a body that is opened
      is files and padding and nothing else; the kinds of bodies that are refused.
  Trace: two files and padding, and a third one cut (`two_files_and_a_third_cut`).
-/

import FlatPackage.Proofs.Xz.Drain
import FlatPackage.Proofs.Xz.Written
import FlatPackage.Stream.Decode

namespace FlatPackage.Stream

open Xz (IsFile IsPadded Strung)

variable {s t c d : Bytes}

/-! ## (1) Bodies that are opened -/

/-- What a chunk of this body stands for when its flags say that it is compressed. -/
def opened (s : Bytes) : Except Fault Bytes := Chunk.contents Codec.xz ⟨xzFlags, s⟩

theorem opened_eq (s : Bytes) : opened s = (Xz.File.readAll s).mapError .codec := by
  rw [← Xz.decompress_eq]
  rfl

theorem opened_eq_ok_iff : opened s = .ok c ↔ ∃ cs, cs ≠ [] ∧ Strung IsPadded s cs ∧ c = cs.flatten := by
  rw [opened_eq, ← Xz.File.readAll_eq_ok_iff]
  cases Xz.File.readAll s <;> simp [Except.mapError]

/-- A body that is not opened is a fault of the codec. -/
theorem opened_error (h : ∀ c, opened s ≠ .ok c) : ∃ f, opened s = .error (.codec f) := by
  rw [opened_eq] at h ⊢
  cases hs : Xz.File.readAll s with
  | ok c => exact absurd (by rw [hs]; rfl) (h c)
  | error f => exact ⟨f, rfl⟩

theorem head_ne_zero_of_opened (h : opened s = .ok c) : s.head? ≠ some 0 := by
  obtain ⟨cs, -, hcs, -⟩ := opened_eq_ok_iff.mp h
  exact hcs.head_ne_zero

/-- Zeros in multiples of four, and another body behind them or nothing. -/
theorem opened_append_iff (h : opened s = .ok c) : opened (s ++ t) = .ok d ↔
    ∃ k u, t = Bytes.zeros (4 * k) ++ u ∧ (u = [] ∧ d = c ∨ ∃ e, opened u = .ok e ∧ d = c ++ e) := by
  obtain ⟨cs, hne, hcs, rfl⟩ := opened_eq_ok_iff.mp h
  rw [opened_eq_ok_iff]
  constructor
  · rintro ⟨ds, -, hds, rfl⟩
    obtain ⟨k, u, es, rfl, hu, rfl⟩ := (Xz.strung_append_iff hcs hne).mp hds
    refine ⟨k, u, rfl, ?_⟩
    by_cases hes : es = []
    · exact .inl ⟨hu.eq_nil_iff.mpr hes, by rw [hes, List.append_nil]⟩
    · exact .inr ⟨es.flatten, opened_eq_ok_iff.mpr ⟨es, hes, hu, rfl⟩, List.flatten_append⟩
  · rintro ⟨k, u, rfl, ⟨rfl, rfl⟩ | ⟨e, he, rfl⟩⟩
    · exact ⟨cs ++ [], by simpa using hne, (Xz.strung_append_iff hcs hne).mpr ⟨k, [], [], rfl, .nil, rfl⟩, by simp⟩
    · obtain ⟨es, -, hes, rfl⟩ := opened_eq_ok_iff.mp he
      exact ⟨cs ++ es, by simp [hne], (Xz.strung_append_iff hcs hne).mpr ⟨k, u, es, rfl, hes, rfl⟩, by simp⟩

/-- Files that were written, each with its padding, stand for what they were written for. -/
theorem strung_compress {parts : List (Bytes × Nat)} (h : ∀ p ∈ parts, Xz.Writer.Storable p.1) :
    Strung IsPadded (parts.flatMap fun p => Codec.xz.compress p.1 ++ Bytes.zeros (4 * p.2)) (parts.map Prod.fst) := by
  induction parts with
  | nil => exact .nil
  | cons p parts ih =>
    obtain ⟨hp, hrest⟩ := List.forall_mem_cons.mp h
    exact .cons ⟨Xz.compress p.1, p.2, rfl, Xz.isFile_compress hp⟩ (ih hrest)

/-- A file that is cut is not opened, and neither are files that it stands behind. -/
theorem opened_cut {file rest : Bytes} (hs : s = [] ∨ ∃ d, opened s = .ok d) (h : IsFile (file ++ rest) c) (hf : file ≠ [])
    (hr : rest ≠ []) : opened (s ++ file) ≠ .ok d := by
  have hcut : ∀ e, opened file ≠ .ok e := by
    intro e he
    obtain ⟨cs, hne, hcs, -⟩ := opened_eq_ok_iff.mp he
    exact Xz.not_strung_of_cut h hr hne hcs
  intro hd
  obtain rfl | ⟨e, he⟩ := hs
  · exact hcut d hd
  · obtain ⟨k, u, rfl, hu⟩ := (opened_append_iff he).mp hd
    obtain ⟨x, hx⟩ := h.exists_cons
    cases k with
    | zero =>
      obtain ⟨rfl, -⟩ | ⟨e', he', -⟩ := hu
      · exact hf rfl
      · exact hcut e' he'
    | succ k =>
      rw [Nat.mul_succ] at hx
      cases hx

/-! ## (2) Lossless, and nothing ignored -/

/-- For contents that the format has sizes for, as it has for any of less than 2^62 octets: files that were written for
    them, one or more, with any multiple of four zeros behind each, are opened as the contents strung together. A body is
    opened exactly if it is one or more whole files, each with such zeros behind it, and then as their contents strung
    together; otherwise it is a fault of the codec. So nothing at all is not opened, nor a file that is cut, nor zeros in
    front, nor zeros in another number behind files, nor files with anything else behind them. -/
theorem lossless_and_exact :
    (∀ parts : List (Bytes × Nat), parts ≠ [] → (∀ p ∈ parts, Xz.Writer.Storable p.1) →
      opened (parts.flatMap fun p => Codec.xz.compress p.1 ++ Bytes.zeros (4 * p.2)) = .ok (parts.flatMap Prod.fst)) ∧
    (∀ s c, opened s = .ok c ↔ ∃ cs, cs ≠ [] ∧ Strung IsPadded s cs ∧ c = cs.flatten) ∧
    (∀ s, (¬ ∃ cs, cs ≠ [] ∧ Strung IsPadded s cs) → ∃ f, opened s = .error (.codec f)) ∧
    (∃ f, opened [] = .error (.codec f)) ∧
    (∀ s file rest c, (s = [] ∨ ∃ d, opened s = .ok d) → IsFile (file ++ rest) c → file ≠ [] → rest ≠ [] →
      ∃ f, opened (s ++ file) = .error (.codec f)) ∧
    (∀ n s, 0 < n → ∃ f, opened (Bytes.zeros n ++ s) = .error (.codec f)) ∧
    (∀ s d n t, opened s = .ok d → n % 4 ≠ 0 → t.head? ≠ some 0 →
      ∃ f, opened (s ++ (Bytes.zeros n ++ t)) = .error (.codec f)) ∧
    (∀ s d t, opened s = .ok d → (∀ k u, t = Bytes.zeros (4 * k) ++ u → u ≠ [] ∧ ∀ e, opened u ≠ .ok e) →
      ∃ f, opened (s ++ t) = .error (.codec f)) := by
  have hexact : ∀ s c, opened s = .ok c ↔ ∃ cs, cs ≠ [] ∧ Strung IsPadded s cs ∧ c = cs.flatten :=
    fun s c => opened_eq_ok_iff
  refine ⟨?_, hexact, ?_, ?_, ?_, ?_, ?_, ?_⟩
  · intro parts hne hparts
    refine opened_eq_ok_iff.mpr ⟨parts.map Prod.fst, by simpa using hne, strung_compress hparts, ?_⟩
    rw [List.flatMap_def]
  · intro s hs
    refine opened_error fun c hc => hs ?_
    obtain ⟨cs, hne, hcs, -⟩ := opened_eq_ok_iff.mp hc
    exact ⟨cs, hne, hcs⟩
  · refine opened_error fun c hc => ?_
    obtain ⟨cs, hne, hcs, -⟩ := opened_eq_ok_iff.mp hc
    exact hne (hcs.eq_nil_iff.mp rfl)
  · intro s file rest c hs hfile hf hr
    exact opened_error fun d => opened_cut hs hfile hf hr
  · intro n s hn
    refine opened_error fun c hc => head_ne_zero_of_opened hc ?_
    obtain ⟨n, rfl⟩ := Nat.exists_eq_succ_of_ne_zero (Nat.ne_of_gt hn)
    rfl
  · intro s d n t hs hn ht
    refine opened_error fun c hc => hn ?_
    obtain ⟨k, u, he, hu⟩ := (opened_append_iff hs).mp hc
    have hu' : u.head? ≠ some 0 := by
      obtain ⟨rfl, -⟩ | ⟨e, hopen, -⟩ := hu
      · simp
      · exact head_ne_zero_of_opened hopen
    obtain ⟨rfl, -⟩ := Xz.zeros_append_inj ht hu' he
    exact Nat.mul_mod_right 4 k
  · intro s d t hs ht
    refine opened_error fun c hc => ?_
    obtain ⟨k, u, he, hu⟩ := (opened_append_iff hs).mp hc
    obtain ⟨hne, hnot⟩ := ht k u he
    obtain ⟨rfl, -⟩ | ⟨e, hopen, -⟩ := hu
    · exact hne rfl
    · exact hnot e hopen

/-- Two files of which the first one is empty and padded; behind them the header of a third, or three zeros. -/
theorem two_files_and_a_third_cut :
    let parts : List (Bytes × Nat) := [([], 2), ([7], 0)]
    let s := parts.flatMap fun p => Codec.xz.compress p.1 ++ Bytes.zeros (4 * p.2)
    let file := Xz.File.header .crc64
    let rest := Xz.Index.write [] ++ Xz.File.footer .crc64 (Xz.Index.size [])
    parts ≠ [] ∧ (∀ p ∈ parts, Xz.Writer.Storable p.1) ∧ opened s = .ok [7] ∧
      (IsFile (file ++ rest) [] ∧ file ≠ [] ∧ rest ≠ [] ∧ ∃ f, opened (s ++ file) = .error (.codec f)) ∧
      ∃ f, opened (s ++ (Bytes.zeros 3 ++ [])) = .error (.codec f) := by
  intro parts s file rest
  have hstorable : ∀ p ∈ parts, Xz.Writer.Storable p.1 := by
    intro p hp
    apply Xz.Writer.storable_of_lt
    obtain rfl | rfl : p = ([], 2) ∨ p = ([7], 0) := by simpa [parts] using hp
    · decide
    · decide
  have hopen : opened s = .ok [7] := lossless_and_exact.1 parts (List.cons_ne_nil _ _) hstorable
  have hfile : IsFile (file ++ rest) [] := by
    have h := Xz.isFile_compress (s := []) (Xz.Writer.storable_of_lt (by decide))
    simpa [Xz.compress, Xz.Writer.file, file, rest] using h
  have hrest : rest ≠ [] := by
    simp [rest, Xz.Index.write_eq]
  have hcut := lossless_and_exact.2.2.2.2.1 s file rest [] (.inr ⟨_, hopen⟩) hfile (List.cons_ne_nil _ _) hrest
  have hzeros := lossless_and_exact.2.2.2.2.2.2.1 s [7] 3 [] hopen (by decide) (by simp)
  exact ⟨List.cons_ne_nil _ _, hstorable, hopen, ⟨hfile, List.cons_ne_nil _ _, hrest, hcut⟩, hzeros⟩

end FlatPackage.Stream
