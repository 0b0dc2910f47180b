/-
  FlatPackage.Proofs.Command.Lines — the text of one line of a listing.

  A line is printed piece by piece under settings that change in the middle of it. The settings
  are the plain ones again wherever a line begins or is broken off, so its text is a function of
  its entry (`line`), and so is what there is of it before the body is passed over (`begun`).

  Proved:
  (1) `put_text`: where no width is set, a text is printed as it is.
  (2) `print_start`, `print_rest`: both halves of a line have the text that is said here, and leave the
      settings plain.
  (3) `line_ended`, `fragment_begun`: a line ends once and a line that is broken off does not end, unless a
      line ends in the entry's path or target; these are printed as they are.
-/

import Mathlib.Data.List.Basic
import FlatPackage.Checksum.Sha256
import FlatPackage.Command.Line
import FlatPackage.Container.Rehearsal

namespace FlatPackage.Command

open Container (Header Item)

/-! ## (1) Layouts -/

namespace Layout

/-- Where no width is set, a text is printed as it is. -/
theorem put_text {l : Layout} (h : l.width = 0) (s : String) : l.put (.text s) = (s, l) := by
  rcases l with ⟨base, width, fill⟩
  cases h
  simp [put, field, padLeft]

end Layout

/-! ## (2) Fields -/

namespace Line

def octal (n : Nat) : String := String.ofList ((Nat.toDigits 8 n).leftpad 4 '0')

def column (n : Nat) : String := String.ofList ((Nat.toDigits 10 n).leftpad 10 ' ')

/-- What a symlink's line has after the path. -/
def link (h : Header) : String := if h.kind = .symlink then " -> " ++ h.target else ""

/-- A line up to the path and the target. -/
def front (h : Header) : String :=
  kindLetter h.kind ++ " " ++ octal h.permissions.toNat ++ " " ++ column h.size.toNat ++ " " ++ h.path ++ link h

/-- What a line has after the path and the target. -/
def suffix (sum : Bytes → String) (digest : Bool) (i : Item) : String :=
  if wantsDigest digest i.header then digestMark ++ sum i.body else ""

def line (sum : Bytes → String) (digest : Bool) (i : Item) : String :=
  front i.header ++ suffix sum digest i ++ "\n"

/-- What of a line is printed before the body is passed over. -/
def begun (digest : Bool) (h : Header) : String :=
  front h ++ if wantsDigest digest h then digestMark else ""

theorem print_start (digest : Bool) (h : Header) : Layout.plain.print (start digest h) = (begun digest h, .plain) := by
  unfold start target begun front link
  split <;> split <;>
    simp [Layout.print, Layout.put, Layout.field, Layout.plain, Layout.padLeft, octal, column, List.leftpad,
      String.append_assoc]

example : front ⟨"sh", .symlink, 12345678901, 0o755, 0, "dash"⟩ = "l 0755 12345678901 sh -> dash" := by decide

theorem print_rest (text : String) : Layout.plain.print [.text text, .text "\n"] = (text ++ "\n", .plain) := by
  simp only [Layout.print, Layout.put_text (l := Layout.plain) rfl, String.append_empty]

theorem print_end : Layout.plain.print [.text "\n"] = ("\n", .plain) := by
  simp only [Layout.print, Layout.put_text (l := Layout.plain) rfl, String.append_empty]

/-! ## (3) Line ends -/

theorem newline_not_mem_leftpad {l : List Char} (hl : '\n' ∉ l) {fill : Char} (hf : fill ≠ '\n') (n : Nat) :
    '\n' ∉ l.leftpad n fill := by
  rw [List.leftpad, List.mem_append, List.mem_replicate]
  rintro (⟨-, h⟩ | h)
  · exact hf h.symm
  · exact hl h

theorem newline_not_mem_toDigits {b : Nat} (hpos : 0 < b) (hb : b ≤ 10) (n : Nat) : '\n' ∉ Nat.toDigits b n := by
  intro h
  exact absurd (Nat.isDigit_of_mem_toDigits hpos hb h) (by decide)

theorem newline_not_mem_hex (s : Bytes) : '\n' ∉ (Bytes.hex s).toList := by
  have hdigit : ∀ d : Fin 16, Bytes.hex.digit d ≠ '\n' := by decide
  simp only [Bytes.hex, String.toList_ofList, List.mem_flatMap, List.mem_cons, List.not_mem_nil, or_false, not_exists,
    not_and, not_or]
  intro b _
  have hb := b.toNat_lt
  exact ⟨(hdigit ⟨b.toNat / 16, by omega⟩).symm, (hdigit ⟨b.toNat % 16, by omega⟩).symm⟩

/-- No line ends in what an entry is called, nor in what it leads to. -/
def OneLine (h : Header) : Prop := '\n' ∉ h.path.toList ∧ (h.kind = .symlink → '\n' ∉ h.target.toList)

theorem newline_not_mem_link_iff (h : Header) :
    '\n' ∉ (link h).toList ↔ (h.kind = .symlink → '\n' ∉ h.target.toList) := by
  have harrow : '\n' ∉ " -> ".toList := by decide
  unfold link
  by_cases hk : h.kind = .symlink
  · rw [if_pos hk, String.toList_append, List.mem_append, or_iff_right harrow]
    exact ⟨fun hno _ => hno, fun hno => hno hk⟩
  · rw [if_neg hk]
    exact ⟨fun _ hl => absurd hl hk, fun _ => by decide⟩

/-- Names are printed as they are: a line end in one of them is one in the text. -/
theorem newline_not_mem_front_iff (h : Header) : '\n' ∉ (front h).toList ↔ OneLine h := by
  have hletter : '\n' ∉ (kindLetter h.kind).toList := by cases h.kind <;> decide
  have hoctal : '\n' ∉ (octal h.permissions.toNat).toList := by
    rw [octal, String.toList_ofList]
    exact newline_not_mem_leftpad (newline_not_mem_toDigits (by decide) (by decide) _) (by decide) 4
  have hcolumn : '\n' ∉ (column h.size.toNat).toList := by
    rw [column, String.toList_ofList]
    exact newline_not_mem_leftpad (newline_not_mem_toDigits (by decide) (by decide) _) (by decide) 10
  have hspace : '\n' ∉ " ".toList := by decide
  rw [OneLine, ← newline_not_mem_link_iff]
  simp only [front, String.toList_append, List.mem_append, hletter, hoctal, hcolumn, hspace, false_or, or_false, not_or]

theorem newline_not_mem_append_iff {s t : String} (ht : '\n' ∉ t.toList) :
    '\n' ∉ (s ++ t).toList ↔ '\n' ∉ s.toList := by
  rw [String.toList_append, List.mem_append, or_iff_left ht]

/-- What is printed of a line that is broken off: all up to the path and the target, and not the whole
    line, whatever the body is. -/
structure Fragment (sum : Bytes → String) (digest : Bool) (h : Header) (s : String) : Prop where
  front : ∃ more, s = front h ++ more
  proper : ∀ body, ∃ rest, rest ≠ "" ∧ line sum digest ⟨h, body⟩ = s ++ rest
  unended : '\n' ∉ s.toList ↔ OneLine h

theorem fragment_begun (sum : Bytes → String) (digest : Bool) (h : Header) : Fragment sum digest h (begun digest h) where
  front := ⟨_, rfl⟩
  proper body := by
    have hne : ∀ s : String, s ++ "\n" ≠ "" := fun s h => by simpa using congrArg String.toList h
    refine ⟨(if wantsDigest digest h then sum body else "") ++ "\n", hne _, ?_⟩
    unfold line suffix begun
    split <;> simp only [String.append_assoc, String.empty_append]
  unended := by
    rw [begun, newline_not_mem_append_iff (by split <;> decide)]
    exact newline_not_mem_front_iff h

/-- A line ends once exactly if no line ends in its entry's names. -/
theorem line_ended {sum : Bytes → String} (hsum : ∀ b, '\n' ∉ (sum b).toList) (digest : Bool) (i : Item) :
    ∃ s, line sum digest i = s ++ "\n" ∧ ('\n' ∉ s.toList ↔ OneLine i.header) := by
  have hsuffix : '\n' ∉ (suffix sum digest i).toList := by
    unfold suffix
    split
    · rw [String.toList_append, List.mem_append]
      exact fun hm => hm.elim (by decide) (hsum i.body)
    · decide
  exact ⟨_, rfl, (newline_not_mem_append_iff hsuffix).trans (newline_not_mem_front_iff i.header)⟩

theorem count_line {sum : Bytes → String} (hsum : ∀ b, '\n' ∉ (sum b).toList) (digest : Bool) {i : Item}
    (hi : OneLine i.header) : (line sum digest i).toList.count '\n' = 1 := by
  obtain ⟨s, hline, hs⟩ := line_ended hsum digest i
  rw [hline, String.toList_append, List.count_append, List.count_eq_zero.mpr (hs.mpr hi)]
  decide

end Line
end FlatPackage.Command
