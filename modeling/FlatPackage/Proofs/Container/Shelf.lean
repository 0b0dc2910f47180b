/-
  FlatPackage.Proofs.Container.Shelf — a small container library that keeps its contract.

  An archive of either format is a row of fields, seven to an entry: six that the header makes,
  and the body. Each octet of a field stands behind a one and each field ends in a zero, so a
  field may be of any length and hold any octets.

  The library never refuses a call that comes in order. One that does not, such as a body
  read before the first entry, fails and changes nothing.

  Proved:
  (1) `items?_paper`: the entries of an archive are read back from its octets.
  (2) `Shelf.contract`: the library keeps the contract, so what is proved of every library that
      does is not proved of none.
-/

import FlatPackage.Proofs.Container.Contract
import Mathlib.Data.Nat.Digits.Defs

namespace FlatPackage.Container

/-! ## (1) Entries on paper -/

namespace Paper

/-- Fields one after another. -/
def frame (fields : List Bytes) : Bytes := fields.flatMap fun f => f.flatMap (fun b => [1, b]) ++ [0]

def unframe : Bytes → Option (List Bytes)
  | [] => some []
  | 0 :: r => (unframe r).map ([] :: ·)
  | _ :: b :: r => (unframe r).bind fun
    | [] => none
    | f :: fs => some ((b :: f) :: fs)
  | [_] => none

theorem unframe_frame (fields : List Bytes) : unframe (frame fields) = some fields := by
  induction fields with
  | nil => rfl
  | cons f fs ih =>
    induction f with
    | nil =>
      show (unframe (frame fs)).map ([] :: ·) = _
      rw [ih]
      rfl
    | cons b f ihf =>
      show (unframe (frame (f :: fs))).bind _ = _
      rw [ihf]
      rfl

/-! ### Fields -/

def text (s : String) : Bytes := s.toByteArray.data.toList

def text? (b : Bytes) : Option String := String.fromUTF8? ⟨b.toArray⟩

theorem text?_text (s : String) : text? (text s) = some s := by
  unfold text? text String.fromUTF8?
  rw [Array.toArray_toList]
  exact dif_pos s.isValidUTF8

/-- A number by its octets, the least significant first. -/
def nat (n : Nat) : Bytes := (Nat.digits 256 n).map Nat.toUInt8

def readNat (b : Bytes) : Nat := Nat.ofDigits 256 (b.map UInt8.toNat)

theorem readNat_nat (n : Nat) : readNat (nat n) = n := by
  have h : ((Nat.digits 256 n).map Nat.toUInt8).map UInt8.toNat = Nat.digits 256 n := by
    rw [List.map_map]
    refine (List.map_congr_left ?_).trans (List.map_id _)
    intro d hd
    exact UInt8.toNat_ofNat_of_lt' (Nat.digits_lt_base (by decide) hd)
  unfold readNat nat
  rw [h, Nat.ofDigits_digits]

def int : Int → Bytes
  | .ofNat n => 0 :: nat n
  | .negSucc n => 1 :: nat n

def int? : Bytes → Option Int
  | 0 :: b => some (.ofNat (readNat b))
  | 1 :: b => some (.negSucc (readNat b))
  | _ => none

theorem int?_int (n : Int) : int? (int n) = some n := by
  cases n with
  | ofNat n => exact congrArg (some ∘ Int.ofNat) (readNat_nat n)
  | negSucc n => exact congrArg (some ∘ Int.negSucc) (readNat_nat n)

def kind : EntryKind → Bytes
  | .file => [0]
  | .directory => [1]
  | .symlink => [2]
  | .other => [3]

def kind? : Bytes → Option EntryKind
  | [0] => some .file
  | [1] => some .directory
  | [2] => some .symlink
  | [3] => some .other
  | _ => none

theorem kind?_kind (k : EntryKind) : kind? (kind k) = some k := by
  cases k <;> rfl

/-! ### Entries -/

def fields (i : Item) : List Bytes :=
  [text i.header.path, kind i.header.kind, nat i.header.size.toNat, nat i.header.permissions.toNat,
    int i.header.mtime, text i.header.target, i.body]

def items? : List Bytes → Option (List Item)
  | [] => some []
  | path :: kind :: size :: permissions :: mtime :: target :: body :: r => do
    let path ← text? path
    let kind ← kind? kind
    let mtime ← int? mtime
    let target ← text? target
    let items ← items? r
    return ⟨⟨path, kind, (readNat size).toUInt64, (readNat permissions).toUInt32, mtime, target⟩, body⟩ :: items
  | _ => none

theorem items?_fields (items : List Item) : items? (items.flatMap fields) = some items := by
  induction items with
  | nil => rfl
  | cons i items ih => simp [fields, items?, text?_text, kind?_kind, readNat_nat, int?_int, ih]

end Paper

/-- An archive of some entries. -/
def paper (items : List Item) : Bytes := Paper.frame (items.flatMap Paper.fields)

/-- The entries of an archive. -/
def items? (b : Bytes) : Option (List Item) := (Paper.unframe b).bind Paper.items?

theorem items?_paper (items : List Item) : items? (paper items) = some items := by
  unfold items? paper
  rw [Paper.unframe_frame]
  exact Paper.items?_fields items

/-! ## The library -/

structure Shelf where
  /-- The last written first. -/
  files : List (String × Bytes)
  draft : ByFormat (Option Draft)
  place : ByFormat (Option Place)

namespace Shelf

def empty : Shelf := ⟨[], ⟨none, none⟩, ⟨none, none⟩⟩

def refuse {α : Type} (s : Shelf) (message : String) : Except Fault α × Shelf := (.error (.container message), s)

def opening (s : Shelf) (f : Format) (b : Bytes) : Except Fault Unit × Shelf :=
  match items? b with
  | some items => (.ok (), { s with place := s.place.set f (some ⟨items, none⟩) })
  | none => s.refuse "not an archive"

def creating (s : Shelf) (f : Format) (path : Option String) : Except Fault Unit × Shelf :=
  (.ok (), { s with draft := s.draft.set f (some ⟨path, []⟩) })

/-- An answer that takes octets off the body that is being read. -/
def reading {α : Type} (s : Shelf) (f : Format) (take : Bytes → α × Option Bytes) : Except Fault α × Shelf :=
  match s.place.get f with
  | some ⟨rest, some body⟩ => (.ok (take body).1, { s with place := s.place.set f (some ⟨rest, (take body).2⟩) })
  | _ => s.refuse "no body to read"

/-- An answer that adds to the archive that is being written. -/
def writing (s : Shelf) (f : Format) (change : List Item → List Item) : Except Fault Unit × Shelf :=
  match s.draft.get f with
  | some d => (.ok (), { s with draft := s.draft.set f (some { d with items := change d.items }) })
  | none => s.refuse "no archive to write"

def answer {α : Type} (c : Call α) (s : Shelf) : Except Fault α × Shelf :=
  match c with
  | .openFile f path =>
    match s.files.lookup path with
    | some b => s.opening f b
    | none => s.refuse "no such file"
  | .openMemory f b => s.opening f b
  | .next f =>
    match s.place.get f with
    | some ⟨[], _⟩ => (.ok none, { s with place := s.place.set f (some ⟨[], none⟩) })
    | some ⟨i :: rest, _⟩ => (.ok (some i.header), { s with place := s.place.set f (some ⟨rest, some i.body⟩) })
    | none => s.refuse "no archive to read"
  | .read f n => s.reading f fun body => (body.take n, some (body.drop n))
  | .readAll f => s.reading f fun body => (body, some [])
  | .skip f => s.reading f fun _ => ((), none)
  | .createFile f path => s.creating f (some path)
  | .createMemory f => s.creating f none
  | .header f h => s.writing f (· ++ [⟨h, []⟩])
  | .data f b => s.writing f (Rehearsal.appendBody b)
  | .finish f =>
    match s.draft.get f with
    | some ⟨some path, items⟩ => (.ok (), { s with files := (path, paper items) :: s.files })
    | some ⟨none, _⟩ => (.ok (), s)
    | none => s.refuse "no archive to write"
  | .take f =>
    match s.draft.get f with
    | some ⟨none, items⟩ => (.ok (paper items), s)
    | _ => s.refuse "no archive in memory"

def left (f : Format) (s : Shelf) : Nat :=
  match s.place.get f with
  | some p => p.rest.length
  | none => 0

/-! ## As a library -/

theorem left_next {f : Format} {s t : Shelf} {h : Header} (e : answer (.next f) s = (.ok (some h), t)) :
    left f t < left f s := by
  simp only [answer] at e
  split at e
  · cases e
  · rename_i i rest b hp
    cases e
    simp [left, hp, ByFormat.get_set]
  · cases e

theorem left_reading {α : Type} (f : Format) (take : Bytes → α × Option Bytes) (s : Shelf) :
    left f (s.reading f take).2 = left f s := by
  unfold reading
  split
  · rename_i rest body hp
    simp [left, hp, ByFormat.get_set]
  · rfl

theorem left_body {α : Type} {f : Format} {s : Shelf} {c : Call α} (h : c.readsBody f) :
    left f (answer c s).2 ≤ left f s := by
  cases c <;> simp [Call.readsBody] at h <;> subst h <;> exact Nat.le_of_eq (left_reading _ _ s)

def library : Archive Shelf where
  answer := answer
  left := left
  left_next := left_next
  left_body := left_body

/-! ## (2) The contract -/

theorem opening_of_items {b : Bytes} {items : List Item} (h : items? b = some items) (f : Format) (s : Shelf) :
    ∃ t, s.opening f b = (.ok (), t) ∧ t.place.get f = some ⟨items, none⟩ := by
  unfold opening
  rw [h]
  exact ⟨_, rfl, ByFormat.get_set _ _ _⟩

theorem draft_of_creating {f : Format} {p : Option String} {s t : Shelf} (h : s.creating f p = (.ok (), t)) :
    t.draft.get f = some ⟨p, []⟩ := by
  cases h
  exact ByFormat.get_set _ _ _

theorem draft_of_writing {f : Format} {d : Draft} (change : List Item → List Item) {s t : Shelf}
    (hd : s.draft.get f = some d) (h : s.writing f change = (.ok (), t)) :
    t.draft.get f = some { d with items := change d.items } := by
  unfold writing at h
  rw [hd] at h
  cases h
  exact ByFormat.get_set _ _ _

theorem reading_of_place {α : Type} {f : Format} {rest : List Item} {body : Bytes} {s : Shelf}
    (h : s.place.get f = some ⟨rest, some body⟩) (take : Bytes → α × Option Bytes) :
    ∃ t, s.reading f take = (.ok (take body).1, t) ∧ t.place.get f = some ⟨rest, (take body).2⟩ := by
  unfold reading
  rw [h]
  exact ⟨_, rfl, ByFormat.get_set _ _ _⟩

theorem appendBody_concat (b : Bytes) (items : List Item) (i : Item) :
    Rehearsal.appendBody b (items ++ [i]) = items ++ [{ i with body := i.body ++ b }] := by
  induction items with
  | nil => rfl
  | cons j items ih =>
    cases items with
    | nil => rfl
    | cons k items =>
      show j :: Rehearsal.appendBody b (k :: items ++ [i]) = _
      rw [ih]
      rfl

theorem finish_eq {f : Format} {p : Option String} {items : List Item} {s : Shelf}
    (h : s.draft.get f = some ⟨p, items⟩) :
    answer (.finish f) s = (.ok (), { s with files := (p.map (·, paper items)).toList ++ s.files }) := by
  cases p <;> simp [answer, h]

theorem take_eq {f : Format} {items : List Item} {s : Shelf} (h : s.draft.get f = some ⟨none, items⟩) :
    answer (.take f) s = (.ok (paper items), s) := by
  simp [answer, h]

def contract : Contract library where
  draft f s := s.draft.get f
  place f s := s.place.get f
  file path s := s.files.lookup path
  Holds _ b items := items? b = some items
  createFile h := draft_of_creating h
  createMemory h := draft_of_creating h
  header {f e d s t} hd h := draft_of_writing (· ++ [Item.mk e []]) hd h
  data {f b p items i s t} hd h := by
    have ht := draft_of_writing (Rehearsal.appendBody b) hd h
    rwa [appendBody_concat] at ht
  finish {f d s t} hd h := by
    have h' := finish_eq hd
    rw [show answer (.finish f) s = _ from h] at h'
    cases h'
    exact hd
  finish_file {f path items s t} hd _ h := by
    have h' := finish_eq hd
    rw [show answer (.finish f) s = _ from h] at h'
    cases h'
    exact ⟨paper items, List.lookup_cons_self, items?_paper items⟩
  take {f items b s t} hd _ h := by
    have h' := take_eq hd
    rw [show answer (.take f) s = _ from h] at h'
    cases h'
    exact items?_paper items
  openFile {f path b items s} hf h := by
    have ho : answer (.openFile f path) s = s.opening f b := by
      simp only [answer, hf]
    show ∃ t, answer (.openFile f path) s = _ ∧ _
    rw [ho]
    exact opening_of_items h f s
  openMemory s h := opening_of_items h _ s
  next_end {f b s} h := by
    refine ⟨{ s with place := s.place.set f (some ⟨[], none⟩) }, ?_, ByFormat.get_set _ _ _⟩
    show answer (.next f) s = _
    simp only [answer, h]
  next_entry {f i rest b s} h := by
    refine ⟨{ s with place := s.place.set f (some ⟨rest, some i.body⟩) }, ?_, ByFormat.get_set _ _ _⟩
    show answer (.next f) s = _
    simp only [answer, h]
  read {f} n {rest body s} h := by
    obtain ⟨t, ha, ht⟩ := reading_of_place h fun body => (body.take n, some (body.drop n))
    exact ⟨body.take n, body.drop n, t, (List.take_append_drop n body).symm, List.length_take_le n body, ha, ht⟩
  readAll h := reading_of_place h fun body => (body, some [])
  skip h := reading_of_place h fun _ => ((), none)

end Shelf

end FlatPackage.Container
