/-
  FlatPackage.Container.Rehearsal — a container library that plays back and takes notes.

  Reading any archive of a format gives the listing prepared for that format; taking the
  bytes of a written one gives the bytes prepared for it. Every archive that is opened
  or created is noted, with what was written to it. One call can be made to fail, once,
  after so many of the same sort have gone well; a call that fails does nothing else.
-/

import FlatPackage.Container.Archive

namespace FlatPackage.Container

/-! ## What is prepared -/

/-- What a call does; calls that do the same with one format are counted together. -/
inductive Verb where
  | opening
  | next
  | read
  | skip
  | creation
  | header
  | data
  | finish
  | take
  deriving DecidableEq, Repr

def Call.verb {α : Type} : Call α → Verb × Format
  | .openFile f _ => (.opening, f)
  | .openMemory f _ => (.opening, f)
  | .next f => (.next, f)
  | .read f _ => (.read, f)
  | .readAll f => (.read, f)
  | .skip f => (.skip, f)
  | .createFile f _ => (.creation, f)
  | .createMemory f => (.creation, f)
  | .header f _ => (.header, f)
  | .data f _ => (.data, f)
  | .finish f => (.finish, f)
  | .take f => (.take, f)

/-- A failure that waits for `after` more calls of its kind to go well. -/
structure Mishap where
  verb : Verb
  format : Format
  after : Nat
  message : String
  deriving DecidableEq, Repr

/-- The mishap after a call that it did not strike. -/
def Mishap.pass {α : Type} (c : Call α) (m : Mishap) : Mishap :=
  if c.verb = (m.verb, m.format) then { m with after := m.after - 1 } else m

/-- An entry with its body. -/
structure Item where
  header : Header
  body : Bytes
  deriving DecidableEq, Repr

/-- What is the same thing once for each format. -/
structure ByFormat (α : Type) where
  xar : α
  cpio : α
  deriving DecidableEq, Repr

namespace ByFormat

def get {α : Type} (x : ByFormat α) : Format → α
  | .xar => x.xar
  | .cpio => x.cpio

def set {α : Type} (x : ByFormat α) (f : Format) (a : α) : ByFormat α :=
  match f with
  | .xar => { x with xar := a }
  | .cpio => { x with cpio := a }

theorem get_set {α : Type} (x : ByFormat α) (f : Format) (a : α) : (x.set f a).get f = a := by
  cases f <;> rfl

end ByFormat

/-! ## What is noted -/

inductive Opened where
  | file (format : Format) (path : String)
  | memory (format : Format) (bytes : Bytes)
  deriving DecidableEq, Repr

/-- An archive that was created: its entries in order, each with what was written after its
    header, and whether it was finished. -/
structure Written where
  format : Format
  path : Option String
  entries : List Item
  finished : Bool
  deriving DecidableEq, Repr

/-- A reader's place: the entries still to come and what is left of the current body. -/
structure Cursor where
  rest : List Item
  body : Bytes
  deriving DecidableEq, Repr

structure Rehearsal where
  listing : ByFormat (List Item)
  bytes : ByFormat Bytes
  mishap : Option Mishap
  cursor : ByFormat Cursor
  opened : List Opened
  written : List Written
  deriving DecidableEq, Repr

namespace Rehearsal

def prepare (listing : ByFormat (List Item)) (bytes : ByFormat Bytes) (mishap : Option Mishap) : Rehearsal :=
  ⟨listing, bytes, mishap, ⟨⟨[], []⟩, ⟨[], []⟩⟩, [], []⟩

/-! ## Answers -/

/-- Changes the archive of a format that was created last. -/
def amend (f : Format) (change : Written → Written) : List Written → List Written
  | [] => []
  | w :: r => if r.any (·.format == f) then w :: amend f change r
    else if w.format = f then change w :: r else w :: amend f change r

/-- Adds octets to the entry whose header came last. -/
def appendBody (bytes : Bytes) : List Item → List Item
  | [] => []
  | [i] => [{ i with body := i.body ++ bytes }]
  | i :: r => i :: appendBody bytes r

def opening (r : Rehearsal) (f : Format) (o : Opened) : Rehearsal :=
  { r with opened := r.opened ++ [o], cursor := r.cursor.set f ⟨r.listing.get f, []⟩ }

def creating (r : Rehearsal) (f : Format) (path : Option String) : Rehearsal :=
  { r with written := r.written ++ [⟨f, path, [], false⟩] }

def writing (r : Rehearsal) (f : Format) (change : Written → Written) : Rehearsal :=
  { r with written := amend f change r.written }

/-- The answer to a call that goes well. -/
def reply {α : Type} (c : Call α) (r : Rehearsal) : α × Rehearsal :=
  match c with
  | .openFile f path => ((), r.opening f (.file f path))
  | .openMemory f bytes => ((), r.opening f (.memory f bytes))
  | .next f =>
    match (r.cursor.get f).rest with
    | [] => (none, { r with cursor := r.cursor.set f ⟨[], []⟩ })
    | i :: rest => (some i.header, { r with cursor := r.cursor.set f ⟨rest, i.body⟩ })
  | .read f n =>
    let cursor := r.cursor.get f
    (cursor.body.take n, { r with cursor := r.cursor.set f { cursor with body := cursor.body.drop n } })
  | .readAll f =>
    let cursor := r.cursor.get f
    (cursor.body, { r with cursor := r.cursor.set f { cursor with body := [] } })
  | .skip f => ((), { r with cursor := r.cursor.set f { r.cursor.get f with body := [] } })
  | .createFile f path => ((), r.creating f (some path))
  | .createMemory f => ((), r.creating f none)
  | .header f h => ((), r.writing f fun w => { w with entries := w.entries ++ [⟨h, []⟩] })
  | .data f bytes => ((), r.writing f fun w => { w with entries := appendBody bytes w.entries })
  | .finish f => ((), r.writing f fun w => { w with finished := true })
  | .take f => (r.bytes.get f, r.writing f fun w => { w with finished := true })

/-- The message of the mishap that strikes a call, if one does. -/
def strike {α : Type} (c : Call α) (r : Rehearsal) : Option String :=
  r.mishap.bind fun m => if c.verb = (m.verb, m.format) ∧ m.after = 0 then some m.message else none

def answer {α : Type} (c : Call α) (r : Rehearsal) : Except Fault α × Rehearsal :=
  match strike c r with
  | some message => (.error (.container message), { r with mishap := none })
  | none => (.ok (reply c r).1, { (reply c r).2 with mishap := r.mishap.map (Mishap.pass c) })

/-! ## As a library -/

def left (f : Format) (r : Rehearsal) : Nat := (r.cursor.get f).rest.length

theorem left_reply_next {f : Format} {r : Rehearsal} {h : Header} (e : (reply (.next f) r).1 = some h) :
    left f (reply (.next f) r).2 < left f r := by
  simp only [reply] at e ⊢
  split at e
  · cases e
  · rename_i i rest hr
    simp [left, hr, ByFormat.get_set]

theorem left_reply_body {α : Type} {f : Format} {c : Call α} (h : c.readsBody f) (r : Rehearsal) :
    left f (reply c r).2 = left f r := by
  cases c <;> simp [Call.readsBody] at h <;> subst h <;> simp [reply, left, ByFormat.get_set]

def archive : Archive Rehearsal where
  answer := answer
  left := left
  left_next := by
    intro f s h t e
    simp only [answer] at e
    split at e
    · cases e
    · simp only [Prod.mk.injEq, Except.ok.injEq] at e
      obtain ⟨e, rfl⟩ := e
      exact left_reply_next e
  left_body := by
    intro α f s c h
    simp only [answer]
    split
    · exact Nat.le_refl _
    · exact Nat.le_of_eq (left_reply_body h s)

end Rehearsal

end FlatPackage.Container
