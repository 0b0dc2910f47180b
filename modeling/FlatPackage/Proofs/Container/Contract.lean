/-
  FlatPackage.Proofs.Container.Contract — what a container library promises.

  A library's state is looked at from three sides: what was given to the writer of a format
  since it was created (`draft`), what its reader is still to give (`place`), and what is in
  a file (`file`). Which bytes are an archive of which entries is the library's affair
  (`Holds`): it says so when it gives an archive out, and is held to it when it opens one.

  Writing. Nothing is promised of a call that fails. An archive holds its entries only if
  every header declared as many octets as were written after it (`Item.Sized`); a library may
  cut a body that is longer than declared, or fill one that is shorter.

  Reading. Bytes that hold entries can be opened, in any state, and give the entries in
  order. A body may come in any portions: `read` gives some front of what is left, `readAll`
  all of it. Before the first entry, after the last, and once a body was skipped, there is no
  body to read and nothing is promised of an attempt.
-/

import FlatPackage.Container.Rehearsal

namespace FlatPackage.Container

/-- The header declares as many octets as there are. -/
def Item.Sized (i : Item) : Prop := i.header.size = i.body.length.toUInt64

/-- An archive that is being written: the file it goes to, if it goes to one, and its entries. -/
structure Draft where
  path : Option String
  items : List Item
  deriving DecidableEq, Repr

/-- Where a reader stands: the entries to come, and what is left of the body it is in. -/
structure Place where
  rest : List Item
  body : Option Bytes
  deriving DecidableEq, Repr

structure Contract {σ : Type} (A : Archive σ) where
  draft : Format → σ → Option Draft
  place : Format → σ → Option Place
  file : String → σ → Option Bytes
  Holds : Format → Bytes → List Item → Prop
  createFile {f : Format} {path : String} {s t : σ} : A.answer (.createFile f path) s = (.ok (), t) →
    draft f t = some ⟨some path, []⟩
  createMemory {f : Format} {s t : σ} : A.answer (.createMemory f) s = (.ok (), t) → draft f t = some ⟨none, []⟩
  header {f : Format} {h : Header} {d : Draft} {s t : σ} : draft f s = some d →
    A.answer (.header f h) s = (.ok (), t) → draft f t = some { d with items := d.items ++ [⟨h, []⟩] }
  /-- Octets go to the entry whose header came last. -/
  data {f : Format} {b : Bytes} {p : Option String} {items : List Item} {i : Item} {s t : σ} :
    draft f s = some ⟨p, items ++ [i]⟩ → A.answer (.data f b) s = (.ok (), t) →
    draft f t = some ⟨p, items ++ [{ i with body := i.body ++ b }]⟩
  finish {f : Format} {d : Draft} {s t : σ} : draft f s = some d → A.answer (.finish f) s = (.ok (), t) →
    draft f t = some d
  finish_file {f : Format} {path : String} {items : List Item} {s t : σ} :
    draft f s = some ⟨some path, items⟩ → (∀ i ∈ items, i.Sized) → A.answer (.finish f) s = (.ok (), t) →
    ∃ b, file path t = some b ∧ Holds f b items
  take {f : Format} {items : List Item} {b : Bytes} {s t : σ} :
    draft f s = some ⟨none, items⟩ → (∀ i ∈ items, i.Sized) → A.answer (.take f) s = (.ok b, t) → Holds f b items
  openFile {f : Format} {path : String} {b : Bytes} {items : List Item} {s : σ} :
    file path s = some b → Holds f b items →
    ∃ t, A.answer (.openFile f path) s = (.ok (), t) ∧ place f t = some ⟨items, none⟩
  openMemory {f : Format} {b : Bytes} {items : List Item} (s : σ) : Holds f b items →
    ∃ t, A.answer (.openMemory f b) s = (.ok (), t) ∧ place f t = some ⟨items, none⟩
  next_end {f : Format} {b : Option Bytes} {s : σ} : place f s = some ⟨[], b⟩ →
    ∃ t, A.answer (.next f) s = (.ok none, t) ∧ place f t = some ⟨[], none⟩
  next_entry {f : Format} {i : Item} {rest : List Item} {b : Option Bytes} {s : σ} :
    place f s = some ⟨i :: rest, b⟩ →
    ∃ t, A.answer (.next f) s = (.ok (some i.header), t) ∧ place f t = some ⟨rest, some i.body⟩
  read {f : Format} (n : Nat) {rest : List Item} {body : Bytes} {s : σ} : place f s = some ⟨rest, some body⟩ →
    ∃ front left t, body = front ++ left ∧ front.length ≤ n ∧ A.answer (.read f n) s = (.ok front, t) ∧
      place f t = some ⟨rest, some left⟩
  readAll {f : Format} {rest : List Item} {body : Bytes} {s : σ} : place f s = some ⟨rest, some body⟩ →
    ∃ t, A.answer (.readAll f) s = (.ok body, t) ∧ place f t = some ⟨rest, some []⟩
  skip {f : Format} {rest : List Item} {body : Bytes} {s : σ} : place f s = some ⟨rest, some body⟩ →
    ∃ t, A.answer (.skip f) s = (.ok (), t) ∧ place f t = some ⟨rest, none⟩

end FlatPackage.Container
