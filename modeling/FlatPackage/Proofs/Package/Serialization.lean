/-
  FlatPackage.Proofs.Package.Serialization — which calls write a package, and what they write.

  `Trace` lists the calls that write a package to a file; the calls that give its bytes differ from
  them in the outer container alone. Which body belongs to which header is read off the calls
  themselves (`given`): a header begins an entry of its container, and data goes to the entry whose
  header came last. So what a header declares can be held against what was written behind it.

  Proved:
  (1) `traced_toBytes`: the calls that give a package's bytes.
  (2) `given_inner`, `given_outer`: what the two containers were given.
  (3) `serialized_in_order`: a run that goes well makes these calls and no others, gives the inner
      container every entry as it is and the outer one the payload, which decodes to the inner
      archive; and a run whose calls all go well goes well.
  Trace: a package of every kind of entry (`every_kind_serialized`).
-/

import FlatPackage.Proofs.Package.RoundTrip
import FlatPackage.Proofs.Package.FailStop
import FlatPackage.Proofs.Package.Trace

namespace FlatPackage.Package

open Container (Archive EntryKind Exchange Format Header Item Operation Rehearsal Request Session Watched)

variable {σ α : Type} {A : Archive σ}

/-! ## (1) Bytes in memory -/

/-- The calls that make the outer archive, in memory. -/
def outerCallsInMemory (now : Int) (payload package : Bytes) : List Exchange :=
  [.createMemory .xar, .header .xar (Builder.payloadHeader now payload), .data .xar payload, .finish .xar].map done ++
    [⟨.take .xar, .ok (.bytes package)⟩]

theorem Builder.traced_toBytes (codec : Stream.Codec) (now : Int) (b : Builder) :
    Traced (fun package made => ∃ archive, made =
        innerCalls b.entries archive ++ outerCallsInMemory now (Stream.compress codec archive) package)
      (b.toBytes A.watched codec now) := by
  refine ((traced_buildPayload codec b).bind fun payload => (Traced.call _).bind fun _ =>
    ((Traced.call _).bind fun _ => (Traced.call _).bind fun _ => Traced.call _).bind fun _ => Traced.call _).mono ?_
  rintro package _ ⟨_, _, _, rfl, ⟨archive, rfl, rfl⟩, _, _, _, rfl, rfl, _, _, _, rfl,
    ⟨_, _, _, rfl, rfl, _, _, _, rfl, rfl, rfl⟩, rfl⟩
  exact ⟨archive, rfl⟩

/-! ## (2) What was given -/

/-- The entries of a container of a format after one more call. -/
def receive (f : Format) (items : List Item) (x : Exchange) : List Item :=
  match x.request with
  | .header g h => if g = f then items ++ [⟨h, []⟩] else items
  | .data g bytes => if g = f then Rehearsal.appendBody bytes items else items
  | _ => items

/-- What a container of a format was given by these calls: its entries, each with the body that was
    written between its header and the next. -/
def given (f : Format) (made : List Exchange) : List Item := made.foldl (receive f) []

theorem foldl_receive_of_other {f : Format} {made : List Exchange} (h : ∀ x ∈ made, x.request.format ≠ f)
    (items : List Item) : made.foldl (receive f) items = items := by
  induction made generalizing items with
  | nil => rfl
  | cons x made ih =>
    have hx : receive f items x = items := by
      have hne := h x List.mem_cons_self
      rcases x with ⟨q, r⟩
      cases q <;> first | rfl | exact if_neg hne
    rw [List.foldl_cons, hx, ih fun y hy => h y (List.mem_cons_of_mem _ hy)]

/-- A header and its data, if there are any, are one entry more. -/
theorem foldl_receive_requests (e : Entry) (items : List Item) :
    (e.requests.map done).foldl (receive .cpio) items = items ++ [e.item] := by
  by_cases h : e.kind = .file ∧ !e.data.isEmpty
  · have hbody : e.item = ⟨e.header, [] ++ e.data⟩ := by rw [Entry.item, if_pos h.1, List.nil_append]
    rw [Entry.requests, if_pos h, hbody]
    exact Container.Shelf.appendBody_concat e.data items ⟨e.header, []⟩
  · have hbody : e.item = ⟨e.header, []⟩ := by
      rw [Entry.item]
      by_cases hk : e.kind = .file
      · have hd : e.data = [] := by simpa [hk] using h
        rw [if_pos hk, hd]
      · rw [if_neg hk]
    rw [Entry.requests, if_neg h, hbody]
    rfl

theorem foldl_receive_entries (es : List Entry) (items : List Item) :
    ((es.flatMap Entry.requests).map done).foldl (receive .cpio) items = items ++ es.map Entry.item := by
  induction es generalizing items with
  | nil => exact (List.append_nil _).symm
  | cons e es ih =>
    rw [List.flatMap_cons, List.map_append, List.foldl_append, foldl_receive_requests, ih, List.append_assoc]
    rfl

theorem Entry.format_requests {e : Entry} : ∀ q ∈ e.requests, q.format = .cpio := by
  intro q hq
  rw [requests, List.mem_cons] at hq
  rcases hq with rfl | hq
  · rfl
  · split at hq
    · rw [List.mem_singleton.mp hq]
      rfl
    · cases hq

theorem format_innerCalls {es : List Entry} {archive : Bytes} : ∀ x ∈ innerCalls es archive, x.request.format = .cpio := by
  intro x hx
  simp only [innerCalls, List.mem_cons, List.mem_append, List.mem_map, List.mem_flatMap, List.not_mem_nil, or_false] at hx
  rcases hx with rfl | ⟨q, ⟨e, -, hq⟩, rfl⟩ | rfl
  · rfl
  · exact e.format_requests q hq
  · rfl

/-- Whatever comes behind, the inner container was given the entries. -/
theorem given_inner {es : List Entry} {archive : Bytes} {outer : List Exchange}
    (ho : ∀ x ∈ outer, x.request.format = .xar) :
    given .cpio (innerCalls es archive ++ outer) = es.map Entry.item := by
  have hother : ∀ x ∈ outer, x.request.format ≠ .cpio := fun x hx hc => by simp [ho x hx] at hc
  rw [given, List.foldl_append, foldl_receive_of_other hother, innerCalls, List.foldl_cons, List.foldl_append]
  exact foldl_receive_entries es []

theorem given_outer {es : List Entry} {archive : Bytes} {outer : List Exchange} :
    given .xar (innerCalls es archive ++ outer) = given .xar outer := by
  have hother : ∀ x ∈ innerCalls es archive, x.request.format ≠ .xar := fun x hx hc => by
    simp [format_innerCalls x hx] at hc
  rw [given, List.foldl_append, foldl_receive_of_other hother]
  rfl

/-! ## (3) A package -/

/-- An entry as the inner container was given it: every field, the data if it is a file, and a size that
    says how many octets of body there are. -/
structure Stands (e : Entry) (i : Item) : Prop where
  path : i.header.path = e.path
  kind : i.header.kind = e.kind
  permissions : i.header.permissions = e.permissions
  mtime : i.header.mtime = e.mtime
  target : i.header.target = e.target
  body : i.body = if e.kind = .file then e.data else []
  size : i.body.length < UInt64.size → i.header.size.toNat = i.body.length

theorem Entry.stands_item (e : Entry) : Stands e e.item := by
  refine ⟨rfl, rfl, rfl, rfl, rfl, rfl, fun hlt => ?_⟩
  rw [show e.item.header.size = e.item.body.length.toUInt64 from e.sized_item]
  exact UInt64.toNat_ofNat_of_lt' hlt

/-- The calls that write a package of these entries: the inner archive is made and taken, and the payload
    made of it is written as the one entry of the outer archive. With a codec that restores what it
    packs, the payload decodes to the inner archive. -/
structure Serialized (codec : Stream.Codec) (es : List Entry) (outer : Bytes → List Exchange) (archive : Bytes)
    (made : List Exchange) : Prop where
  calls : made = innerCalls es archive ++ outer (Stream.compress codec archive)
  entries : List.Forall₂ Stands es (given .cpio made)
  payload : ∃ i, given .xar made = [i] ∧ i.header.path = "Payload" ∧ i.header.kind = .file ∧
    i.body = Stream.compress codec archive ∧ (i.body.length < UInt64.size → i.header.size.toNat = i.body.length)
  decodes : (∀ x, x ≠ [] → codec.decompress (codec.compress x) = .ok x) →
    Stream.decode codec (Stream.compress codec archive) = .ok archive

theorem forall₂_stands (es : List Entry) : List.Forall₂ Stands es (es.map Entry.item) := by
  induction es with
  | nil => exact .nil
  | cons e es ih => exact .cons e.stands_item ih

theorem serialized_of_calls (codec : Stream.Codec) (es : List Entry) (now : Int) (archive : Bytes) {outer : Bytes → List Exchange}
    (ho : ∀ payload, ∀ x ∈ outer payload, x.request.format = .xar)
    (hg : ∀ payload, given .xar (outer payload) = [payloadItem now payload]) :
    Serialized codec es outer archive (innerCalls es archive ++ outer (Stream.compress codec archive)) where
  calls := rfl
  entries := by
    rw [given_inner (ho _)]
    exact forall₂_stands es
  payload := by
    refine ⟨payloadItem now (Stream.compress codec archive), ?_, rfl, rfl, rfl, fun hlt => UInt64.toNat_ofNat_of_lt' hlt⟩
    rw [given_outer, hg]
  decodes hcodec := decode_compress_of_lossless hcodec archive

/-- The calls of a traced operation that went well, and that it goes well if they do. -/
theorem Traced.exchanges (op : Operation α) {Q : Request → Prop} {P : α → List Exchange → Prop} {now : Int}
    (ht : Traced P (op _ A.watched now)) (ho : op.Orderly Q) (s : σ) :
    (∀ a t, op _ A now s = (.ok a, t) → P a (op.exchanges A now s)) ∧
      ((∀ x ∈ op.exchanges A now s, x.Well) → ∃ a t, op _ A now s = (.ok a, t)) := by
  have hu : op _ A now s = _ := ho.unwatched A now ⟨s, []⟩
  have hl : op.exchanges A now s = (op _ A.watched now ⟨s, []⟩).2.exchanges := rfl
  rcases hr : op _ A.watched now ⟨s, []⟩ with ⟨f | a, w⟩
  · rw [hr] at hu hl
    obtain ⟨made, q, hm, -⟩ := ht.error hr
    refine ⟨fun a t ha => ?_, fun hwell => ?_⟩
    · rw [hu] at ha
      cases ha
    · obtain ⟨v, hv⟩ := hwell ⟨q, .error f⟩ (by rw [hl, hm]; simp)
      cases hv
  · rw [hr] at hu hl
    obtain ⟨made, hm, -, hp⟩ := ht.ok hr
    refine ⟨fun b t hb => ?_, fun _ => ⟨a, w.state, hu⟩⟩
    rw [hu] at hb
    cases hb
    rwa [hl, hm]

/-- An operation that writes a package of these entries: if it goes well, these are all the calls that it
    made; and it goes well if they do. -/
structure Serializes (codec : Stream.Codec) (es : List Entry) (op : Operation α) (outer : α → Bytes → List Exchange)
    (A : Archive σ) (now : Int) (s : σ) : Prop where
  calls : ∀ a t, op _ A now s = (.ok a, t) →
    ∃ archive, Serialized codec es (outer a) archive (op.exchanges A now s)
  ends : (∀ x ∈ op.exchanges A now s, x.Well) → ∃ a t, op _ A now s = (.ok a, t)

namespace Builder

variable (A) (codec : Stream.Codec) (now : Int) (s : σ) (b : Builder)

theorem serializes_write (path : String) : Serializes codec b.entries (fun _ A now => b.write A codec now path)
    (fun _ payload => outerCalls now path payload) A now s := by
  obtain ⟨hcalls, hends⟩ := Traced.exchanges (fun _ A now => b.write A codec now path)
    (traced_write (A := A) codec now path b) (orderly_write codec b path) s
  refine ⟨fun a t ha => ?_, hends⟩
  obtain ⟨archive, hmade⟩ := hcalls a t ha
  rw [hmade]
  exact ⟨archive, serialized_of_calls codec b.entries now archive (by simp [outerCalls, done, Request.format]) fun _ => rfl⟩

theorem serializes_toBytes : Serializes codec b.entries (fun _ A now => b.toBytes A codec now)
    (fun package payload => outerCallsInMemory now payload package) A now s := by
  obtain ⟨hcalls, hends⟩ := Traced.exchanges (fun _ A now => b.toBytes A codec now)
    (traced_toBytes (A := A) codec now b) (orderly_toBytes codec b) s
  refine ⟨fun package t ha => ?_, hends⟩
  obtain ⟨archive, hmade⟩ := hcalls package t ha
  rw [hmade]
  exact ⟨archive, serialized_of_calls codec b.entries now archive (by simp [outerCallsInMemory, done, Request.format])
    fun _ => rfl⟩

end Builder

/-- For every builder, codec, container library, state and time: a run that wrote a package to a file, or
    gave its bytes, made the calls that serialize the builder's entries and no others, and a run of
    either kind of which every call went well did so. -/
theorem serialized_in_order (A : Archive σ) (codec : Stream.Codec) (now : Int) (s : σ) (b : Builder) :
    (∀ path, Serializes codec b.entries (fun _ A now => b.write A codec now path)
      (fun _ payload => outerCalls now path payload) A now s) ∧
    Serializes codec b.entries (fun _ A now => b.toBytes A codec now)
      (fun package payload => outerCallsInMemory now payload package) A now s :=
  ⟨b.serializes_write A codec now s, b.serializes_toBytes A codec now s⟩

/-- A builder with every kind of entry: a file without data, and a symlink that has some. -/
def everyKind : Builder :=
  ⟨[⟨"usr", .directory, [], 0o755, 5, ""⟩, ⟨"usr/a", .file, [1, 2, 3], 0o600, 6, ""⟩, ⟨"usr/b", .file, [], 0o644, 7, ""⟩,
    ⟨"usr/c", .symlink, [9], 0o777, 8, "a"⟩, ⟨"usr/d", .other, [], 0, 9, ""⟩]⟩

/-- It is written to a file and given as bytes; the inner container is given five entries, and data for the
    one file that has any. -/
theorem every_kind_serialized :
    let codec : Stream.Codec := ⟨(0 :: ·), fun b => .ok (b.drop 1)⟩
    let r := Rehearsal.prepare ⟨[], []⟩ ⟨[8], [7, 7]⟩ none
    let A := Rehearsal.archive
    let write : Operation Unit := fun _ A now => everyKind.write A codec now "usr.pkg"
    let toBytes : Operation Bytes := fun _ A now => everyKind.toBytes A codec now
    (∀ x, x ≠ [] → codec.decompress (codec.compress x) = .ok x) ∧
      (∃ t archive, write _ A 3 r = (.ok (), t) ∧
        Serialized codec everyKind.entries (outerCalls 3 "usr.pkg") archive (write.exchanges A 3 r) ∧
        (given .cpio (write.exchanges A 3 r)).map Item.body = [[], [1, 2, 3], [], [], []]) ∧
      (∃ t archive, toBytes _ A 3 r = (.ok [8], t) ∧
        Serialized codec everyKind.entries (outerCallsInMemory 3 · [8]) archive (toBytes.exchanges A 3 r)) := by
  intro codec r A write toBytes
  have hwrite : ∃ t, write _ A 3 r = (.ok (), t) := ⟨_, rfl⟩
  have hbytes : ∃ t, toBytes _ A 3 r = (.ok [8], t) := ⟨_, rfl⟩
  obtain ⟨t, ht⟩ := hwrite
  obtain ⟨t', ht'⟩ := hbytes
  obtain ⟨hfile, hmemory⟩ := serialized_in_order A codec 3 r everyKind
  obtain ⟨archive, hs⟩ := (hfile "usr.pkg").calls () t ht
  obtain ⟨archive', hs'⟩ := hmemory.calls [8] t' ht'
  refine ⟨fun _ _ => rfl, ⟨t, archive, ht, hs, ?_⟩, t', archive', ht', hs'⟩
  rw [hs.calls, given_inner (by simp [outerCalls, done, Request.format])]
  rfl

end FlatPackage.Package
