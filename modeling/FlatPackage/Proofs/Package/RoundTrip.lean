/-
  FlatPackage.Proofs.Package.RoundTrip — a package gives back what was put into it.

  Four layers are gone through twice. Going in, entries become the inner archive, the archive
  a chunk stream, the stream the one entry of the outer archive (`Building`). Coming out, the
  first entry of the outer archive is the payload because of its name (`findPayload_single`),
  the stream decodes to the archive it was made from (`decode_compress`), and the archive is
  opened and gone through entry by entry (`Tour`). The two archives are the library's
  affair; it is only held to its contract, once for each format.

  Proved:
  (1) `package_round_trip`: after any calls that add entries, opening what was written, from its
      file or from its bytes, opens the inner archive on the bytes that the inner writer gave
      out, and any tour through it recalls the accepted entries in order and then comes to the
      end.
  Trace: a package of four entries (`a_package_on_the_shelf`).
-/

import FlatPackage.Proofs.Container.Shelf
import FlatPackage.Proofs.Package.Building
import FlatPackage.Proofs.Package.Collecting
import FlatPackage.Proofs.Package.Payload
import FlatPackage.Proofs.Package.Tour
import FlatPackage.Proofs.Stream.RoundTrip

namespace FlatPackage.Package

open Container (Archive Contract Header Item Place Session Shelf)

variable {σ : Type} {A : Archive σ}

/-! ## Coming out: the payload -/

theorem isPayloadName_payloadName : isPayloadName payloadName = true := by decide

theorem Reader.findPayload_single (K : Contract A) (now : Int) (payload : Bytes) {s : σ}
    (h : K.place .xar s = some ⟨[payloadItem now payload], none⟩) : ∃ t, findPayload A s = (.ok payload, t) := by
  obtain ⟨t, ha, ht⟩ := K.next_entry h
  obtain ⟨u, hr, -⟩ := K.readAll ht
  have hn : isPayloadName (payloadItem now payload).header.path = true := isPayloadName_payloadName
  exact ⟨u, (findPayload_of_named hn ha).trans hr⟩

/-- Of a codec that loses nothing, every slice is one that it restores. -/
theorem decode_compress_of_lossless {codec : Stream.Codec}
    (h : ∀ x, x ≠ [] → codec.decompress (codec.compress x) = .ok x) (d : Bytes) :
    Stream.decode codec (Stream.compress codec d) = .ok d := by
  refine Stream.decode_compress ?_
  intro x hx
  have hl := Bytes.length_of_mem_slices (Stream.chunkSize_pos (by decide)) hx
  exact h x (List.ne_nil_of_length_pos hl.1)

/-! ## Coming out: the entries -/

/-- What a visit recalls of an entry: every field as it was given, the length of its data as its size,
    and of the data as much as was read. -/
structure Recalls (v : Reader.Visit) (e : Entry) (seen : Option Header × List Bytes) : Prop where
  header : ∃ h, seen.1 = some h ∧ h.path = e.path ∧ h.kind = e.kind ∧ h.permissions = e.permissions ∧
    h.mtime = e.mtime ∧ h.target = e.target ∧ h.size = e.data.length.toUInt64
  /-- All that was read is the front of the data, in order. -/
  front : seen.2.flatten <+: e.data
  whole : .rest ∈ v.portions → seen.2.flatten = e.data
  within : List.Forall₂ Reader.Portion.Within v.portions seen.2

theorem recalls_of_gives {v : Reader.Visit} {e : Entry} (he : e.IsTrimmed) {seen : Option Header × List Bytes}
    (h : Reader.Gives v e.item seen) : Recalls v e seen := by
  have hbody : e.item.body = e.data := by
    by_cases hk : e.kind = .file
    · exact if_pos hk
    · rw [he hk]
      exact if_neg hk
  refine ⟨⟨e.header, h.header, rfl, rfl, rfl, rfl, rfl, ?_⟩, ?_, ?_, h.within⟩
  · rw [← hbody]
    exact e.sized_item
  · rw [← hbody]
    exact h.front
  · intro hm
    rw [← hbody]
    exact h.whole hm

/-- The reader recalls these entries on every tour, and comes to the end after the last one. -/
def Delivers (A : Archive σ) (es : List Entry) (s : σ) : Prop :=
  ∀ vs : List Reader.Visit, vs.length ≤ es.length →
    ∃ seen t, Reader.tour A vs s = (.ok seen, t) ∧ List.Forall₂ (fun (v, e) x => Recalls v e x) (vs.zip es) seen ∧
      (vs.length = es.length → ∃ u, Reader.next A t = (.ok none, u))

theorem forall₂_recalls {es : List Entry} (hes : ∀ e ∈ es, e.IsTrimmed) (vs : List Reader.Visit)
    {seen : List (Option Header × List Bytes)}
    (h : List.Forall₂ (fun (v, i) x => Reader.Gives v i x) (vs.zip (es.map Entry.item)) seen) :
    List.Forall₂ (fun (v, e) x => Recalls v e x) (vs.zip es) seen := by
  induction vs generalizing es seen with
  | nil =>
    cases h
    exact .nil
  | cons v vs ih =>
    cases es with
    | nil =>
      cases h
      exact .nil
    | cons e es =>
      cases h with
      | cons hv hvs =>
        refine .cons (recalls_of_gives (hes e List.mem_cons_self) hv) (ih ?_ hvs)
        exact fun d hd => hes d (List.mem_cons_of_mem _ hd)

theorem delivers_of_place (K : Contract A) {es : List Entry} (hes : ∀ e ∈ es, e.IsTrimmed) {s : σ}
    (h : K.place .cpio s = some ⟨es.map Entry.item, none⟩) : Delivers A es s := by
  intro vs hl
  obtain ⟨seen, b, t, ht, hp, hg⟩ := Reader.tour_spec K vs (by simpa using hl) h
  refine ⟨seen, t, ht, forall₂_recalls hes vs hg, ?_⟩
  intro heq
  have hnil : (es.map Entry.item).drop vs.length = [] := by
    rw [heq, ← List.length_map Entry.item]
    exact List.drop_length
  rw [hnil] at hp
  obtain ⟨u, hu, -⟩ := K.next_end hp
  exact ⟨u, hu⟩

/-! ## Opening -/

/-- Opening a package in a state: the payload is read, it decodes to the inner archive, the inner
    archive is opened on these bytes, and the reader that is left delivers the entries. -/
def OpensOn (A : Archive σ) (codec : Stream.Codec) (reading : Session σ Bytes) (opening : Session σ Unit)
    (archive : Bytes) (es : List Entry) (s : σ) : Prop :=
  ∃ payload t u, reading s = (.ok payload, t) ∧ Stream.decode codec payload = .ok archive ∧
    A.answer (.openMemory .cpio archive) t = (.ok (), u) ∧ opening s = (.ok (), u) ∧ Delivers A es u

/-- Whichever way the payload is read, opening goes on from there. -/
theorem opensOn_of_payload (K : Contract A) {codec : Stream.Codec} {archive : Bytes}
    (hd : Stream.decode codec (Stream.compress codec archive) = .ok archive) {es : List Entry}
    (hes : ∀ e ∈ es, e.IsTrimmed) (hh : K.Holds .cpio archive (es.map Entry.item))
    {reading : Session σ Bytes} {opening : Session σ Unit} {s t : σ}
    (hr : reading s = (.ok (Stream.compress codec archive), t))
    (ho : opening s = Reader.openPayload A codec (Stream.compress codec archive) t) :
    OpensOn A codec reading opening archive es s := by
  obtain ⟨u, hm, hp⟩ := K.openMemory t hh
  refine ⟨_, t, u, hr, hd, hm, ?_, delivers_of_place K hes hp⟩
  rw [ho, Reader.openPayload_eq hd, hm]

/-! ## (1) Writing and opening -/

/-- What was written to a file or given out as bytes can be opened, as long as it is there, on the
    inner archive that was built for it. -/
theorem package_round_trip (K : Contract A) {codec : Stream.Codec}
    (hcodec : ∀ x, x ≠ [] → codec.decompress (codec.compress x) = .ok x) (calls : List Adding) (now : Int) (s : σ) :
    (∀ path s', (collect calls).write A codec now path s = (.ok (), s') →
      ∃ archive s₁, (collect calls).buildArchive A s = (.ok archive, s₁) ∧
        ∀ t, K.file path t = K.file path s' →
          OpensOn A codec (Reader.extractPayload A path) (Reader.openFile A codec path) archive (accepted calls) t) ∧
    (∀ package s', (collect calls).toBytes A codec now s = (.ok package, s') →
      ∃ archive s₁, (collect calls).buildArchive A s = (.ok archive, s₁) ∧
        ∀ t, OpensOn A codec (do A.call (.openMemory .xar package); Reader.findPayload A)
          (Reader.openMemory A codec package) archive (accepted calls) t) := by
  have hes : ∀ e ∈ accepted calls, e.IsTrimmed := fun _ he => isTrimmed_of_mem_accepted he
  constructor
  · intro path s' hw
    obtain ⟨archive, s₁, ha, package, hf, hh⟩ := Builder.write_spec K hw
    have hi := Builder.buildArchive_spec K _ ha
    rw [entries_collect] at hi
    refine ⟨archive, s₁, ha, ?_⟩
    intro t ht
    obtain ⟨u, ho, hp⟩ := K.openFile (ht.trans hf) hh
    obtain ⟨w, hf⟩ := Reader.findPayload_single K now _ hp
    have hr : Reader.extractPayload A path t = _ := (Session.bind_of_ok ho).trans hf
    exact opensOn_of_payload K (decode_compress_of_lossless hcodec archive) hes hi hr (Session.bind_of_ok hr)
  · intro package s' hb
    obtain ⟨archive, s₁, ha, hh⟩ := Builder.toBytes_spec K hb
    have hi := Builder.buildArchive_spec K _ ha
    rw [entries_collect] at hi
    refine ⟨archive, s₁, ha, ?_⟩
    intro t
    obtain ⟨u, ho, hp⟩ := K.openMemory t hh
    obtain ⟨w, hf⟩ := Reader.findPayload_single K now _ hp
    refine opensOn_of_payload K (decode_compress_of_lossless hcodec archive) hes hi ((Session.bind_of_ok ho).trans hf) ?_
    exact (Session.bind_of_ok ho).trans (Session.bind_of_ok hf)

/-- A directory, a call that is rejected, a file with data and one without, and a link. -/
theorem a_package_on_the_shelf :
    let codec : Stream.Codec := ⟨(0 :: ·), fun b => .ok (b.drop 1)⟩
    let calls : List Adding := [.directory 5 "usr", .file 5 "" [9], .fileWithPermissions 6 "usr/a" [1, 2, 3] 0o600,
      .file 7 "usr/b" [], .symlink 8 "usr/c" "a"]
    (∀ x, x ≠ [] → codec.decompress (codec.compress x) = .ok x) ∧
      accepted calls = [⟨"usr", .directory, [], 0o755, 5, ""⟩, ⟨"usr/a", .file, [1, 2, 3], 0o600, 6, ""⟩,
        ⟨"usr/b", .file, [], 0o644, 7, ""⟩, ⟨"usr/c", .symlink, [], 0o777, 8, "a"⟩] ∧
      (∃ t, (collect calls).write Shelf.library codec 9 "usr.pkg" Shelf.empty = (.ok (), t) ∧ ∃ archive,
        OpensOn Shelf.library codec (Reader.extractPayload Shelf.library "usr.pkg")
          (Reader.openFile Shelf.library codec "usr.pkg") archive (accepted calls) t) ∧
      ∃ package t, (collect calls).toBytes Shelf.library codec 9 Shelf.empty = (.ok package, t) ∧ ∃ archive,
        OpensOn Shelf.library codec (do Shelf.library.call (.openMemory .xar package); Reader.findPayload Shelf.library)
          (Reader.openMemory Shelf.library codec package) archive (accepted calls) t := by
  intro codec calls
  have hcodec : ∀ x, x ≠ [] → codec.decompress (codec.compress x) = .ok x := fun _ _ => rfl
  have h := package_round_trip Shelf.contract hcodec calls 9 Shelf.empty
  have hw : ∃ t, (collect calls).write Shelf.library codec 9 "usr.pkg" Shelf.empty = (.ok (), t) := ⟨_, rfl⟩
  have hb : ∃ package t, (collect calls).toBytes Shelf.library codec 9 Shelf.empty = (.ok package, t) := ⟨_, _, rfl⟩
  obtain ⟨t, hw⟩ := hw
  obtain ⟨package, t', hb⟩ := hb
  obtain ⟨archive, -, -, hf⟩ := h.1 "usr.pkg" t hw
  obtain ⟨archive', -, -, hm⟩ := h.2 package t' hb
  exact ⟨hcodec, by decide, ⟨t, hw, archive, hf t rfl⟩, package, t', hb, archive', hm t'⟩

end FlatPackage.Package
