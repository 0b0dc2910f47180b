/-
  FlatPackage.Proofs.Package.Building — what a package that was written holds.

  Writing is two archives, one inside the other. Every entry becomes a header and, if it is a
  file with any data, its data (`Entry.item`); the header declares just as many octets as
  follow it (`Entry.sized_item`), without which the library promises nothing. The step
  lemma is `putEntry_spec`, the run lemma `putEntries_spec`; the outer archive is one entry more.

  Proved, for any container library that keeps its contract:
  (1) `buildArchive_spec`: the inner archive holds the builder's entries, in order.
  (2) `write_spec` / `toBytes_spec`: the package, in its file or in memory, holds one entry, the
      payload made from that very archive.
-/

import FlatPackage.Package.Builder
import FlatPackage.Proofs.Container.Contract
import FlatPackage.Proofs.Container.Session

namespace FlatPackage.Package

open Container (Archive Contract Draft Item Session)

/-! ## Entries as items -/

/-- What the inner container is given of an entry. -/
def Entry.item (e : Entry) : Item := ⟨e.header, if e.kind = .file then e.data else []⟩

theorem Entry.sized_item (e : Entry) : e.item.Sized := by
  unfold Container.Item.Sized item header
  by_cases h : e.kind = .file
  · rw [if_pos h, if_pos h]
  · rw [if_neg h, if_neg h]
    rfl

theorem Entry.sized_items {es : List Entry} : ∀ i ∈ es.map Entry.item, i.Sized := by
  intro i hi
  obtain ⟨e, -, rfl⟩ := List.mem_map.mp hi
  exact e.sized_item

/-- The entry of the outer container. -/
def payloadItem (now : Int) (payload : Bytes) : Item := ⟨Builder.payloadHeader now payload, payload⟩

theorem sized_payloadItem (now : Int) (payload : Bytes) : (payloadItem now payload).Sized := rfl

namespace Builder

variable {σ : Type} {A : Archive σ} (K : Contract A)

/-! ## (1) The inner archive -/

theorem putEntry_spec (e : Entry) {p : Option String} {items : List Item} {s t : σ}
    (h : K.draft .cpio s = some ⟨p, items⟩) (hp : putEntry A e s = (.ok (), t)) :
    K.draft .cpio t = some ⟨p, items ++ [e.item]⟩ := by
  unfold putEntry at hp
  obtain ⟨_, s₁, hh, hd⟩ := Session.bind_eq_ok hp
  have h₁ := K.header h hh
  by_cases hc : e.kind = .file ∧ !e.data.isEmpty
  · rw [if_pos hc] at hd
    have h₂ := K.data h₁ hd
    rw [h₂, Entry.item, if_pos hc.1, List.nil_append]
  · rw [if_neg hc] at hd
    cases hd
    have hbody : (if e.kind = .file then e.data else []) = [] := by
      by_cases hk : e.kind = .file
      · rw [if_pos hk]
        simpa [hk] using hc
      · exact if_neg hk
    rw [h₁, Entry.item, hbody]

theorem putEntries_spec (es : List Entry) {p : Option String} {items : List Item} {s t : σ}
    (h : K.draft .cpio s = some ⟨p, items⟩) (hp : putEntries A es s = (.ok (), t)) :
    K.draft .cpio t = some ⟨p, items ++ es.map Entry.item⟩ := by
  induction es generalizing items s with
  | nil =>
    cases hp
    rw [h, List.map_nil, List.append_nil]
  | cons e es ih =>
    unfold putEntries at hp
    obtain ⟨_, s₁, he, hes⟩ := Session.bind_eq_ok hp
    have h₁ := putEntry_spec K e h he
    rw [ih h₁ hes, List.map_cons, List.append_assoc, List.singleton_append]

theorem buildArchive_spec (b : Builder) {archive : Bytes} {s t : σ} (h : b.buildArchive A s = (.ok archive, t)) :
    K.Holds .cpio archive (b.entries.map Entry.item) := by
  unfold buildArchive at h
  obtain ⟨_, s₁, hc, h⟩ := Session.bind_eq_ok h
  obtain ⟨_, s₂, hp, ht⟩ := Session.bind_eq_ok h
  have h₂ := putEntries_spec K b.entries (K.createMemory hc) hp
  rw [List.nil_append] at h₂
  exact K.take h₂ Entry.sized_items ht

/-- The payload is what the chunk stream makes of the inner archive. -/
theorem buildPayload_eq_ok {b : Builder} {codec : Stream.Codec} {payload : Bytes} {s t : σ}
    (h : b.buildPayload A codec s = (.ok payload, t)) :
    ∃ archive, b.buildArchive A s = (.ok archive, t) ∧ payload = Stream.compress codec archive := by
  unfold buildPayload at h
  obtain ⟨archive, s₁, ha, h⟩ := Session.bind_eq_ok h
  cases h
  exact ⟨archive, ha, rfl⟩

/-! ## (2) The package -/

/-- After the payload was put: what the writer has, and what is in the file if it writes to one. -/
theorem putPayload_spec (now : Int) (payload : Bytes) {p : Option String} {s t : σ}
    (h : K.draft .xar s = some ⟨p, []⟩) (hp : putPayload A now payload s = (.ok (), t)) :
    K.draft .xar t = some ⟨p, [payloadItem now payload]⟩ ∧
      ∀ path, p = some path → ∃ b, K.file path t = some b ∧ K.Holds .xar b [payloadItem now payload] := by
  unfold putPayload at hp
  obtain ⟨_, s₁, hh, hp⟩ := Session.bind_eq_ok hp
  obtain ⟨_, s₂, hd, hf⟩ := Session.bind_eq_ok hp
  have h₁ : K.draft .xar s₁ = some ⟨p, [] ++ [⟨payloadHeader now payload, []⟩]⟩ := K.header h hh
  have h₂ : K.draft .xar s₂ = some ⟨p, [] ++ [payloadItem now payload]⟩ := K.data h₁ hd
  refine ⟨K.finish h₂ hf, ?_⟩
  rintro path rfl
  refine K.finish_file h₂ ?_ hf
  intro i hi
  rw [List.mem_singleton.mp hi]
  exact sized_payloadItem now payload

variable {b : Builder} {codec : Stream.Codec} {now : Int}

theorem write_spec {path : String} {s t : σ} (h : b.write A codec now path s = (.ok (), t)) :
    ∃ archive s₁, b.buildArchive A s = (.ok archive, s₁) ∧
      ∃ package, K.file path t = some package ∧ K.Holds .xar package [payloadItem now (Stream.compress codec archive)] := by
  unfold write at h
  obtain ⟨payload, s₁, hb, h⟩ := Session.bind_eq_ok h
  obtain ⟨_, s₂, hc, hp⟩ := Session.bind_eq_ok h
  obtain ⟨archive, ha, rfl⟩ := buildPayload_eq_ok hb
  obtain ⟨package, hf, hh⟩ := (putPayload_spec K now _ (K.createFile hc) hp).2 path rfl
  exact ⟨archive, s₁, ha, package, hf, hh⟩

theorem toBytes_spec {package : Bytes} {s t : σ} (h : b.toBytes A codec now s = (.ok package, t)) :
    ∃ archive s₁, b.buildArchive A s = (.ok archive, s₁) ∧
      K.Holds .xar package [payloadItem now (Stream.compress codec archive)] := by
  unfold toBytes at h
  obtain ⟨payload, s₁, hb, h⟩ := Session.bind_eq_ok h
  obtain ⟨_, s₂, hc, h⟩ := Session.bind_eq_ok h
  obtain ⟨_, s₃, hp, ht⟩ := Session.bind_eq_ok h
  obtain ⟨archive, ha, rfl⟩ := buildPayload_eq_ok hb
  have hd := (putPayload_spec K now _ (K.createMemory hc) hp).1
  refine ⟨archive, s₁, ha, K.take hd ?_ ht⟩
  intro i hi
  rw [List.mem_singleton.mp hi]
  exact sized_payloadItem now _

end Builder

end FlatPackage.Package
