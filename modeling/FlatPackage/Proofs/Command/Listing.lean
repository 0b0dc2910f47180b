/-
  FlatPackage.Proofs.Command.Listing — what a listing prints, and where it is broken off.

  A listing takes the entries as the inner container gives them (`Gives`): it passes over each
  body, by reading it for the digest or by skipping it (`Passes`), until the entries end, or the next
  one cannot be had, or a body cannot be passed over (`Ending`). Nothing is assumed of the
  container for this. That a listing with digests and one without go through the same entries is
  the container's doing, and needs that it has the same entries either way (`Offers`).

  Proved:
  (1) `exists_gives`, `gives_of_place`: every container gives some entries and they end; one whose library
      keeps its contract gives what the archive holds.
  (2) `listEntries_of_gives`: by induction on the entries, each adds its line and leaves the settings of the
      output plain.
  (3) `list_of_unlocated`, `list_of_undecoded`, `list_of_ended`, `list_of_failed`: the ways the command ends.
  (4) `Offers.through`, `Through.alike`: with digests and without, the lines agree up to the digests.
  (5) `opens_rehearsed`: a package that the library can be asked for.
  (6) `a_line_for_each_entry`: all this of a command line, and how many lines that makes.
  Trace: a listing whose third entry cannot be skipped (`a_listing_broken_off`), and one of an entry whose
  path has a line end in it (`a_name_on_two_lines`).
-/

import FlatPackage.Host.Setup
import FlatPackage.Proofs.Command.Lines
import FlatPackage.Proofs.Command.Performing
import FlatPackage.Proofs.Container.Contract
import FlatPackage.Proofs.Package.Payload

namespace FlatPackage.Command

open Container (Archive Contract Header Item Rehearsal)
open Container.Session (bind_of_error bind_of_ok)
open Line (begun front line suffix wantsDigest Fragment)
open Package (Reader.extractPayload Reader.findPayload Reader.findPayload_of_named Reader.openPayload)

variable {σ : Type} {A : Archive σ} {codec : Stream.Codec} {sum : Bytes → String} {digest : Bool}

/-! ## (1) What the container gives -/

/-- An entry's body is passed over: it is read, or it is skipped and may be any. -/
inductive Passes (A : Archive σ) (digest : Bool) (h : Header) (s : σ) : Except Fault Bytes → σ → Prop
  | read {r : Except Fault Bytes} {t : σ} : wantsDigest digest h = true → A.answer (.readAll .cpio) s = (r, t) →
      Passes A digest h s r t
  | skip {r : Except Fault Unit} {t : σ} (body : Bytes) : wantsDigest digest h = false →
      A.answer (.skip .cpio) s = (r, t) → Passes A digest h s (r.map fun _ => body) t

/-- How the entries end. -/
inductive Ending where
  | ended
  /-- There is no telling what the next entry is. -/
  | lost (f : Fault)
  /-- An entry's body cannot be passed over. -/
  | stuck (h : Header) (f : Fault)
  deriving DecidableEq, Repr

/-- The entries that the inner container gives to a listing, and how they end. -/
inductive Gives (A : Archive σ) (digest : Bool) : σ → List Item → Ending → σ → Prop
  | ended {s t : σ} : A.answer (.next .cpio) s = (.ok none, t) → Gives A digest s [] .ended t
  | lost {s t : σ} {f : Fault} : A.answer (.next .cpio) s = (.error f, t) → Gives A digest s [] (.lost f) t
  | stuck {s t u : σ} {h : Header} {f : Fault} : A.answer (.next .cpio) s = (.ok (some h), t) →
      Passes A digest h t (.error f) u → Gives A digest s [] (.stuck h f) u
  | entry {s t u v : σ} {i : Item} {items : List Item} {e : Ending} :
      A.answer (.next .cpio) s = (.ok (some i.header), t) → Passes A digest i.header t (.ok i.body) u →
      Gives A digest u items e v → Gives A digest s (i :: items) e v

theorem exists_passes (A : Archive σ) (digest : Bool) (h : Header) (s : σ) :
    ∃ r t, Passes A digest h s r t ∧ A.left .cpio t ≤ A.left .cpio s := by
  cases hw : wantsDigest digest h with
  | true => exact ⟨_, _, .read hw rfl, A.left_body rfl⟩
  | false => exact ⟨_, _, .skip [] hw rfl, A.left_body rfl⟩

/-- Every container gives some entries, and they end. -/
theorem exists_gives {n : Nat} {s : σ} (hn : A.left .cpio s < n) (digest : Bool) :
    ∃ items e t, Gives A digest s items e t := by
  induction n generalizing s with
  | zero => exact absurd hn (Nat.not_lt_zero _)
  | succ n ih =>
    rcases ha : A.answer (.next .cpio) s with ⟨f | _ | h, t⟩
    · exact ⟨_, _, _, .lost ha⟩
    · exact ⟨_, _, _, .ended ha⟩
    · have hless : A.left .cpio t < A.left .cpio s := A.left_next ha
      obtain ⟨f | body, u, hp, hu⟩ := exists_passes A digest h t
      · exact ⟨_, _, _, .stuck ha hp⟩
      · obtain ⟨items, e, v, hg⟩ := ih (s := u) (by omega)
        exact ⟨⟨h, body⟩ :: items, e, v, .entry ha hp hg⟩

/-- A library that keeps its contract gives what the archive holds. -/
theorem gives_of_place (K : Contract A) {items : List Item} {b : Option Bytes} {s : σ}
    (h : K.place .cpio s = some ⟨items, b⟩) (digest : Bool) : ∃ t, Gives A digest s items .ended t := by
  induction items generalizing s b with
  | nil =>
    obtain ⟨t, ha, -⟩ := K.next_end h
    exact ⟨t, .ended ha⟩
  | cons i items ih =>
    obtain ⟨t, ha, ht⟩ := K.next_entry h
    cases hw : wantsDigest digest i.header with
    | true =>
      obtain ⟨u, hr, hu⟩ := K.readAll ht
      obtain ⟨v, hg⟩ := ih hu
      exact ⟨v, .entry ha (.read hw hr) hg⟩
    | false =>
      obtain ⟨u, hr, hu⟩ := K.skip ht
      obtain ⟨v, hg⟩ := ih hu
      exact ⟨v, .entry ha (.skip i.body hw hr) hg⟩

/-! ## (2) The loop -/

def lines (sum : Bytes → String) (digest : Bool) (items : List Item) : String :=
  String.join (items.map (line sum digest))

/-- As many lines as there are entries, if no line ends in a name. -/
theorem count_lines (hsum : ∀ body, '\n' ∉ (sum body).toList) {items : List Item}
    (hitems : ∀ i ∈ items, Line.OneLine i.header) : (lines sum digest items).toList.count '\n' = items.length := by
  induction items with
  | nil => rfl
  | cons i items ih =>
    have hcons : lines sum digest (i :: items) = line sum digest i ++ lines sum digest items := by
      simp [lines]
    have hrest := ih fun j hj => hitems j (List.mem_cons_of_mem _ hj)
    rw [hcons, String.toList_append, List.count_append, hrest, Line.count_line hsum digest (hitems i List.mem_cons_self),
      List.length_cons, Nat.add_comm]

/-- What is printed after the last whole line. -/
def Ending.tail (digest : Bool) : Ending → String
  | .ended => ""
  | .lost _ => ""
  | .stuck h _ => begun digest h

/-- What the loop comes to, after so many entries. -/
def Ending.result (count : Nat) : Ending → Except Fault Nat
  | .ended => .ok count
  | .lost f => .error f
  | .stuck _ f => .error f

theorem passBody_of_error {h : Header} {s t : σ} {f : Fault} (hp : Passes A digest h s (.error f) t) :
    passBody A sum (wantsDigest digest h) s = (.error f, t) := by
  generalize hr : (Except.error f : Except Fault Bytes) = r at hp
  cases hp with
  | read hw ha =>
    rw [passBody, if_pos hw, ha, ← hr]
    rfl
  | @skip r _ _ hw ha =>
    cases r with
    | ok _ => cases hr
    | error g =>
      cases hr
      rw [passBody, if_neg (by simp [hw]), ha]
      rfl

/-- The rest of a line is printed. -/
theorem passBody_of_ok (sum : Bytes → String) {i : Item} {s t : σ} (hp : Passes A digest i.header s (.ok i.body) t) :
    ∃ rest back, passBody A sum (wantsDigest digest i.header) s = (.ok rest, t) ∧
      Layout.plain.print rest = (back, .plain) ∧ begun digest i.header ++ back = line sum digest i := by
  generalize hr : (Except.ok i.body : Except Fault Bytes) = r at hp
  cases hp with
  | read hw ha =>
    refine ⟨_, _, ?_, Line.print_rest (sum i.body), ?_⟩
    · rw [passBody, if_pos hw, ha, ← hr]
      rfl
    · simp only [begun, line, suffix, if_pos hw, String.append_assoc]
  | @skip r _ _ hw ha =>
    cases r with
    | error g => cases hr
    | ok _ =>
      refine ⟨_, _, ?_, Line.print_end, ?_⟩
      · rw [passBody, if_neg (by simp [hw]), ha]
        rfl
      · simp [begun, line, suffix, hw]

theorem listEntries_step (layout : Layout) (n : Nat) (w : World σ) :
    listEntries A sum digest layout n w =
      match A.answer (.next .cpio) w.archive with
      | (.error f, s) => (.error f, { w with archive := s })
      | (.ok none, s) => (.ok n, { w with archive := s })
      | (.ok (some h), s) =>
        match passBody A sum (Line.wantsDigest digest h) s with
        | (.error f, t) => (.error f, { w with archive := t, out := w.out ++ (layout.print (Line.start digest h)).1 })
        | (.ok rest, t) =>
          let front := layout.print (Line.start digest h)
          let back := front.2.print rest
          listEntries A sum digest back.2 (n + 1) { w with archive := t, out := w.out ++ front.1 ++ back.1 } := by
  rw [listEntries]
  split
  · simp_all
  · simp_all
  · rename_i ha
    simp only [ha]
    split
    · rename_i hp
      simp only [hp]
    · rename_i hp
      simp only [hp]

section

variable {w : World σ} {s t u : σ} {n : Nat}

theorem listEntries_ended (ha : A.answer (.next .cpio) w.archive = (.ok none, t)) :
    listEntries A sum digest .plain n w = (.ok n, { w with archive := t }) := by
  rw [listEntries_step, ha]

theorem listEntries_lost {f : Fault} (ha : A.answer (.next .cpio) w.archive = (.error f, t)) :
    listEntries A sum digest .plain n w = (.error f, { w with archive := t }) := by
  rw [listEntries_step, ha]

theorem listEntries_stuck {h : Header} {f : Fault} (ha : A.answer (.next .cpio) w.archive = (.ok (some h), t))
    (hp : Passes A digest h t (.error f) u) :
    listEntries A sum digest .plain n w = (.error f, { w with archive := u, out := w.out ++ begun digest h }) := by
  simp only [listEntries_step, ha, passBody_of_error hp, Line.print_start]

/-- One entry adds its line, and the settings are plain again. -/
theorem listEntries_entry {i : Item} (ha : A.answer (.next .cpio) w.archive = (.ok (some i.header), t))
    (hp : Passes A digest i.header t (.ok i.body) u) :
    listEntries A sum digest .plain n w =
      listEntries A sum digest .plain (n + 1) { w with archive := u, out := w.out ++ line sum digest i } := by
  obtain ⟨rest, back, hpass, hprint, hline⟩ := passBody_of_ok sum hp
  rw [listEntries_step, ha]
  simp only [hpass, Line.print_start, hprint]
  rw [← hline, String.append_assoc]

end

/-- The listing of what the container gives: a line for each entry, in order, and what of a last line was
    begun. -/
theorem listEntries_of_gives (sum : Bytes → String) {items : List Item} {e : Ending} {w : World σ} {t : σ}
    (h : Gives A digest w.archive items e t) (n : Nat) :
    listEntries A sum digest .plain n w =
      (e.result (n + items.length),
        { w with archive := t, out := w.out ++ lines sum digest items ++ e.tail digest }) := by
  generalize hs : w.archive = s at h
  induction h generalizing w n with
  | ended ha =>
    subst hs
    rw [listEntries_ended ha]
    simp [lines, Ending.tail, Ending.result]
  | lost ha =>
    subst hs
    rw [listEntries_lost ha]
    simp [lines, Ending.tail, Ending.result]
  | stuck ha hp =>
    subst hs
    rw [listEntries_stuck ha hp]
    simp [lines, Ending.tail, Ending.result]
  | entry ha hp _ ih =>
    subst hs
    rw [listEntries_entry ha hp, ih (n + 1) rfl]
    simp [lines, String.append_assoc, Nat.add_assoc, Nat.add_comm 1]

/-! ## (3) The command -/

/-- How a command's end is reported. -/
def exit (r : Except Fault Unit × World σ) : Nat × World σ :=
  match r with
  | (.ok (), w) => (0, w)
  | (.error f, w) => (1, { w with err := w.err ++ f.report })

/-- What is noted only if it was asked for. -/
def remark (o : Options) (s : String) : String := if o.verbose then s else ""

def payloadRemark (o : Options) (payload : Bytes) : String :=
  remark o ("payload: " ++ toString payload.length ++ " bytes\n")

def countRemark (o : Options) (n : Nat) : String := remark o ("entries: " ++ toString n ++ "\n")

theorem noted {α : Type} (o : Options) (s : String) (next : Unit → Run σ α) (w : World σ) :
    (if o.verbose then Run.note s >>= next else next ()) w = next () { w with err := w.err ++ remark o s } := by
  unfold remark
  split
  · exact bind_of_ok rfl
  · rw [String.append_empty]

theorem note_eq (o : Options) (s : String) (w : World σ) :
    (if o.verbose then Run.note s else pure () : Run σ Unit) w = (.ok (), { w with err := w.err ++ remark o s }) := by
  unfold remark
  split
  · rfl
  · rw [String.append_empty]
    rfl

/-- The package at the input is open: its payload, and the state of the library from then on. -/
def Opens (A : Archive σ) (codec : Stream.Codec) (o : Options) (s : σ) (payload : Bytes) (t : σ) : Prop :=
  ∃ s', Reader.extractPayload A o.input s = (.ok payload, s') ∧ Reader.openPayload A codec payload s' = (.ok (), t)

section

variable {o : Options} {w : World σ} {payload : Bytes} {s t u : σ} {f : Fault} {items : List Item} {e : Ending}

theorem calls_eq {α : Type} {x : Container.Session σ α} {r : Except Fault α} (h : x w.archive = (r, t)) :
    Run.calls x w = (r, { w with archive := t }) := by
  rw [Run.calls, h]

theorem list_of_unlocated (h : Reader.extractPayload A o.input w.archive = (.error f, s)) :
    list A codec sum o w = (.error f, { w with archive := s }) :=
  bind_of_error (calls_eq h)

theorem list_of_undecoded (h : Reader.extractPayload A o.input w.archive = (.ok payload, s))
    (h' : Reader.openPayload A codec payload s = (.error f, t)) :
    list A codec sum o w = (.error f, { w with archive := t, err := w.err ++ payloadRemark o payload }) := by
  refine (bind_of_ok (calls_eq h)).trans ((noted o _ (fun _ => _) _).trans ?_)
  exact bind_of_error (calls_eq h')

/-- What is left is the loop and the remark behind it. -/
theorem list_of_opens (ho : Opens A codec o w.archive payload t) :
    list A codec sum o w =
      ((listEntries A sum o.digest .plain 0 : Run σ Nat) >>= fun count =>
        if o.verbose then Run.note ("entries: " ++ toString count ++ "\n") else pure ())
        { w with archive := t, err := w.err ++ payloadRemark o payload } := by
  obtain ⟨s, h, h'⟩ := ho
  refine (bind_of_ok (calls_eq h)).trans ((noted o _ (fun _ => _) _).trans ?_)
  exact bind_of_ok (calls_eq h')

theorem list_of_ended (ho : Opens A codec o w.archive payload t) (hg : Gives A o.digest t items .ended u) :
    list A codec sum o w = (.ok (), { w with
      archive := u
      out := w.out ++ lines sum o.digest items
      err := w.err ++ payloadRemark o payload ++ countRemark o items.length }) := by
  have hloop := listEntries_of_gives sum (w := { w with archive := t, err := w.err ++ payloadRemark o payload }) hg 0
  refine (list_of_opens ho).trans ((bind_of_ok hloop).trans ((note_eq o _ _).trans ?_))
  simp [countRemark, Ending.tail]

theorem list_of_failed (ho : Opens A codec o w.archive payload t) (hg : Gives A o.digest t items e u)
    (he : ∀ n, e.result n = .error f) :
    list A codec sum o w = (.error f, { w with
      archive := u
      out := w.out ++ lines sum o.digest items ++ e.tail o.digest
      err := w.err ++ payloadRemark o payload }) := by
  have hloop := listEntries_of_gives sum (w := { w with archive := t, err := w.err ++ payloadRemark o payload }) hg 0
  rw [he] at hloop
  exact (list_of_opens ho).trans (bind_of_error hloop)

end

/-! ## (4) With digests and without -/

/-- An entry of the inner container: what comes of reading its body, and what of skipping it. -/
structure Offer where
  header : Header
  body : Except Fault Bytes
  skipped : Except Fault Unit

/-- The inner container has these entries, and they end in this way, whether bodies are read or skipped. -/
inductive Offers (A : Archive σ) (e : Ending) : σ → List Offer → Prop
  | ended {s t : σ} : A.answer (.next .cpio) s = (.ok none, t) → e = .ended → Offers A e s []
  | lost {s t : σ} {f : Fault} : A.answer (.next .cpio) s = (.error f, t) → e = .lost f → Offers A e s []
  | entry {s t u v : σ} {x : Offer} {rest : List Offer} : A.answer (.next .cpio) s = (.ok (some x.header), t) →
      A.answer (.readAll .cpio) t = (x.body, u) → A.answer (.skip .cpio) t = (x.skipped, v) →
      (∀ body, x.body = .ok body → Offers A e u rest) → (∀ a, x.skipped = .ok a → Offers A e v rest) →
      Offers A e s (x :: rest)

/-- What holds after the body was read and after it was skipped holds after it was passed over. -/
theorem Passes.after {P : σ → Prop} {h : Header} {s t u v : σ} {body : Bytes} {read : Except Fault Bytes}
    {skipped : Except Fault Unit} (hp : Passes A digest h s (.ok body) t)
    (hr : A.answer (.readAll .cpio) s = (read, u)) (hs : A.answer (.skip .cpio) s = (skipped, v))
    (hread : ∀ body, read = .ok body → P u) (hskip : ∀ a, skipped = .ok a → P v) : P t := by
  generalize ho : (Except.ok body : Except Fault Bytes) = r at hp
  cases hp with
  | read hw ha =>
    cases hr.symm.trans ha
    exact hread body ho.symm
  | @skip r _ _ hw ha =>
    cases hs.symm.trans ha
    cases hx : skipped with
    | error f =>
      rw [hx] at ho
      cases ho
    | ok a => exact hskip a hx

/-- A listing went through the entries there are, and to their end unless a body could not be passed over. -/
structure Through (offers : List Offer) (e : Ending) (items : List Item) (e' : Ending) : Prop where
  headers : items.map Item.header <+: offers.map Offer.header
  whole : (∀ h f, e' ≠ .stuck h f) → items.map Item.header = offers.map Offer.header ∧ e' = e

theorem Offers.through {e e' : Ending} {s t : σ} {offers : List Offer} {items : List Item} (h : Offers A e s offers)
    (hg : Gives A digest s items e' t) : Through offers e items e' := by
  induction h generalizing items t with
  | ended ha he =>
    cases hg with
    | ended ha' => exact ⟨List.nil_prefix, fun _ => ⟨rfl, he.symm⟩⟩
    | lost ha' => cases ha.symm.trans ha'
    | stuck ha' hp => cases ha.symm.trans ha'
    | entry ha' hp hg => cases ha.symm.trans ha'
  | lost ha he =>
    cases hg with
    | ended ha' => cases ha.symm.trans ha'
    | lost ha' =>
      cases ha.symm.trans ha'
      exact ⟨List.nil_prefix, fun _ => ⟨rfl, he.symm⟩⟩
    | stuck ha' hp => cases ha.symm.trans ha'
    | entry ha' hp hg => cases ha.symm.trans ha'
  | @entry s t u v x rest ha hr hs hread hskip ihread ihskip =>
    cases hg with
    | ended ha' => cases ha.symm.trans ha'
    | lost ha' => cases ha.symm.trans ha'
    | stuck ha' hp => exact ⟨List.nil_prefix, fun hne => absurd rfl (hne _ _)⟩
    | @entry _ _ _ _ i items _ ha' hp hg =>
      obtain ⟨hhead, rfl⟩ := Prod.mk.inj (ha.symm.trans ha')
      have hhead : x.header = i.header := Option.some.inj (Except.ok.inj hhead)
      have hrest := hp.after (P := fun s => ∀ items t, Gives A digest s items e' t → Through rest e items e') hr hs
        (fun b hb _ _ hg => ihread b hb hg) (fun a ha _ _ hg => ihskip a ha hg) _ _ hg
      refine ⟨?_, fun hne => ?_⟩
      · rw [List.map_cons, List.map_cons, hhead]
        exact (List.prefix_cons_inj _).mpr hrest.headers
      · obtain ⟨hsame, he⟩ := hrest.whole hne
        rw [List.map_cons, List.map_cons, hhead, hsame]
        exact ⟨rfl, he⟩

/-- The lines of two listings, of which one was to have digests, agree up to the digests. -/
structure Alike (sum : Bytes → String) (items : List Item) (e : Ending) (items' : List Item) (e' : Ending) : Prop where
  lines : ∀ (k : Nat) i i', items[k]? = some i → items'[k]? = some i' →
    ∃ shared, line sum true i = shared ++ suffix sum true i ++ "\n" ∧ line sum false i' = shared ++ "\n"
  whole : (∀ h f, e ≠ .stuck h f) → (∀ h f, e' ≠ .stuck h f) → items.length = items'.length ∧ e = e'

theorem getElem?_of_headers {items : List Item} {offers : List Offer} {k : Nat} {i : Item}
    (h : items.map Item.header <+: offers.map Offer.header) (hi : items[k]? = some i) :
    (offers.map Offer.header)[k]? = some i.header := by
  have hk : (items.map Item.header)[k]? = some i.header := by
    rw [List.getElem?_map, hi]
    rfl
  obtain ⟨hlt, hk⟩ := List.getElem?_eq_some_iff.mp hk
  rw [List.prefix_iff_getElem?.mp h k hlt, hk]

theorem Through.alike {offers : List Offer} {e e₁ e₂ : Ending} {items items' : List Item}
    (h : Through offers e items e₁) (h' : Through offers e items' e₂) : Alike sum items e₁ items' e₂ where
  lines k i i' hi hi' := by
    have hsame : i.header = i'.header :=
      Option.some.inj ((getElem?_of_headers h.headers hi).symm.trans (getElem?_of_headers h'.headers hi'))
    refine ⟨front i.header, rfl, ?_⟩
    rw [hsame, line, suffix]
    simp [wantsDigest]
  whole hne hne' := by
    obtain ⟨hs, he⟩ := h.whole hne
    obtain ⟨hs', he'⟩ := h'.whole hne'
    have hlen := congrArg List.length (hs.trans hs'.symm)
    rw [List.length_map, List.length_map] at hlen
    exact ⟨hlen, he.trans he'.symm⟩

/-! ## (5) A package to list -/

/-- A payload with a chunk in it that is stored as it is. -/
def stored : Item := ⟨⟨"Payload", .file, 0, 0o644, 0, ""⟩, Stream.ofChunks 4 [⟨0, [1, 2]⟩] []⟩

/-- A package of these entries, of which the library cannot skip the one with this number. -/
def rehearsed (entries : List Item) (nth : Nat) : Rehearsal :=
  Rehearsal.prepare ⟨[stored], entries⟩ ⟨[], []⟩ (some ⟨.skip, .cpio, nth, "no more"⟩)

/-- The library once the payload was found. -/
def located (entries : List Item) (nth : Nat) : Rehearsal :=
  (Rehearsal.archive.answer (.readAll .xar) (Rehearsal.archive.answer (.next .xar)
    (Rehearsal.archive.answer (.openFile .xar "a.pkg") (rehearsed entries nth)).2).2).2

/-- The library once the payload was decoded, with the entries still to come. -/
def unpacked (entries : List Item) (nth : Nat) : Rehearsal :=
  (Rehearsal.archive.answer (.openMemory .cpio [1, 2]) (located entries nth)).2

theorem opens_rehearsed (entries : List Item) (nth : Nat) (digest verbose : Bool) :
    Opens Rehearsal.archive ⟨id, fun x => .ok x⟩ ⟨"a.pkg", "", Stream.defaultChunkSize, digest, verbose⟩
      (rehearsed entries nth) stored.body (unpacked entries nth) := by
  have hdecode : Stream.decode ⟨id, fun x => .ok x⟩ stored.body = .ok [1, 2] := by decide +kernel
  have hfound : Reader.findPayload Rehearsal.archive
      (Rehearsal.archive.answer (.openFile .xar "a.pkg") (rehearsed entries nth)).2 =
        (.ok stored.body, located entries nth) :=
    (Reader.findPayload_of_named (h := stored.header) (by decide) rfl).trans rfl
  refine ⟨located entries nth, (bind_of_ok rfl).trans hfound, ?_⟩
  rw [Reader.openPayload, hdecode]
  rfl

/-! ## (6) Listings -/

/-- What becomes of a listing, by whether digests are wanted. -/
structure Listing (A : Archive σ) (codec : Stream.Codec) (sum : Bytes → String) (o : Options) (w : World σ)
    (result : Bool → Nat × World σ) : Prop where
  /-- Without a payload nothing is printed. -/
  unlocated : ∀ d f s, Reader.extractPayload A o.input w.archive = (.error f, s) →
    result d = (1, { w with archive := s, err := w.err ++ f.report })
  undecoded : ∀ d payload s f t, Reader.extractPayload A o.input w.archive = (.ok payload, s) →
    Reader.openPayload A codec payload s = (.error f, t) →
    result d = (1, { w with archive := t, err := w.err ++ payloadRemark o payload ++ f.report })
  gives : ∀ d payload t, Opens A codec o w.archive payload t → ∃ items e u, Gives A d t items e u
  /-- There is a line for each entry. -/
  ended : ∀ d payload t items u, Opens A codec o w.archive payload t → Gives A d t items .ended u →
    result d = (0, { w with
      archive := u
      out := w.out ++ lines sum d items
      err := w.err ++ payloadRemark o payload ++ countRemark o items.length })
  /-- There is a line for each entry so far, and nothing else. -/
  lost : ∀ d payload t items f u, Opens A codec o w.archive payload t → Gives A d t items (.lost f) u →
    result d = (1, { w with
      archive := u
      out := w.out ++ lines sum d items
      err := w.err ++ payloadRemark o payload ++ f.report })
  /-- The line of the entry whose body could not be passed over is broken off. -/
  stuck : ∀ d payload t items h f u, Opens A codec o w.archive payload t → Gives A d t items (.stuck h f) u →
    Fragment sum d h (begun d h) ∧ result d = (1, { w with
      archive := u
      out := w.out ++ lines sum d items ++ begun d h
      err := w.err ++ payloadRemark o payload ++ f.report })
  /-- A library that keeps its contract has what the archive holds listed. -/
  holds : ∀ d payload t (K : Contract A) items b, Opens A codec o w.archive payload t →
    K.place .cpio t = some ⟨items, b⟩ → ∃ u, result d = (0, { w with
      archive := u
      out := w.out ++ lines sum d items
      err := w.err ++ payloadRemark o payload ++ countRemark o items.length })
  alike : ∀ payload t e offers items e₁ u₁ items' e₂ u₂, Opens A codec o w.archive payload t → Offers A e t offers →
    Gives A true t items e₁ u₁ → Gives A false t items' e₂ u₂ → Alike sum items e₁ items' e₂

theorem listing (A : Archive σ) (codec : Stream.Codec) (sum : Bytes → String) (o : Options) (w : World σ) :
    Listing A codec sum o w fun d => exit (list A codec sum { o with digest := d } w) where
  unlocated d f s h := by
    rw [list_of_unlocated (o := { o with digest := d }) h]
    rfl
  undecoded d payload s f t h h' := by
    rw [list_of_undecoded (o := { o with digest := d }) h h']
    rfl
  gives d payload t _ := exists_gives (Nat.lt_succ_self _) d
  ended d payload t items u ho hg := by
    rw [list_of_ended (o := { o with digest := d }) ho hg]
    rfl
  lost d payload t items f u ho hg := by
    rw [list_of_failed (o := { o with digest := d }) ho hg fun _ => rfl, Ending.tail, String.append_empty]
    rfl
  stuck d payload t items h f u ho hg := by
    rw [list_of_failed (o := { o with digest := d }) ho hg fun _ => rfl]
    exact ⟨Line.fragment_begun sum d _, rfl⟩
  holds d payload t K items b ho hk := by
    obtain ⟨u, hg⟩ := gives_of_place K hk d
    rw [list_of_ended (o := { o with digest := d }) ho hg]
    exact ⟨u, rfl⟩
  alike payload t e offers items e₁ u₁ items' e₂ u₂ _ hoffers hg hg' :=
    (hoffers.through hg).alike (hoffers.through hg')

theorem run_eq_exit {words : List String} {o : Options} (hread : read words = .ok (.act .list o)) (w : World σ) :
    run A codec words w = exit (list A codec Checksum.Sha256.hexDigest o w) := by
  rw [run, perform_eq hread]
  rfl

/-- For every container library in any state, every codec and every command line for `list`, with any function
    in the place of the digest: a line for each entry, in order, as far as the entries can be had. Paths and
    targets are printed as they are, so the text of an entry is one line exactly if no line ends in these. -/
theorem a_line_for_each_entry (A : Archive σ) (codec : Stream.Codec) (o : Options) (w : World σ) :
    (∀ words d, read words = .ok (.act .list { o with digest := d }) →
      run A codec words w = exit (list A codec Checksum.Sha256.hexDigest { o with digest := d } w)) ∧
    (∀ sum, Listing A codec sum o w fun d => exit (list A codec sum { o with digest := d } w)) ∧
    (∀ body, '\n' ∉ (Checksum.Sha256.hexDigest body).toList) ∧
    ∀ sum : Bytes → String, (∀ body, '\n' ∉ (sum body).toList) → ∀ d,
      (∀ i, ∃ s, line sum d i = s ++ "\n" ∧ ('\n' ∉ s.toList ↔ Line.OneLine i.header)) ∧
      ∀ items : List Item, (∀ i ∈ items, Line.OneLine i.header) →
        (lines sum d items).toList.count '\n' = items.length :=
  ⟨fun _ _ hread => run_eq_exit hread w, fun sum => listing A codec sum o w, fun _ => Line.newline_not_mem_hex _,
    fun _ hsum d => ⟨Line.line_ended hsum d, fun _ hitems => count_lines hsum hitems⟩⟩

/-- Two entries are listed, with sizes and permissions wider than their columns; the body of the third cannot
    be skipped. -/
theorem a_listing_broken_off :
    let codec : Stream.Codec := ⟨id, fun x => .ok x⟩
    let shell : Item := ⟨⟨"bin/sh", .file, 12345678901, 0o100755, 0, ""⟩, [7]⟩
    let link : Item := ⟨⟨"sh", .symlink, 0, 0o777, 0, "bin/sh"⟩, []⟩
    let etc : Item := ⟨⟨"etc", .directory, 0, 0o755, 0, ""⟩, []⟩
    let w : World Rehearsal := ⟨.bare ["here"] ⟨0, 7⟩, rehearsed [shell, link, etc] 1, "", ""⟩
    let words := ["list", "-i", "a.pkg", "--digest"]
    read words = .ok (.act .list ⟨"a.pkg", "", Stream.defaultChunkSize, true, false⟩) ∧
      ∃ u, run Rehearsal.archive codec words w = (1, { w with
        archive := u
        out := lines Checksum.Sha256.hexDigest true [shell, link] ++ begun true etc.header
        err := "Error (container error): no more\n" }) := by
  intro codec shell link etc w words
  let o : Options := ⟨"a.pkg", "", Stream.defaultChunkSize, true, false⟩
  have hread : read words = .ok (.act .list o) := by rfl
  obtain ⟨hrun, hlists, -⟩ := a_line_for_each_entry Rehearsal.archive codec o w
  have hgives : ∃ u, Gives Rehearsal.archive true (unpacked [shell, link, etc] 1) [shell, link]
      (.stuck etc.header (.container "no more")) u :=
    ⟨_, .entry rfl (.read rfl rfl) (.entry rfl (.skip [] rfl rfl) (.stuck rfl (.skip [] rfl rfl)))⟩
  obtain ⟨u, hgives⟩ := hgives
  refine ⟨hread, u, ?_⟩
  rw [hrun words true hread]
  exact ((hlists _).stuck true _ _ _ _ _ _ (opens_rehearsed _ 1 true false) hgives).2

/-- The one entry of a package is printed on two lines: its path has a line end in it. -/
theorem a_name_on_two_lines :
    let codec : Stream.Codec := ⟨id, fun x => .ok x⟩
    let split : Item := ⟨⟨"a\nb", .file, 1, 0o644, 0, ""⟩, [7]⟩
    let w : World Rehearsal := ⟨.bare ["here"] ⟨0, 7⟩, rehearsed [split] 1, "", ""⟩
    ∃ u, run Rehearsal.archive codec ["list", "-i", "a.pkg"] w =
      (0, { w with archive := u, out := "f 0644          1 a\nb\n" }) := by
  intro codec split w
  let o : Options := ⟨"a.pkg", "", Stream.defaultChunkSize, false, false⟩
  have hread : read ["list", "-i", "a.pkg"] = .ok (.act .list o) := by rfl
  have hgives : ∃ u, Gives Rehearsal.archive false (unpacked [split] 1) [split] .ended u :=
    ⟨_, .entry rfl (.skip [7] rfl rfl) (.ended rfl)⟩
  obtain ⟨u, hgives⟩ := hgives
  refine ⟨u, ?_⟩
  rw [run_eq_exit hread, list_of_ended (opens_rehearsed _ 1 false false) hgives]
  have hlines : lines Checksum.Sha256.hexDigest false [split] = "f 0644          1 a\nb\n" := by decide
  simp only [exit, o, hlines]
  rfl

end FlatPackage.Command
