/-
  FlatPackage.Proofs.Package.Selection — which entry is taken for the payload.

  A name is the payload's if its last piece is. The search goes from entry to entry and asks for one
  body, that of the first entry with such a name; behind it nothing is asked of the outer container any
  more, and of the bodies before it nothing was asked. All that the search can be told by a container is
  its listing (`Lists`): the entries in order, what reading a body gives where the entry is the present
  one, and whether the end is reached or a fault.

  Proved:
  (1) `isPayloadName_iff`: the names of payloads.
  (2) `exists_lists`, `findPayload_of_named_entry`, `findPayload_of_no_entry`: every container has a
      listing, and what the search makes of it.
  (3) `payload_is_first_of_its_name`: the payload that is extracted and the one that is opened, from a
      path or from memory.
  Trace: near misses, then two payloads (`the_first_of_two_payloads`).
-/

import FlatPackage.Proofs.Package.Opening
import FlatPackage.Proofs.Path.Steps
import FlatPackage.Proofs.Stream.Failure

namespace FlatPackage

open Container (Archive Call Exchange Header Operation Rehearsal Request Session Watched)

/-! ## (1) Names -/

theorem Path.lastPiece_of_not_mem {s : String} (h : '/' ∉ s.toList) : lastPiece s = s := by
  rw [lastPiece, pieces_of_not_mem h, List.getLast?_singleton, Option.getD_some, String.ofList_toList]

theorem Path.lastPiece_append_slash {s : String} {up last : List Char} (hs : s.toList = up ++ '/' :: last)
    (h : '/' ∉ last) : lastPiece s = String.ofList last := by
  rw [lastPiece, hs, pieces_append_slash, pieces_of_not_mem h, List.getLast?_concat, Option.getD_some]

/-- A text is its last piece, or has it behind a slash. -/
theorem Path.eq_lastPiece_or_slash (s : String) :
    s = lastPiece s ∨ ∃ up, s.toList = up ++ '/' :: (lastPiece s).toList := by
  rcases exists_parts s with ⟨hno, -⟩ | ⟨up, slashes, last, hs, hne, hall, hlast, -, -⟩
  · exact .inl (lastPiece_of_not_mem hno).symm
  · rcases List.eq_nil_or_concat slashes with rfl | ⟨front, c, rfl⟩
    · exact absurd rfl hne
    · obtain rfl : c = '/' := hall c (by simp)
      have hsplit : s.toList = (up ++ front) ++ '/' :: last := by rw [hs]; simp
      refine .inr ⟨up ++ front, ?_⟩
      rw [lastPiece_append_slash hsplit hlast, String.toList_ofList, hsplit]

namespace Package

/-- The name itself, or anything that has it behind a slash. -/
theorem isPayloadName_iff_slash (name : String) :
    isPayloadName name = true ↔ name = payloadName ∨ ∃ up, name.toList = up ++ '/' :: payloadName.toList := by
  rw [isPayloadName]
  simp only [Bool.or_eq_true, Bool.and_eq_true, beq_iff_eq, decide_eq_true_eq, String.toList_inj]
  refine or_congr_right ⟨?_, ?_⟩
  · rintro ⟨⟨hlen, hslash⟩, hend⟩
    refine ⟨name.toList.take (name.toList.length - payloadName.toList.length - 1), ?_⟩
    have hcut : name.toList.length - payloadName.toList.length - 1 + 1 = name.toList.length - payloadName.toList.length := by
      omega
    have hdrop := List.drop_eq_getElem?_toList_append
      (l := name.toList) (i := name.toList.length - payloadName.toList.length - 1)
    rw [hslash, hcut, hend] at hdrop
    exact (List.take_append_drop _ _).symm.trans (congrArg _ hdrop)
  · rintro ⟨up, hup⟩
    have hlen : name.toList.length = up.length + 1 + payloadName.toList.length := by
      rw [hup, List.length_append, List.length_cons]
      omega
    have hat : name.toList.length - payloadName.toList.length - 1 = up.length := by omega
    have hfrom : name.toList.length - payloadName.toList.length = up.length + 1 := by omega
    refine ⟨⟨by omega, ?_⟩, ?_⟩
    · rw [hat, hup, List.getElem?_append_right (Nat.le_refl _), Nat.sub_self, List.getElem?_cons_zero]
    · rw [hfrom, hup, ← List.drop_drop]
      simp

theorem isPayloadName_iff (name : String) : isPayloadName name = true ↔ Path.lastPiece name = payloadName := by
  have hno : '/' ∉ payloadName.toList := by decide
  rw [isPayloadName_iff_slash]
  constructor
  · rintro (rfl | ⟨up, hup⟩)
    · exact Path.lastPiece_of_not_mem hno
    · rw [Path.lastPiece_append_slash hup hno, String.ofList_toList]
  · intro hlast
    have hcases := Path.eq_lastPiece_or_slash name
    rwa [hlast] at hcases

namespace Reader

variable {σ α : Type} {A : Archive σ} {s t : σ} {entries before after : List (Header × Except Fault Bytes)}
  {ending : Option Fault} {h : Header} {body : Except Fault Bytes}

/-! ## (2) Listings -/

/-- What the outer container has to give from a state on: its entries, each with what comes of reading its
    body when it is the present one, and the fault that ends them, if it is one. -/
inductive Lists (A : Archive σ) : σ → List (Header × Except Fault Bytes) → Option Fault → Prop
  | ended {s t : σ} : A.answer (.next .xar) s = (.ok none, t) → Lists A s [] none
  | failed {s t : σ} {f : Fault} : A.answer (.next .xar) s = (.error f, t) → Lists A s [] (some f)
  | entry {s t : σ} {h : Header} {rest : List (Header × Except Fault Bytes)} {ending : Option Fault} :
      A.answer (.next .xar) s = (.ok (some h), t) → Lists A t rest ending →
      Lists A s ((h, (A.answer (.readAll .xar) t).1) :: rest) ending

theorem exists_lists (A : Archive σ) (s : σ) : ∃ entries ending, Lists A s entries ending := by
  -- by induction on what is still to come
  induction hn : A.left .xar s using Nat.strongRecOn generalizing s with
  | ind n ih =>
    rcases ha : A.answer (.next .xar) s with ⟨f | _ | h, t⟩
    · exact ⟨[], some f, .failed ha⟩
    · exact ⟨[], none, .ended ha⟩
    · obtain ⟨rest, ending, hrest⟩ := ih _ (hn ▸ A.left_next ha) t rfl
      exact ⟨_, ending, .entry ha hrest⟩

/-- Whatever goes wrong in a container library is reported as a fault of the container. -/
def ContainerFaults (A : Archive σ) : Prop :=
  ∀ {α : Type} (c : Call α) (s : σ) (f : Fault), (A.answer c s).1 = .error f → f.kind? = some .container

theorem Lists.body_fault (hA : ContainerFaults A) (hl : Lists A s entries ending) {f : Fault}
    (hm : (h, .error f) ∈ entries) : f.kind? = some .container := by
  induction hl with
  | ended => cases hm
  | failed => cases hm
  | entry _ _ ih =>
    rcases List.mem_cons.mp hm with he | hm
    · exact hA _ _ f (congrArg Prod.snd he).symm
    · exact ih hm

theorem Lists.ending_fault (hA : ContainerFaults A) {f : Fault} (hl : Lists A s entries (some f)) :
    f.kind? = some .container := by
  generalize he : some f = ending at hl
  induction hl with
  | ended => cases he
  | failed ha =>
    cases he
    exact hA _ _ f (by rw [ha])
  | entry _ _ ih => exact ih he

/-! ### What the search makes of a listing -/

/-- The exchange that moves to an entry. -/
def moved (h : Header) : Exchange := ⟨.next .xar, .ok (.entry (some h))⟩

/-- The exchange behind the last entry. -/
def halted (ending : Option Fault) : Exchange :=
  ⟨.next .xar, match ending with | none => .ok (.entry none) | some f => .error f⟩

/-- Everything up to the body of an entry: opening, moving on, and reading the body. -/
def reading (opening : Request) (before : List (Header × Except Fault Bytes)) (h : Header) (body : Except Fault Bytes) :
    List Exchange :=
  ⟨opening, .ok .nothing⟩ :: (before.map (moved ·.1) ++ [moved h, ⟨.readAll .xar, body.map .bytes⟩])

/-- Everything when no body is read: opening, and moving on to the end. -/
def passing (opening : Request) (entries : List (Header × Except Fault Bytes)) (ending : Option Fault) : List Exchange :=
  ⟨opening, .ok .nothing⟩ :: (entries.map (moved ·.1) ++ [halted ending])

theorem findPayload_of_named_entry {w : Watched σ} (hl : Lists A w.state (before ++ (h, body) :: after) ending)
    (hb : ∀ e ∈ before, isPayloadName e.1.path ≠ true) (hn : isPayloadName h.path = true) :
    ∃ u, findPayload A.watched w =
      (body, ⟨u, w.exchanges ++ (before.map (moved ·.1) ++ [moved h, ⟨.readAll .xar, body.map .bytes⟩])⟩) := by
  induction before generalizing w with
  | nil =>
    cases hl with
    | entry ha _ => exact ⟨_, search_found hn ha rfl⟩
  | cons _ before ih =>
    cases hl with
    | @entry _ t e _ _ ha hrest =>
      obtain ⟨u, hu⟩ := ih (w := ⟨t, w.exchanges ++ [moved e]⟩) hrest fun x hx => hb x (List.mem_cons_of_mem _ hx)
      have hpass := search_passed (hb _ List.mem_cons_self) ha
      refine ⟨u, hpass.trans (hu.trans ?_)⟩
      rw [List.append_assoc]
      rfl

theorem findPayload_of_no_entry {w : Watched σ} (hl : Lists A w.state entries ending)
    (hb : ∀ e ∈ entries, isPayloadName e.1.path ≠ true) :
    ∃ u, findPayload A.watched w =
      (.error (ending.getD .noPayload), ⟨u, w.exchanges ++ (entries.map (moved ·.1) ++ [halted ending])⟩) := by
  induction entries generalizing w with
  | nil =>
    cases hl with
    | ended ha => exact ⟨_, search_ended ha⟩
    | failed ha => exact ⟨_, search_failed ha⟩
  | cons _ entries ih =>
    cases hl with
    | @entry _ t e _ _ ha hrest =>
      obtain ⟨u, hu⟩ := ih (w := ⟨t, w.exchanges ++ [moved e]⟩) hrest fun x hx => hb x (List.mem_cons_of_mem _ hx)
      have hpass := search_passed (hb _ List.mem_cons_self) ha
      refine ⟨u, hpass.trans (hu.trans ?_)⟩
      rw [List.append_assoc]
      rfl

/-! ## (3) The payload that is taken -/

/-- An operation that comes out so, after it has asked this and nothing else. -/
structure Ends (op : Operation α) (A : Archive σ) (s : σ) (asked : List Exchange) (r : Except Fault α) : Prop where
  result : ∀ now, (op _ A now s).1 = r
  calls : ∀ now, op.exchanges A now s = asked

/-- An operation that takes the first body of the right name from a container that gives these entries. -/
structure Selects (op : Operation α) (A : Archive σ) (s : σ) (opening : Request)
    (entries : List (Header × Except Fault Bytes)) (ending : Option Fault) (taken : Bytes → List Exchange → Prop) : Prop where
  /-- The first entry of the name is the last one looked at; no other body was read. -/
  first : ∀ before h body after, entries = before ++ (h, body) :: after →
    (∀ e ∈ before, Path.lastPiece e.1.path ≠ payloadName) → Path.lastPiece h.path = payloadName →
    (∀ f, body = .error f → Ends op A s (reading opening before h body) (.error f)) ∧
      ∀ payload, body = .ok payload → taken payload (reading opening before h body)
  none : (∀ e ∈ entries, Path.lastPiece e.1.path ≠ payloadName) →
    Ends op A s (passing opening entries ending) (.error (ending.getD .noPayload))
  missing : ∀ now, (op _ A now s).1 = .error .noPayload ↔
    (∀ e ∈ entries, Path.lastPiece e.1.path ≠ payloadName) ∧ ending = Option.none

/-- Opening goes on with a payload: to the fault of decoding it, or to the inner container on what it
    decodes to. -/
structure GoesOn (codec : Stream.Codec) (op : Operation Unit) (A : Archive σ) (s : σ) (payload : Bytes)
    (asked : List Exchange) : Prop where
  undecoded : ∀ f, Stream.decode codec payload = .error f → Ends op A s asked (.error f)
  opened : ∀ archive, Stream.decode codec payload = .ok archive → Opened op A s asked archive

section

variable {op : Operation α} {P : Request → Prop} {asked : List Exchange}

theorem ends_of_run (ho : op.Orderly P) {r : Except Fault α} (hr : ∀ now, op _ A.watched now ⟨s, []⟩ = (r, ⟨t, asked⟩)) :
    Ends op A s asked r where
  result now := by rw [show op _ A now s = _ from ho.unwatched A now ⟨s, []⟩, hr]
  calls now := by rw [Operation.exchanges, hr]

/-- There is a first entry of the name, or none. -/
theorem exists_first (entries : List (Header × Except Fault Bytes)) :
    (∀ e ∈ entries, Path.lastPiece e.1.path ≠ payloadName) ∨ ∃ before h body after, entries = before ++ (h, body) :: after ∧
      (∀ e ∈ before, Path.lastPiece e.1.path ≠ payloadName) ∧ Path.lastPiece h.path = payloadName := by
  cases hf : entries.find? fun e => Path.lastPiece e.1.path = payloadName with
  | none => exact .inl fun e he => by simpa using List.find?_eq_none.mp hf e he
  | some e =>
    obtain ⟨hn, before, after, hsplit, hb⟩ := List.find?_eq_some_iff_append.mp hf
    exact .inr ⟨before, e.1, e.2, after, hsplit, fun x hx => by simpa using hb x hx, by simpa using hn⟩

/-- An operation that opens the outer container, searches it and goes on with the payload. -/
theorem selects_of_run (ho : op.Orderly P) (hA : ContainerFaults A) {opening : Call Unit} (hv : opening.value () = .nothing)
    (hf : opening.request.format = .xar) (hopen : A.answer opening s = (.ok (), t)) (hl : Lists A t entries ending)
    {k : Bytes → Session (Watched σ) α} (hk : ∀ payload w, (k payload w).1 ≠ .error .noPayload)
    (hrun : ∀ now, op _ A.watched now ⟨s, []⟩ = (A.watched.call opening >>= fun _ => findPayload A.watched >>= k) ⟨s, []⟩)
    {taken : Bytes → List Exchange → Prop}
    (htaken : ∀ payload asked u, (∀ now, op _ A.watched now ⟨s, []⟩ = k payload ⟨u, asked⟩) →
      (∀ x ∈ asked, x.request.format = .xar) → taken payload asked) :
    Selects op A s opening.request entries ending taken := by
  have hname : ∀ {name : String}, Path.lastPiece name ≠ payloadName → isPayloadName name ≠ true :=
    fun hne hn => hne ((isPayloadName_iff _).mp hn)
  -- behind the call that opens the container the search is what is left
  have hsearch : ∀ now, op _ A.watched now ⟨s, []⟩ = (findPayload A.watched >>= k) ⟨t, [⟨opening.request, .ok .nothing⟩]⟩ := by
    intro now
    rw [hrun, Session.bind_of_ok (call_watched (w := ⟨s, []⟩) _ hopen), ← hv]
    rfl
  have hfirst : ∀ {before h body after}, entries = before ++ (h, body) :: after →
      (∀ e ∈ before, Path.lastPiece e.1.path ≠ payloadName) → Path.lastPiece h.path = payloadName →
      ∃ u, findPayload A.watched ⟨t, [⟨opening.request, .ok .nothing⟩]⟩ = (body, ⟨u, reading opening.request before h body⟩) := by
    rintro before h body after rfl hb hn
    exact findPayload_of_named_entry (w := ⟨t, [⟨opening.request, .ok .nothing⟩]⟩) hl (fun e he => hname (hb e he))
      ((isPayloadName_iff _).mpr hn)
  have hnone : (∀ e ∈ entries, Path.lastPiece e.1.path ≠ payloadName) →
      Ends op A s (passing opening.request entries ending) (.error (ending.getD .noPayload)) := by
    intro hb
    obtain ⟨u, hu⟩ := findPayload_of_no_entry (w := ⟨t, [⟨opening.request, .ok .nothing⟩]⟩) hl fun e he => hname (hb e he)
    exact ends_of_run ho fun now => (hsearch now).trans (Session.bind_of_error hu)
  refine ⟨fun before h body after hsplit hb hn => ?_, hnone, fun now => ⟨fun hres => ?_, ?_⟩⟩
  · obtain ⟨u, hu⟩ := hfirst hsplit hb hn
    constructor
    · rintro f rfl
      exact ends_of_run ho fun now => (hsearch now).trans (Session.bind_of_error hu)
    · rintro payload rfl
      refine htaken payload _ u (fun now => (hsearch now).trans (Session.bind_of_ok hu)) fun x hx => ?_
      simp only [reading, moved, List.mem_cons, List.mem_append, List.mem_map, List.not_mem_nil, or_false] at hx
      rcases hx with rfl | ⟨e, -, rfl⟩ | rfl | rfl
      · exact hf
      all_goals rfl
  · rcases exists_first entries with hb | ⟨before, h, body, after, hsplit, hb, hn⟩
    · refine ⟨hb, ?_⟩
      cases ending with
      | none => rfl
      | some f =>
        have hres' := (hnone hb).result now
        rw [hres] at hres'
        cases hres'
        cases hl.ending_fault hA
    · obtain ⟨u, hu⟩ := hfirst hsplit hb hn
      have hwatched : (op _ A now s).1 = (op _ A.watched now ⟨s, []⟩).1 := by
        rw [show op _ A now s = _ from ho.unwatched A now ⟨s, []⟩]
      rw [hwatched, hsearch] at hres
      cases body with
      | error f =>
        rw [Session.bind_of_error hu] at hres
        cases hres
        cases hl.body_fault hA (h := h) (f := .noPayload) (by rw [hsplit]; simp)
      | ok payload =>
        rw [Session.bind_of_ok hu] at hres
        exact absurd hres (hk payload _)
  · rintro ⟨hb, rfl⟩
    exact (hnone hb).result now

end

/-- Decoding a payload has faults of its own, and a payload that is missing is none of them. -/
theorem decode_ne_noPayload (codec : Stream.Codec) (payload : Bytes) : Stream.decode codec payload ≠ .error .noPayload := by
  intro hd
  cases hh : Stream.readHeader payload with
  | error f =>
    have hf : Stream.decode codec payload = .error f := by
      simp only [Stream.decode, hh]
      rfl
    rw [hd] at hf
    cases hf
    rw [Stream.readHeader] at hh
    split at hh
    · cases hh
    split at hh <;> cases hh
  | ok n =>
    obtain ⟨cs, parts, r, -, -, -, hfails⟩ := Stream.failsAt_of_decode hh hd
    cases hfails

theorem openPayload_ne_noPayload (hA : ContainerFaults A) (codec : Stream.Codec) (payload : Bytes) (w : Watched σ) :
    (openPayload A.watched codec payload w).1 ≠ .error .noPayload := by
  intro he
  cases hd : Stream.decode codec payload with
  | error f =>
    rw [openPayload_of_error hd] at he
    cases he
    exact decode_ne_noPayload codec payload hd
  | ok archive =>
    rw [openPayload_eq hd] at he
    cases hA (.openMemory .cpio archive) w.state .noPayload he

theorem goesOn_of_run {codec : Stream.Codec} {op : Operation Unit} {P : Request → Prop} (ho : op.Orderly P) {payload : Bytes}
    {asked : List Exchange} (hr : ∀ now, op _ A.watched now ⟨s, []⟩ = openPayload A.watched codec payload ⟨t, asked⟩)
    (hx : ∀ x ∈ asked, x.request.format = .xar) : GoesOn codec op A s payload asked where
  undecoded _ hd := ends_of_run ho fun now => (hr now).trans (openPayload_of_error hd _)
  opened _ hd := opened_of_run ho (fun now => (hr now).trans (openPayload_eq hd _)) hx

/-- For every container library whose faults are faults of the container, and every listing that the outer
    container has; and every container has one. The names of payloads are those with the last piece
    `Payload`. Extracting from a path, opening from a path and opening from memory take the first entry of
    such a name: the container is opened, moved on to that entry and asked for its whole body, and for
    nothing else; the body is given out as it is, or decoded and the inner container opened on that. The
    payload is missing if and only if no entry has such a name and the listing came to its end. -/
theorem payload_is_first_of_its_name (codec : Stream.Codec) (hA : ContainerFaults A) (s : σ) :
    (∀ name, isPayloadName name = true ↔ Path.lastPiece name = payloadName) ∧
    (∀ t, ∃ entries ending, Lists A t entries ending) ∧
    (∀ path t entries ending, A.answer (.openFile .xar path) s = (.ok (), t) → Lists A t entries ending →
      Selects (fun _ A _ => extractPayload A path) A s (.openFile .xar path) entries ending
          (fun payload asked => Ends (fun _ A _ => extractPayload A path) A s asked (.ok payload)) ∧
        Selects (fun _ A _ => openFile A codec path) A s (.openFile .xar path) entries ending
          (GoesOn codec (fun _ A _ => openFile A codec path) A s)) ∧
    (∀ package t entries ending, A.answer (.openMemory .xar package) s = (.ok (), t) → Lists A t entries ending →
      Selects (fun _ A _ => openMemory A codec package) A s (.openMemory .xar package) entries ending
        (GoesOn codec (fun _ A _ => openMemory A codec package) A s)) := by
  have hnever : ∀ payload (w : Watched σ), (openPayload A.watched codec payload w).1 ≠ .error .noPayload :=
    openPayload_ne_noPayload hA codec
  refine ⟨isPayloadName_iff, exists_lists A, fun path t entries ending hopen hl => ⟨?_, ?_⟩,
    fun package t entries ending hopen hl => ?_⟩
  · have ho := orderly_extractPayload path
    refine selects_of_run (k := pure) ho hA rfl rfl hopen hl (fun _ _ he => by cases he) (fun _ => ?_)
      fun payload asked u hrun _ => ends_of_run ho hrun
    simp only [bind_pure]
    rfl
  · have ho := orderly_openFile codec path
    refine selects_of_run ho hA rfl rfl hopen hl hnever (fun _ => ?_) fun payload asked u hrun => goesOn_of_run ho hrun
    rw [openFile_eq]
    rfl
  · have ho := orderly_openMemory codec package
    exact selects_of_run ho hA rfl rfl hopen hl hnever (fun _ => rfl) fun payload asked u hrun => goesOn_of_run ho hrun

theorem containerFaults_rehearsal : ContainerFaults Rehearsal.archive := by
  intro α c r f he
  rw [show Rehearsal.archive.answer c r = Rehearsal.answer c r from rfl, Rehearsal.answer] at he
  split at he
  · cases he
    rfl
  · cases he

/-- A rehearsal without a mishap gives what was prepared. -/
theorem lists_rehearsal {items : List Container.Item} {r : Rehearsal} (hm : r.mishap = Option.none)
    (hr : r.cursor.xar.rest = items) : Lists Rehearsal.archive r (items.map fun i => (i.header, .ok i.body)) Option.none := by
  induction items generalizing r with
  | nil =>
    have hnext : Rehearsal.archive.answer (.next .xar) r = (.ok Option.none, (Rehearsal.archive.answer (.next .xar) r).2) := by
      simp [Rehearsal.archive, Rehearsal.answer, Rehearsal.strike, Rehearsal.reply, Container.ByFormat.get, hm, hr]
    exact .ended hnext
  | cons i items ih =>
    have hnext : Rehearsal.archive.answer (.next .xar) r =
        (.ok (some i.header), { r with cursor := { r.cursor with xar := ⟨items, i.body⟩ } }) := by
      simp [Rehearsal.archive, Rehearsal.answer, Rehearsal.strike, Rehearsal.reply, Container.ByFormat.get,
        Container.ByFormat.set, hm, hr]
    have hbody : (Rehearsal.archive.answer (.readAll .xar) { r with cursor := { r.cursor with xar := ⟨items, i.body⟩ } }).1 =
        .ok i.body := by
      simp [Rehearsal.archive, Rehearsal.answer, Rehearsal.strike, Rehearsal.reply, Container.ByFormat.get, hm]
    have hlists := Lists.entry hnext (ih hm rfl)
    rwa [hbody] at hlists

/-- Names that only look like a payload's are passed over, in front of two that are; the first of these is
    extracted, although it is said to be a directory, and the second is not looked at. -/
theorem the_first_of_two_payloads :
    let entry := fun path kind body => (⟨⟨path, kind, 0, 0o644, 0, ""⟩, body⟩ : Container.Item)
    let missed := [entry "xPayload" .file [1], entry "Payload/" .file [2], entry "a/NotPayload" .file [3], entry "ayload" .file []]
    let chosen := entry "a/Payload" .directory [4, 5]
    let r := Rehearsal.prepare ⟨missed ++ [chosen, entry "Payload" .file [6]], []⟩ ⟨[], []⟩ none
    ContainerFaults Rehearsal.archive ∧
      Ends (fun _ A _ => extractPayload A "a.pkg") Rehearsal.archive r
        (reading (.openFile .xar "a.pkg") (missed.map fun i => (i.header, .ok i.body)) chosen.header (.ok [4, 5]))
        (.ok [4, 5]) := by
  intro entry missed chosen r
  have hlists : Lists Rehearsal.archive (Rehearsal.archive.answer (.openFile .xar "a.pkg") r).2
      ((missed ++ [chosen, entry "Payload" .file [6]]).map fun i => (i.header, .ok i.body)) Option.none :=
    lists_rehearsal rfl rfl
  obtain ⟨-, -, hpath, -⟩ := payload_is_first_of_its_name ⟨id, fun x => .ok x⟩ containerFaults_rehearsal r
  have hfirst := (hpath "a.pkg" _ _ _ rfl hlists).1.first (missed.map fun i => (i.header, .ok i.body)) chosen.header (.ok [4, 5])
    [((entry "Payload" .file [6]).header, .ok [6])] rfl (by decide) (by decide)
  exact ⟨containerFaults_rehearsal, hfirst.2 [4, 5] rfl⟩

end Reader

end Package

end FlatPackage
