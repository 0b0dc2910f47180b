/-
  FlatPackage.Proofs.Package.Opening — a package is opened as a whole or not at all.

  There are three ways in: from a path, from the package's bytes, and stage by stage, by a client
  that has the payload extracted and decodes it itself (`openInStages`). Each makes one call that
  opens the outer container and then looks for the payload. What the search asks, what it
  is answered and how it ends is a list of exchanges of one shape (`Search`), in which every entry
  but the last was passed over for its name.

  Proved:
  (1) `exists_search`: the search has this shape; and on two containers from which the same is
      read (`ReadsAlike`) it is the same search.
  (2) `openFrom_of_error`, `openFrom_of_archive`: opening ends in the fault of the outer container,
      of the search or of the payload with no other call made, or its last call is the one
      that opens the inner container on what the payload decodes to.
  (3) `opened_whole_or_not_at_all`: the three ways in come out alike.
  Trace: a package whose second chunk is cut short (`a_payload_cut_in_its_last_chunk`).
-/

import FlatPackage.Proofs.Package.FailStop
import FlatPackage.Proofs.Stream.Contents

namespace FlatPackage.Package.Reader

open Container (Archive Call Exchange Header Operation Rehearsal Request Session Value Watched)

variable {σ : Type} {A : Archive σ}

/-! ## (1) The search -/

/-- The exchanges of a search for the payload, and how it ended. -/
inductive Search : List Exchange → Except Fault Bytes → Prop
  | failed (f : Fault) : Search [⟨.next .xar, .error f⟩] (.error f)
  | ended : Search [⟨.next .xar, .ok (.entry none)⟩] (.error .noPayload)
  | found (h : Header) (r : Except Fault Bytes) : isPayloadName h.path = true →
      Search [⟨.next .xar, .ok (.entry (some h))⟩, ⟨.readAll .xar, r.map .bytes⟩] r
  | passed (h : Header) {l : List Exchange} {r : Except Fault Bytes} : isPayloadName h.path ≠ true → Search l r →
      Search (⟨.next .xar, .ok (.entry (some h))⟩ :: l) r

theorem Search.format_eq {l : List Exchange} {r : Except Fault Bytes} (h : Search l r) :
    ∀ x ∈ l, x.request.format = .xar := by
  induction h with
  | failed => simp [Request.format]
  | ended => simp [Request.format]
  | found => simp [Request.format]
  | passed _ _ _ ih => simpa [Request.format] using ih

/-- The state behind so many entries of the outer container. -/
def afterEntries (A : Archive σ) : Nat → σ → σ
  | 0, s => s
  | n + 1, s => afterEntries A n (A.answer (.next .xar) s).2

/-- The outer container gives the same entries with the same bodies in either state, and where it
    fails in the one it fails alike in the other. -/
def ReadsAlike (A : Archive σ) (s s' : σ) : Prop :=
  ∀ n, (A.answer (.next .xar) (afterEntries A n s)).1 = (A.answer (.next .xar) (afterEntries A n s')).1 ∧
    (A.answer (.readAll .xar) (afterEntries A n s)).1 = (A.answer (.readAll .xar) (afterEntries A n s')).1

theorem ReadsAlike.next {s s' : σ} (h : ReadsAlike A s s') :
    ReadsAlike A (A.answer (.next .xar) s).2 (A.answer (.next .xar) s').2 := fun n => h (n + 1)

section

variable {w : Watched σ} {t : σ}

theorem call_watched {α : Type} (c : Call α) {r : Except Fault α} (h : A.answer c w.state = (r, t)) :
    A.watched.call c w = (r, ⟨t, w.exchanges ++ [.of c r]⟩) := by
  show ((A.answer c w.state).1, Watched.mk (A.answer c w.state).2 (w.exchanges ++ [.of c (A.answer c w.state).1])) = _
  rw [h]

theorem search_failed {f : Fault} (h : A.answer (.next .xar) w.state = (.error f, t)) :
    findPayload A.watched w = (.error f, ⟨t, w.exchanges ++ [⟨.next .xar, .error f⟩]⟩) := by
  rw [findPayload_step, Session.bind_of_error (call_watched _ h)]
  rfl

theorem search_ended (h : A.answer (.next .xar) w.state = (.ok none, t)) :
    findPayload A.watched w = (.error .noPayload, ⟨t, w.exchanges ++ [⟨.next .xar, .ok (.entry none)⟩]⟩) := by
  rw [findPayload_step, Session.bind_of_ok (call_watched _ h)]
  rfl

theorem search_found {e : Header} (hn : isPayloadName e.path = true)
    (h : A.answer (.next .xar) w.state = (.ok (some e), t)) {r : Except Fault Bytes} {u : σ}
    (hr : A.answer (.readAll .xar) t = (r, u)) : findPayload A.watched w =
      (r, ⟨u, w.exchanges ++ [⟨.next .xar, .ok (.entry (some e))⟩, ⟨.readAll .xar, r.map .bytes⟩]⟩) := by
  have hread := call_watched (w := ⟨t, w.exchanges ++ [.of (.next .xar) (.ok (some e))]⟩) (.readAll .xar) hr
  rw [findPayload_of_named hn (call_watched _ h), show A.watched.answer _ _ = _ from hread, List.append_assoc]
  rfl

theorem search_passed {e : Header} (hn : isPayloadName e.path ≠ true)
    (h : A.answer (.next .xar) w.state = (.ok (some e), t)) : findPayload A.watched w =
      findPayload A.watched ⟨t, w.exchanges ++ [⟨.next .xar, .ok (.entry (some e))⟩]⟩ := by
  rw [findPayload_step, Session.bind_of_ok (call_watched _ h)]
  simp only [if_neg hn]
  rfl

end

/-- On containers from which the same is read, the search is the same. -/
theorem exists_search {n : Nat} {w v : Watched σ} (hn : A.left .xar w.state < n)
    (h : ReadsAlike A w.state v.state) :
    ∃ l r t t', findPayload A.watched w = (r, ⟨t, w.exchanges ++ l⟩) ∧
      findPayload A.watched v = (r, ⟨t', v.exchanges ++ l⟩) ∧ Search l r := by
  induction n generalizing w v with
  | zero => exact absurd hn (Nat.not_lt_zero _)
  | succ n ih =>
    have hsame : (A.answer (.next .xar) w.state).1 = (A.answer (.next .xar) v.state).1 := (h 0).1
    have hbody : (A.answer (.readAll .xar) _).1 = (A.answer (.readAll .xar) _).1 := (h 1).2
    have hnext := h.next
    rcases ha : A.answer (.next .xar) w.state with ⟨x, t⟩
    rcases ha' : A.answer (.next .xar) v.state with ⟨x', t'⟩
    simp only [afterEntries, ha, ha'] at hsame hbody hnext
    subst hsame
    rcases x with f | _ | e
    · exact ⟨_, _, t, t', search_failed ha, search_failed ha', .failed f⟩
    · exact ⟨_, _, t, t', search_ended ha, search_ended ha', .ended⟩
    · by_cases hname : isPayloadName e.path = true
      · rcases hr : A.answer (.readAll .xar) t with ⟨r, u⟩
        rcases hr' : A.answer (.readAll .xar) t' with ⟨r', u'⟩
        simp only [hr, hr'] at hbody
        subst hbody
        exact ⟨_, r, u, u', search_found hname ha hr, search_found hname ha' hr', .found e r hname⟩
      · have hless : A.left .xar t < A.left .xar w.state := A.left_next ha
        obtain ⟨l, r, u, u', hu, hu', hl⟩ := ih (w := ⟨t, w.exchanges ++ [⟨.next .xar, .ok (.entry (some e))⟩]⟩)
          (v := ⟨t', v.exchanges ++ [⟨.next .xar, .ok (.entry (some e))⟩]⟩) (Nat.lt_of_lt_of_le hless (by omega)) hnext
        rw [List.append_assoc] at hu hu'
        exact ⟨_, r, u, u', (search_passed hname ha).trans hu, (search_passed hname ha').trans hu', .passed e hname hl⟩

/-! ## (2) From the outer container to the inner one -/

/-- Opens the outer container by one call and goes on from there. -/
def openFrom (A : Archive σ) (codec : Stream.Codec) (opening : Call Unit) : Session σ Unit := do
  A.call opening
  let payload ← findPayload A
  openPayload A codec payload

/-- A client that has the payload extracted, decodes it and opens what it decodes to. -/
def openInStages (A : Archive σ) (codec : Stream.Codec) (path : String) : Session σ Unit := do
  let payload ← extractPayload A path
  let archive ← (Stream.decode codec payload : Except Fault Bytes)
  openArchive A archive

theorem openFile_eq (codec : Stream.Codec) (path : String) :
    openFile A codec path = openFrom A codec (.openFile .xar path) := by
  simp only [openFile, extractPayload, openFrom, bind_assoc]

theorem openInStages_eq (codec : Stream.Codec) (path : String) :
    openInStages A codec path = openFrom A codec (.openFile .xar path) := by
  simp only [openInStages, extractPayload, openFrom, openPayload, bind_assoc]

theorem openMemory_eq (codec : Stream.Codec) (package : Bytes) :
    openMemory A codec package = openFrom A codec (.openMemory .xar package) := rfl

/-- Why opening came to nothing, by what the outer container was asked after it had been opened. -/
inductive Fails (codec : Stream.Codec) : Except Fault Value → List Exchange → Fault → Prop
  | unopened (f : Fault) : Fails codec (.error f) [] f
  | unfound {l : List Exchange} {f : Fault} : Search l (.error f) → Fails codec (.ok .nothing) l f
  | undecoded {l : List Exchange} {payload : Bytes} {f : Fault} : Search l (.ok payload) →
      Stream.decode codec payload = .error f → Fails codec (.ok .nothing) l f

/-- An operation that failed and asked nothing but the outer container. -/
structure Refused (op : Operation Unit) (A : Archive σ) (s : σ) (asked : List Exchange) (f : Fault) : Prop where
  result : ∀ now, (op _ A now s).1 = .error f
  calls : ∀ now, op.exchanges A now s = asked
  outer : ∀ x ∈ asked, x.request.format = .xar

/-- An operation of which the last call opened the inner container on `archive`, after the outer container
    was asked what it was asked; it ended as that call did. -/
structure Opened (op : Operation Unit) (A : Archive σ) (s : σ) (asked : List Exchange) (archive : Bytes) : Prop where
  last : ∀ now, op.exchanges A now s =
    asked ++ [⟨.openMemory .cpio archive, (op _ A now s).1.map fun _ => .nothing⟩]
  outer : ∀ x ∈ asked, x.request.format = .xar

/-! ### One way in -/

section

variable {op : Operation Unit} {P : Request → Prop} {s t : σ} {asked : List Exchange}

theorem refused_of_run (h : op.Orderly P) {f : Fault}
    (hr : ∀ now, op _ A.watched now ⟨s, []⟩ = (.error f, ⟨t, asked⟩)) (ho : ∀ x ∈ asked, x.request.format = .xar) :
    Refused op A s asked f where
  result now := by rw [show op _ A now s = _ from h.unwatched A now ⟨s, []⟩, hr]
  calls now := by rw [Operation.exchanges, hr]
  outer := ho

theorem opened_of_run (h : op.Orderly P) {archive : Bytes}
    (hr : ∀ now, op _ A.watched now ⟨s, []⟩ = A.watched.answer (.openMemory .cpio archive) ⟨t, asked⟩)
    (ho : ∀ x ∈ asked, x.request.format = .xar) : Opened op A s asked archive where
  last now := by
    rw [show op _ A now s = _ from h.unwatched A now ⟨s, []⟩, Operation.exchanges, hr]
    rfl
  outer := ho

end

theorem orderly_openFrom (codec : Stream.Codec) (opening : Call Unit) :
    Operation.Orderly (fun _ => True) fun _ A _ => openFrom A codec opening :=
  .bind (.call _ trivial) fun _ => .bind (orderly_any orderly_findPayload) fun payload =>
    orderly_any (orderly_openPayload codec payload)

section

variable {codec : Stream.Codec} {opening : Call Unit} {s t u : σ} {l : List Exchange}

theorem openFrom_unopened {f : Fault} (h : A.answer opening s = (.error f, t)) :
    openFrom A.watched codec opening ⟨s, []⟩ = (.error f, ⟨t, [⟨opening.request, .error f⟩]⟩) := by
  rw [openFrom, Session.bind_of_error (call_watched (w := ⟨s, []⟩) _ h)]
  rfl

theorem openFrom_unfound {f : Fault} (h : A.answer opening s = (.ok (), t))
    (hs : findPayload A.watched ⟨t, [.of opening (.ok ())]⟩ = (.error f, ⟨u, .of opening (.ok ()) :: l⟩)) :
    openFrom A.watched codec opening ⟨s, []⟩ = (.error f, ⟨u, .of opening (.ok ()) :: l⟩) := by
  rw [openFrom, Session.bind_of_ok (call_watched (w := ⟨s, []⟩) _ h)]
  exact Session.bind_of_error hs

theorem openFrom_found {payload : Bytes} (h : A.answer opening s = (.ok (), t))
    (hs : findPayload A.watched ⟨t, [.of opening (.ok ())]⟩ = (.ok payload, ⟨u, .of opening (.ok ()) :: l⟩)) :
    openFrom A.watched codec opening ⟨s, []⟩ = openPayload A.watched codec payload ⟨u, .of opening (.ok ()) :: l⟩ := by
  rw [openFrom, Session.bind_of_ok (call_watched (w := ⟨s, []⟩) _ h)]
  exact Session.bind_of_ok hs

end

/-- Opening a package in two ways that open and read alike: both fail, for one reason, without a call to the
    inner container; or both end in the call that opens it on what the payload decodes to. -/
theorem openFrom_alike (codec : Stream.Codec) {c c' : Call Unit} (hv : c.value () = .nothing)
    (hv' : c'.value () = .nothing) (hf : c.request.format = .xar) (hf' : c'.request.format = .xar) {s s' : σ}
    (hopen : (A.answer c s).1 = (A.answer c' s').1) (hread : ReadsAlike A (A.answer c s).2 (A.answer c' s').2) :
    ∃ reply l,
      (∃ f, Fails codec reply l f ∧
        Refused (fun _ A _ => openFrom A codec c) A s (⟨c.request, reply⟩ :: l) f ∧
        Refused (fun _ A _ => openFrom A codec c') A s' (⟨c'.request, reply⟩ :: l) f) ∨
      (∃ payload archive, reply = .ok .nothing ∧ Search l (.ok payload) ∧
        Stream.decode codec payload = .ok archive ∧
        Opened (fun _ A _ => openFrom A codec c) A s (⟨c.request, reply⟩ :: l) archive ∧
        Opened (fun _ A _ => openFrom A codec c') A s' (⟨c'.request, reply⟩ :: l) archive) := by
  have ho := orderly_openFrom codec c
  have ho' := orderly_openFrom codec c'
  have hall : ∀ {q : Request} {r : Except Fault Value} {l : List Exchange}, q.format = .xar →
      (∀ x ∈ l, x.request.format = .xar) → ∀ x ∈ ⟨q, r⟩ :: l, x.request.format = .xar := by
    intro q r l hq hl x hx
    rcases List.mem_cons.mp hx with rfl | hx
    · exact hq
    · exact hl x hx
  rcases ha : A.answer c s with ⟨x, t⟩
  rcases ha' : A.answer c' s' with ⟨x', t'⟩
  simp only [ha, ha'] at hopen hread
  subst hopen
  cases x with
  | error f =>
    refine ⟨.error f, [], .inl ⟨f, .unopened f, ?_, ?_⟩⟩
    · exact refused_of_run ho (fun _ => openFrom_unopened ha) (hall hf (by simp))
    · exact refused_of_run ho' (fun _ => openFrom_unopened ha') (hall hf' (by simp))
  | ok v =>
    obtain ⟨l, r, u, u', hs, hs', hl⟩ := exists_search (A := A) (w := ⟨t, [.of c (.ok ())]⟩)
      (v := ⟨t', [.of c' (.ok ())]⟩) (Nat.lt_succ_self _) hread
    have he : Exchange.of c (.ok ()) = ⟨c.request, .ok .nothing⟩ := by rw [← hv]; rfl
    have he' : Exchange.of c' (.ok ()) = ⟨c'.request, .ok .nothing⟩ := by rw [← hv']; rfl
    have hout := hall (r := .ok .nothing) hf hl.format_eq
    have hout' := hall (r := .ok .nothing) hf' hl.format_eq
    rw [← he] at hout
    rw [← he'] at hout'
    refine ⟨.ok .nothing, l, ?_⟩
    rw [← he, ← he']
    cases r with
    | error f =>
      refine .inl ⟨f, .unfound hl, ?_, ?_⟩
      · exact refused_of_run ho (fun _ => openFrom_unfound ha hs) hout
      · exact refused_of_run ho' (fun _ => openFrom_unfound ha' hs') hout'
    | ok payload =>
      cases hd : Stream.decode codec payload with
      | error f =>
        refine .inl ⟨f, .undecoded hl hd, ?_, ?_⟩
        · exact refused_of_run ho (fun _ => (openFrom_found ha hs).trans (openPayload_of_error hd _)) hout
        · exact refused_of_run ho' (fun _ => (openFrom_found ha' hs').trans (openPayload_of_error hd _)) hout'
      | ok archive =>
        refine .inr ⟨payload, archive, rfl, hl, hd, ?_, ?_⟩
        · exact opened_of_run ho (fun _ => (openFrom_found ha hs).trans (openPayload_eq hd _)) hout
        · exact opened_of_run ho' (fun _ => (openFrom_found ha' hs').trans (openPayload_eq hd _)) hout'

/-! ## (3) Three ways in -/

/-- The package at a path and the package in memory: they open alike, and the same is read from them. -/
structure SamePackage (A : Archive σ) (path : String) (s : σ) (package : Bytes) (s' : σ) : Prop where
  opens : (A.answer (.openFile .xar path) s).1 = (A.answer (.openMemory .xar package) s').1
  reads : ReadsAlike A (A.answer (.openFile .xar path) s).2 (A.answer (.openMemory .xar package) s').2

/-- From the path, from the bytes and stage by stage, opening a package comes out alike. Either all three
    fail with one fault, which is that of the outer container, of the search or of the decoder, and no call
    was made to the inner container. Or the payload was found and read, every chunk of it opened, and the
    last call of all three, the only one to the inner container, opens it on what the chunks stand for. -/
theorem opened_whole_or_not_at_all (codec : Stream.Codec) {path : String} {package : Bytes} {s s' : σ}
    (h : SamePackage A path s package s') :
    ∃ reply l,
      (∃ f, Fails codec reply l f ∧
        Refused (fun _ A _ => openFile A codec path) A s (⟨.openFile .xar path, reply⟩ :: l) f ∧
        Refused (fun _ A _ => openMemory A codec package) A s' (⟨.openMemory .xar package, reply⟩ :: l) f ∧
        Refused (fun _ A _ => openInStages A codec path) A s (⟨.openFile .xar path, reply⟩ :: l) f) ∨
      (∃ payload archive, reply = .ok .nothing ∧ Search l (.ok payload) ∧
        Stream.decode codec payload = .ok archive ∧
        (∃ n cs tail parts, Stream.Parses payload n cs tail ∧ Stream.OpenAll codec cs parts ∧ archive = parts.flatten) ∧
        Opened (fun _ A _ => openFile A codec path) A s (⟨.openFile .xar path, reply⟩ :: l) archive ∧
        Opened (fun _ A _ => openMemory A codec package) A s' (⟨.openMemory .xar package, reply⟩ :: l) archive ∧
        Opened (fun _ A _ => openInStages A codec path) A s (⟨.openFile .xar path, reply⟩ :: l) archive) := by
  simp only [openFile_eq, openInStages_eq, openMemory_eq]
  obtain ⟨reply, l, ⟨f, hf, ho, hm⟩ | ⟨payload, archive, hr, hl, hd, ho, hm⟩⟩ :=
    openFrom_alike codec rfl rfl rfl rfl h.opens h.reads
  · exact ⟨reply, l, .inl ⟨f, hf, ho, hm, ho⟩⟩
  · exact ⟨reply, l, .inr ⟨payload, archive, hr, hl, hd, Stream.parses_of_decode hd, ho, hm, ho⟩⟩

/-! ### A library that plays back -/

/-- What a rehearsal gives of the outer container hangs on its cursor and on the mishap that waits. -/
theorem readsAlike_rehearsal {r r' : Rehearsal} (hc : r.cursor.xar = r'.cursor.xar) (hm : r.mishap = r'.mishap) :
    ReadsAlike Rehearsal.archive r r' := by
  intro n
  induction n generalizing r r' with
  | zero =>
    simp only [afterEntries, Rehearsal.archive, Rehearsal.answer, Rehearsal.strike, Rehearsal.reply, Container.ByFormat.get, hc, hm]
    constructor
    · split
      · rfl
      · cases r'.cursor.xar.rest <;> rfl
    · split <;> rfl
  | succ n ih =>
    refine ih ?_ ?_ <;>
      simp only [Rehearsal.archive, Rehearsal.answer, Rehearsal.strike, Rehearsal.reply, Container.ByFormat.get, hc, hm]
    · split
      · exact hc
      · cases r'.cursor.xar.rest <;> rfl
    · split <;> rfl

/-- A rehearsal gives the same package from any path and from any bytes. -/
theorem samePackage_rehearsal (path : String) (package : Bytes) (r : Rehearsal) :
    SamePackage Rehearsal.archive path r package r := by
  have hstrike : Rehearsal.strike (.openMemory .xar package) r = Rehearsal.strike (.openFile .xar path) r := rfl
  have hanswer : ∀ {α : Type} (c : Call α), Rehearsal.archive.answer c r = Rehearsal.answer c r := fun _ => rfl
  constructor
  · rw [hanswer, hanswer, Rehearsal.answer, Rehearsal.answer, hstrike]
    cases Rehearsal.strike (.openFile .xar path) r <;> rfl
  · apply readsAlike_rehearsal
    · rw [hanswer, hanswer, Rehearsal.answer, Rehearsal.answer, hstrike]
      cases Rehearsal.strike (.openFile .xar path) r <;> rfl
    · rw [hanswer, hanswer, Rehearsal.answer, Rehearsal.answer, hstrike]
      cases Rehearsal.strike (.openFile .xar path) r <;> rfl

/-- A package with an entry of another name, a payload that has a whole chunk and one that is cut short, and
    a second payload. -/
def cutShort : Rehearsal :=
  let entry := fun path body => (⟨⟨path, .file, 0, 0o644, 0, ""⟩, body⟩ : Container.Item)
  let whole := Stream.ofChunks 4 [⟨0, [1, 2]⟩] []
  let cut := Stream.ofChunks 4 [⟨0, [1, 2]⟩] (Stream.ChunkHeader.bytes ⟨0, 9⟩ ++ [3])
  .prepare ⟨[entry "Bom" [], entry "a.pkg/Payload" cut, entry "Payload" whole], []⟩ ⟨[], []⟩ none

/-- Behind an entry of another name the payload has a whole chunk and one that is cut short: the three ways
    in report the cut, after the same three readings of the outer container and nothing else. -/
theorem a_payload_cut_in_its_last_chunk :
    let codec : Stream.Codec := ⟨id, fun x => .ok x⟩
    let A := Rehearsal.archive
    SamePackage A "a.pkg" cutShort [7] cutShort ∧ ∃ l, l.length = 3 ∧
      Refused (fun _ A _ => openFile A codec "a.pkg") A cutShort (⟨.openFile .xar "a.pkg", .ok .nothing⟩ :: l)
        (.cutChunk 9 46 1) ∧
      Refused (fun _ A _ => openMemory A codec [7]) A cutShort (⟨.openMemory .xar [7], .ok .nothing⟩ :: l)
        (.cutChunk 9 46 1) ∧
      Refused (fun _ A _ => openInStages A codec "a.pkg") A cutShort (⟨.openFile .xar "a.pkg", .ok .nothing⟩ :: l)
        (.cutChunk 9 46 1) := by
  intro codec A
  have hsame : SamePackage A "a.pkg" cutShort [7] cutShort := samePackage_rehearsal _ _ _
  have hrun : (openFile Rehearsal.archive ⟨id, fun x => .ok x⟩ "a.pkg" cutShort).1 = .error (.cutChunk 9 46 1) := by
    decide +kernel
  have hlen : (Operation.exchanges (fun _ A _ => openFile A ⟨id, fun x => .ok x⟩ "a.pkg") Rehearsal.archive 0
      cutShort).length = 4 := by
    decide +kernel
  have houter : (Operation.exchanges (fun _ A _ => openFile A ⟨id, fun x => .ok x⟩ "a.pkg") Rehearsal.archive 0
      cutShort).all (·.request.format = .xar) := by
    decide +kernel
  refine ⟨hsame, ?_⟩
  obtain ⟨reply, l, ⟨f, hf, ho, hm, hs⟩ | ⟨_, _, _, _, _, _, ho, _, _⟩⟩ := opened_whole_or_not_at_all codec hsame
  · obtain rfl : f = .cutChunk 9 46 1 := Except.error.inj ((ho.result 0).symm.trans hrun)
    have hl : l.length = 3 := Nat.succ.inj ((congrArg List.length (ho.calls 0)).symm.trans hlen)
    cases hf with
    | unopened => cases hl
    | unfound => exact ⟨l, hl, ho, hm, hs⟩
    | undecoded => exact ⟨l, hl, ho, hm, hs⟩
  · rw [ho.last 0, List.all_append] at houter
    simp [Request.format] at houter

end FlatPackage.Package.Reader
