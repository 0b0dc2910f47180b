/-
  FlatPackage.Proofs.Package.History — a builder between its first call and any later one.

  A client adds entries and has packages built, in any order, with a container library that may
  refuse at any call (`Deed`). A history is what was done and how each deed came out, beside the
  builder and the library as they are then (`Lives`).

  Proved, of every history:
  (1) `Lives.entries_eq`: the builder has the entries that were accepted, in the order of the calls.
  (2) `Lives.accepted_iff`: a call that adds was accepted if and only if it named a path.
  (3) `keeps_what_was_accepted`: both, and what every later deed finds: an addition goes to the end or
      changes nothing, and building uses nothing up and serializes all there is.
  Trace: a builder that is refused an entry and a package (`a_builder_after_two_refusals`).
-/

import FlatPackage.Proofs.Package.Serialization

namespace FlatPackage.Package

open Container (Archive EntryKind Exchange Operation Rehearsal)

variable {σ : Type} {A : Archive σ} {codec : Stream.Codec}

/-! ## Deeds -/

/-- What a client does with a builder. -/
inductive Deed where
  | add (a : Adding)
  | buildPayload
  | write (now : Int) (path : String)
  | toBytes (now : Int)
  deriving DecidableEq, Repr

structure Client (σ : Type) where
  builder : Builder
  library : σ

/-- How a deed comes out, the bytes it gives if it gives any, and what it leaves. -/
def Deed.run (A : Archive σ) (codec : Stream.Codec) (c : Client σ) : Deed → Except Fault (Option Bytes) × Client σ
  | add a => ((a.run c.builder).map fun _ => none, { c with builder := c.builder.after a })
  | buildPayload =>
    let (r, s) := c.builder.buildPayload A codec c.library
    (r.map some, { c with library := s })
  | write now path =>
    let (r, s) := c.builder.write A codec now path c.library
    (r.map fun _ => none, { c with library := s })
  | toBytes now =>
    let (r, s) := c.builder.toBytes A codec now c.library
    (r.map some, { c with library := s })

/-- What was done, and how it came out. -/
abbrev Past := List (Deed × Except Fault (Option Bytes))

/-- What a client did, how it came out, and where that leaves it; it starts with an empty builder and the
    library in any state. -/
inductive Lives (A : Archive σ) (codec : Stream.Codec) : Past → Client σ → Prop
  | start (s : σ) : Lives A codec [] ⟨.empty, s⟩
  | step {past : Past} {c : Client σ} (d : Deed) : Lives A codec past c →
      Lives A codec (past ++ [(d, (d.run A codec c).1)]) (d.run A codec c).2

/-- The entry that a deed added, if it is one that adds and was accepted. -/
def kept? : Deed × Except Fault (Option Bytes) → Option Entry
  | (.add a, .ok _) => some a.wanted
  | _ => none

/-- The entries that were accepted, in the order of the calls. -/
def kept (past : Past) : List Entry := past.filterMap kept?

/-! ## (1) What a builder holds -/

/-- The path that a call names. -/
def Adding.path : Adding → String
  | entry e => e.path
  | file _ path _ => path
  | fileWithPermissions _ path _ _ => path
  | directory _ path => path
  | symlink _ path _ => path

theorem Adding.path_wanted (a : Adding) : a.wanted.path = a.path := by
  cases a <;> rfl

theorem Deed.run_add_of_path {a : Adding} (h : a.path ≠ "") (c : Client σ) :
    (add a).run A codec c = (.ok none, { c with builder := ⟨c.builder.entries ++ [a.wanted]⟩ }) := by
  have hrun : a.run c.builder = .ok ⟨c.builder.entries ++ [a.wanted]⟩ := by rw [a.run_eq, a.path_wanted, if_neg h]
  rw [run, Builder.after, hrun]
  rfl

theorem Deed.run_add_of_no_path {a : Adding} (h : a.path = "") (c : Client σ) :
    (add a).run A codec c = (.error .emptyEntryPath, c) := by
  have hrun : a.run c.builder = .error .emptyEntryPath := by rw [a.run_eq, a.path_wanted, if_pos h]
  rw [run, Builder.after, hrun]
  rfl

/-- Only an addition changes the builder, and only one that is accepted. -/
theorem Deed.entries_run (d : Deed) (c : Client σ) :
    (d.run A codec c).2.builder.entries = c.builder.entries ++ kept [(d, (d.run A codec c).1)] := by
  cases d with
  | add a =>
    by_cases h : a.path = ""
    · rw [run_add_of_no_path h]
      exact (List.append_nil _).symm
    · rw [run_add_of_path h]
      rfl
  | buildPayload => exact (List.append_nil _).symm
  | write now path => exact (List.append_nil _).symm
  | toBytes now => exact (List.append_nil _).symm

section

variable {past : Past} {c : Client σ}

theorem Lives.entries_eq (h : Lives A codec past c) : c.builder.entries = kept past := by
  induction h with
  | start s => rfl
  | step d _ ih => rw [d.entries_run, ih, kept, kept, kept, List.filterMap_append]

/-! ## (2) What was accepted -/

theorem Lives.accepted_iff (h : Lives A codec past c) {a : Adding} {r : Except Fault (Option Bytes)}
    (hm : (.add a, r) ∈ past) : (r = .ok none ↔ a.path ≠ "") ∧ (a.path = "" → r = .error .emptyEntryPath) := by
  induction h with
  | start s => cases hm
  | @step past c d _ ih =>
    rcases List.mem_append.mp hm with hm | hm
    · exact ih hm
    · obtain ⟨rfl, rfl⟩ := Prod.mk.inj (List.mem_singleton.mp hm)
      by_cases hp : a.path = ""
      · rw [Deed.run_add_of_no_path hp]
        exact ⟨⟨fun he => (by cases he), fun hne => absurd hp hne⟩, fun _ => rfl⟩
      · rw [Deed.run_add_of_path hp]
        exact ⟨⟨fun _ => hp, fun _ => rfl⟩, fun he => absurd he hp⟩

theorem mem_kept {e : Entry} (he : e ∈ kept past) : ∃ a v, (Deed.add a, .ok v) ∈ past ∧ a.wanted = e := by
  obtain ⟨⟨d, r⟩, hm, hk⟩ := List.mem_filterMap.mp he
  rcases d with a | _ | _ | _ <;> rcases r with f | v <;> cases hk
  exact ⟨a, v, hm, rfl⟩

/-- What was accepted has a path, and data only if it is a file. -/
theorem Lives.stored (h : Lives A codec past c) {e : Entry} (he : e ∈ c.builder.entries) :
    e.path ≠ "" ∧ (e.data ≠ [] → e.kind = .file) := by
  rw [h.entries_eq] at he
  obtain ⟨a, v, hm, rfl⟩ := mem_kept he
  refine ⟨fun hp => ?_, fun hd => ?_⟩
  · rw [a.path_wanted] at hp
    cases (h.accepted_iff hm).2 hp
  · by_contra hk
    exact hd (a.isTrimmed_wanted hk)

end

/-! ## (3) Any time -/

/-- An entry as a builder keeps it: as it was given, but for data, which only a file may have. -/
structure KeptAs (e x : Entry) : Prop where
  path : x.path = e.path
  kind : x.kind = e.kind
  permissions : x.permissions = e.permissions
  mtime : x.mtime = e.mtime
  target : x.target = e.target
  file : e.kind = .file → x.data = e.data
  other : e.kind ≠ .file → x.data = []

/-- What holds of a builder after a history, and of whatever is done next. -/
structure Keeps (A : Archive σ) (codec : Stream.Codec) (past : Past) (c : Client σ) : Prop where
  entries : c.builder.entries = kept past
  size : c.builder.size = (kept past).length
  accepted : ∀ a r, (.add a, r) ∈ past → (r = .ok none ↔ a.path ≠ "") ∧ (a.path = "" → r = .error .emptyEntryPath)
  stored : ∀ e ∈ c.builder.entries, e.path ≠ "" ∧ (e.data ≠ [] → e.kind = .file)
  /-- An addition is accepted, and its entry goes to the end. -/
  adds : ∀ a, a.path ≠ "" →
    (Deed.add a).run A codec c = (.ok none, { c with builder := ⟨c.builder.entries ++ [a.wanted]⟩ })
  /-- An addition is rejected, and nothing changes. -/
  rejects : ∀ a, a.path = "" → (Deed.add a).run A codec c = (.error .emptyEntryPath, c)
  addsAsGiven : ∀ e, e.path ≠ "" →
    ∃ x, ((Deed.add (.entry e)).run A codec c).2.builder.entries = c.builder.entries ++ [x] ∧ KeptAs e x
  /-- Building leaves the builder as it is, whether it goes well or not. -/
  unused : ∀ d : Deed, (∀ a, d ≠ .add a) → (d.run A codec c).2.builder = c.builder
  /-- What is built is made of all that was accepted so far. -/
  payload : ∀ payload t, c.builder.buildPayload A codec c.library = (.ok payload, t) → ∃ archive,
    payload = Stream.compress codec archive ∧
      Operation.exchanges (fun _ A _ => c.builder.buildPayload A codec) A 0 c.library = innerCalls (kept past) archive
  write : ∀ now path, Serializes codec (kept past) (fun _ A now => c.builder.write A codec now path)
    (fun _ payload => outerCalls now path payload) A now c.library
  toBytes : ∀ now, Serializes codec (kept past) (fun _ A now => c.builder.toBytes A codec now)
    (fun package payload => outerCallsInMemory now payload package) A now c.library

/-- For every container library in any state, every codec and every history of additions, accepted or
    rejected, and builds, that went well or failed, in any order. -/
theorem keeps_what_was_accepted {past : Past} {c : Client σ}
    (h : Lives A codec past c) : Keeps A codec past c where
  entries := h.entries_eq
  size := by rw [Builder.size, h.entries_eq]
  accepted a r hm := h.accepted_iff hm
  stored e he := h.stored he
  adds a ha := Deed.run_add_of_path ha c
  rejects a ha := Deed.run_add_of_no_path ha c
  addsAsGiven e he := by
    refine ⟨(Adding.entry e).wanted, ?_, rfl, rfl, rfl, rfl, rfl, fun hk => if_pos hk, fun hk => if_neg hk⟩
    rw [Deed.run_add_of_path (a := .entry e) he]
  unused d hd := by
    cases d with
    | add a => exact absurd rfl (hd a)
    | buildPayload => rfl
    | write now path => rfl
    | toBytes now => rfl
  payload payload t hp := by
    have htraced := Builder.traced_buildPayload (A := A) codec c.builder
    obtain ⟨hcalls, -⟩ := Traced.exchanges (fun _ A _ => c.builder.buildPayload A codec) htraced
      (Builder.orderly_buildPayload codec c.builder) c.library
    obtain ⟨archive, hmade, rfl⟩ := hcalls payload t hp
    exact ⟨archive, rfl, by rw [hmade, h.entries_eq]⟩
  write now path := h.entries_eq ▸ c.builder.serializes_write A codec now c.library path
  toBytes now := h.entries_eq ▸ c.builder.serializes_toBytes A codec now c.library

/-- A file without a path is rejected and the inner container refuses a header; the directory that was
    added before and the symlink that is added after are kept, the symlink without its data. -/
theorem a_builder_after_two_refusals :
    let codec : Stream.Codec := ⟨id, fun x => .ok x⟩
    let link : Entry := ⟨"usr/l", .symlink, [1], 0o4755, -3, "x"⟩
    ∃ past c, Lives Rehearsal.archive codec past c ∧
      past = [(.add (.directory 5 "usr"), .ok none), (.add (.file 5 "" [9]), .error .emptyEntryPath),
        (.write 6 "usr.pkg", .error (.container "no room")), (.add (.entry link), .ok none)] ∧
      c.builder.entries = [⟨"usr", .directory, [], 0o755, 5, ""⟩, { link with data := [] }] ∧
      Keeps Rehearsal.archive codec past c := by
  intro codec link
  let r := Rehearsal.prepare ⟨[], []⟩ ⟨[8], [7, 7]⟩ (some ⟨.header, .cpio, 0, "no room"⟩)
  have hstart : Lives Rehearsal.archive codec [] ⟨.empty, r⟩ := .start r
  have hlives := ((hstart.step (.add (.directory 5 "usr"))).step (.add (.file 5 "" [9]))).step (.write 6 "usr.pkg")
  exact ⟨_, _, hlives.step (.add (.entry link)), rfl, rfl, keeps_what_was_accepted (hlives.step _)⟩

end FlatPackage.Package
