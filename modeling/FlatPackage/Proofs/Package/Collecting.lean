/-
  FlatPackage.Proofs.Package.Collecting — what a builder holds after any calls that add to it.

  There are five ways to add an entry. Each of them asks for one entry (`Adding.wanted`), and all
  of them come to the same: an entry without a path is rejected and nothing changes, any
  other goes to the end (`Adding.run_eq`).

  Proved:
  (1) `entries_collect`: after any calls, rejected ones among them, a builder holds the entries
      that were accepted, in the order of the calls.
  (2) `isTrimmed_of_mem_accepted`: of these only files have data.
-/

import FlatPackage.Package.Builder

namespace FlatPackage.Package

/-- A call that adds an entry; those that stamp it come with the time. -/
inductive Adding where
  | entry (e : Entry)
  | file (now : Int) (path : String) (data : Bytes)
  | fileWithPermissions (now : Int) (path : String) (data : Bytes) (permissions : UInt32)
  | directory (now : Int) (path : String)
  | symlink (now : Int) (path target : String)
  deriving DecidableEq, Repr

namespace Adding

def run : Adding → Builder → Except Fault Builder
  | entry e => Builder.add e
  | file now path data => Builder.addFile now path data
  | fileWithPermissions now path data permissions => Builder.addFileWithPermissions now path data permissions
  | directory now path => Builder.addDirectory now path
  | symlink now path target => Builder.addSymlink now path target

/-- The entry that a call asks for. -/
def wanted : Adding → Entry
  | entry e => { e with data := if e.kind = .file then e.data else [] }
  | file now path data => ⟨path, .file, data, 0o644, now, ""⟩
  | fileWithPermissions now path data permissions => ⟨path, .file, data, permissions, now, ""⟩
  | directory now path => ⟨path, .directory, [], 0o755, now, ""⟩
  | symlink now path target => ⟨path, .symlink, [], 0o777, now, target⟩

end Adding

theorem Entry.trimmed_eq (e : Entry) : e.trimmed = { e with data := if e.kind = .file then e.data else [] } := by
  unfold trimmed
  split <;> rfl

theorem Builder.add_eq (e : Entry) (b : Builder) :
    b.add e = if e.path = "" then .error .emptyEntryPath else .ok ⟨b.entries ++ [e.trimmed]⟩ := by
  unfold add
  by_cases h : e.path = ""
  · rw [if_pos h, if_pos (by rw [h]; rfl)]
  · rw [if_neg h, if_neg (by rw [String.isEmpty_iff]; exact h)]

/-- Every call checks the path and adds what it asks for at the end. -/
theorem Adding.run_eq (a : Adding) (b : Builder) :
    a.run b = if a.wanted.path = "" then .error .emptyEntryPath else .ok ⟨b.entries ++ [a.wanted]⟩ := by
  cases a with
  | entry e => rw [run, Builder.add_eq, Entry.trimmed_eq, wanted]
  | file now path data => exact Builder.add_eq _ b
  | fileWithPermissions now path data permissions => exact Builder.add_eq _ b
  | directory now path => exact Builder.add_eq _ b
  | symlink now path target => exact Builder.add_eq _ b

/-! ## Calls in a row -/

/-- The builder after a call; one that is rejected leaves it as it was. -/
def Builder.after (b : Builder) (a : Adding) : Builder :=
  match a.run b with
  | .ok b' => b'
  | .error _ => b

def collect (calls : List Adding) : Builder := calls.foldl Builder.after .empty

/-- The entries of the calls that are accepted: those that name a path. -/
def accepted (calls : List Adding) : List Entry := (calls.map Adding.wanted).filter (·.path ≠ "")

theorem Builder.entries_after (b : Builder) (a : Adding) : (b.after a).entries = b.entries ++ accepted [a] := by
  unfold after
  rw [a.run_eq]
  by_cases h : a.wanted.path = ""
  · rw [if_pos h]
    simp [accepted, h]
  · rw [if_neg h]
    simp [accepted, h]

theorem entries_foldl_after (calls : List Adding) (b : Builder) :
    (calls.foldl Builder.after b).entries = b.entries ++ accepted calls := by
  induction calls generalizing b with
  | nil => exact (List.append_nil _).symm
  | cons a calls ih =>
    rw [List.foldl_cons, ih, Builder.entries_after, List.append_assoc]
    simp only [accepted, List.map_cons, List.map_nil, ← List.filter_append, List.cons_append, List.nil_append]

/-- (1) What is collected is what was accepted, in order. -/
theorem entries_collect (calls : List Adding) : (collect calls).entries = accepted calls :=
  entries_foldl_after calls .empty

/-- An entry that has data is a file. -/
def Entry.IsTrimmed (e : Entry) : Prop := e.kind ≠ .file → e.data = []

theorem Adding.isTrimmed_wanted (a : Adding) : a.wanted.IsTrimmed := by
  intro h
  cases a with
  | entry e => exact if_neg h
  | file now path data => exact absurd rfl h
  | fileWithPermissions now path data permissions => exact absurd rfl h
  | directory now path => rfl
  | symlink now path target => rfl

/-- (2) Only files have data. -/
theorem isTrimmed_of_mem_accepted {calls : List Adding} {e : Entry} (he : e ∈ accepted calls) : e.IsTrimmed := by
  obtain ⟨a, -, rfl⟩ := List.mem_map.mp (List.mem_filter.mp he).1
  exact a.isTrimmed_wanted

end FlatPackage.Package
