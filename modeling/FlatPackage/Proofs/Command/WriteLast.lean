/-
  FlatPackage.Proofs.Command.WriteLast — the commands that write one file compute first and write last.

  What `payload`, `encode` and `decode` write is worked out from the host and the container library
  alone (`contents`). Only then is anything done to the host, so there are three ways to end
  (`Ended`): before the write, with the host as it was; during it, with directories made
  perhaps; after it, with the output leading to what was worked out.

  Proved:
  (1) `ended_run`: a command line for one of these commands ends in one of the three ways.
  (2) `run_in_place`: where the output is a file or a free name, what was worked out is written.
  (3) `file_commands_write_last`: both, and that decoding undoes encoding, whether the file is written
      over or others are.
  Trace: a file that is encoded over itself through a link (`a_file_encoded_over_itself`).
-/

import FlatPackage.Command.Run
import FlatPackage.Host.Setup
import FlatPackage.Proofs.Command.ChunkSize
import FlatPackage.Proofs.Command.Performing
import FlatPackage.Proofs.Host.Saving
import FlatPackage.Proofs.Stream.RoundTrip

namespace FlatPackage.Command

open Container (Archive)
open Container.Session (bind_of_error bind_of_ok)
open Host (Grown Saved TakesFile WriteFault)
open Package (Reader.extractPayload)

variable {σ : Type} {A : Archive σ} {codec : Stream.Codec} {words : List String} {a : Action} {o : Options} {w : World σ}

/-! ## (1) What is written -/

/-- Whether a command writes one file. -/
def Action.WritesFile (a : Action) : Prop := a = .payload ∨ a = .encode ∨ a = .decode

/-- What a command writes, and the state in which working it out leaves the container library. -/
def contents (A : Archive σ) (codec : Stream.Codec) (o : Options) (w : World σ) : Action → Except Fault Bytes × σ
  | .payload => Reader.extractPayload A o.input w.archive
  | .encode => (w.host.load o.input >>= Stream.encode codec o.chunkSize, w.archive)
  | .decode => (w.host.load o.input >>= Stream.decode codec, w.archive)
  | _ => (.ok [], w.archive)

/-- Writing the file and saying so, which is how each of the commands ends. -/
def finish (o : Options) (data : Bytes) (line : String) : Run σ Unit := do
  Run.change (Host.save o.output data)
  Run.say line

theorem finish_of_error {data : Bytes} {line : String} {f : Fault} {h : Host}
    (hs : Host.save o.output data w.host = (.error f, h)) :
    finish o data line w = (.error f, { w with host := h }) := by
  refine bind_of_error ?_
  rw [Run.change, hs]

theorem finish_of_ok {data : Bytes} {line : String} {h : Host} (hs : Host.save o.output data w.host = (.ok (), h)) :
    finish o data line w = (.ok (), { w with host := h, out := w.out ++ line }) := by
  have hc : Run.change (Host.save o.output data) w = (.ok (), { w with host := h }) := by
    rw [Run.change, hs]
  exact bind_of_ok hc

/-- Encoding and decoding: a file is made of the octets of another. -/
def transform (o : Options) (make : Bytes → Except Fault Bytes) (line : Bytes → Bytes → String) : Run σ Unit := do
  let data ← Run.look (Host.load o.input)
  let made ← (make data : Except Fault Bytes)
  finish o made (line data made)

section Transform

variable {make : Bytes → Except Fault Bytes} {line : Bytes → Bytes → String}

theorem transform_of_error {f : Fault} (h : w.host.load o.input >>= make = .error f) :
    transform o make line w = (.error f, w) := by
  cases hl : w.host.load o.input with
  | error e =>
    rw [hl] at h
    cases h
    exact bind_of_error (show Run.look (Host.load o.input) w = _ by rw [Run.look, hl])
  | ok data =>
    rw [hl] at h
    have hlook : Run.look (Host.load o.input) w = (.ok data, w) := by rw [Run.look, hl]
    have hmake : (liftM (make data) : Run σ Bytes) w = (.error f, w) := by
      rw [show make data = .error f from h]
      rfl
    exact (bind_of_ok hlook).trans (bind_of_error hmake)

theorem transform_of_ok {made : Bytes} (line : Bytes → Bytes → String) (h : w.host.load o.input >>= make = .ok made) :
    ∃ data, transform o make line w = finish o made (line data made) w := by
  cases hl : w.host.load o.input with
  | error e =>
    rw [hl] at h
    cases h
  | ok data =>
    rw [hl] at h
    have hlook : Run.look (Host.load o.input) w = (.ok data, w) := by rw [Run.look, hl]
    have hmake : (liftM (make data) : Run σ Bytes) w = (.ok made, w) := by
      rw [show make data = .ok made from h]
      rfl
    exact ⟨data, (bind_of_ok hlook).trans (bind_of_ok hmake)⟩

end Transform

/-- Where there is nothing to write the command has done nothing but ask the container library. -/
theorem act_of_error {f : Fault} {s : σ} (ha : a.WritesFile) (hc : contents A codec o w a = (.error f, s)) :
    act A codec o a w = (.error f, { w with archive := s }) := by
  rcases ha with rfl | rfl | rfl
  · have hcalls : Run.calls (Reader.extractPayload A o.input) w = (.error f, { w with archive := s }) := by
      rw [Run.calls, show Reader.extractPayload A o.input w.archive = (.error f, s) from hc]
    exact bind_of_error hcalls
  · obtain ⟨hmake, hs⟩ := Prod.mk.inj hc
    rw [← hs]
    exact transform_of_error hmake
  · obtain ⟨hmake, hs⟩ := Prod.mk.inj hc
    rw [← hs]
    exact transform_of_error hmake

theorem act_of_ok {data : Bytes} {s : σ} (ha : a.WritesFile) (hc : contents A codec o w a = (.ok data, s)) :
    ∃ line, act A codec o a w = finish o data line { w with archive := s } := by
  rcases ha with rfl | rfl | rfl
  · have hcalls : Run.calls (Reader.extractPayload A o.input) w = (.ok data, { w with archive := s }) := by
      rw [Run.calls, show Reader.extractPayload A o.input w.archive = (.ok data, s) from hc]
    exact ⟨_, bind_of_ok hcalls⟩
  · obtain ⟨hmake, hs⟩ := Prod.mk.inj hc
    subst hs
    obtain ⟨input, h⟩ := transform_of_ok (fun data stream =>
      "Encoded " ++ toString data.length ++ " bytes into " ++ toString stream.length ++ " bytes\n") hmake
    exact ⟨_, h⟩
  · obtain ⟨hmake, hs⟩ := Prod.mk.inj hc
    subst hs
    obtain ⟨input, h⟩ := transform_of_ok (fun stream data =>
      "Decoded " ++ toString stream.length ++ " bytes into " ++ toString data.length ++ " bytes\n") hmake
    exact ⟨_, h⟩

/-! ## (2) The ways to end -/

/-- How a command ends that writes one file, by what it was to write. -/
inductive Ended (o : Options) (w : World σ) : Except Fault Bytes × σ → Nat × World σ → Prop
  /-- There is nothing to write: the host is as it was. -/
  | before (f : Fault) (s : σ) : Ended o w (.error f, s) (1, { w with archive := s, err := w.err ++ f.report })
  | during (data : Bytes) (s : σ) (f : Fault) (h : Host) : WriteFault o.output f → Grown o.output w.host h →
      Ended o w (.ok data, s) (1, { w with archive := s, host := h, err := w.err ++ f.report })
  | after (data : Bytes) (s : σ) (h : Host) (line : String) : Saved o.output data w.host h →
      Ended o w (.ok data, s) (0, { w with archive := s, host := h, out := w.out ++ line })

theorem ended_run (hread : read words = .ok (.act a o)) (ha : a.WritesFile) (w : World σ) :
    Ended o w (contents A codec o w a) (run A codec words w) := by
  rcases hc : contents A codec o w a with ⟨f | data, s⟩
  · rw [run_of_error hread (act_of_error ha hc)]
    exact .before f s
  · obtain ⟨line, hact⟩ := act_of_ok ha hc
    rcases Host.save_cases o.output data w.host with ⟨f, h, hs, hf, g⟩ | ⟨h, hs, hsaved⟩
    · rw [run_of_error hread (hact.trans (finish_of_error hs))]
      exact .during data s f h hf g
    · rw [run_of_ok hread (hact.trans (finish_of_ok hs))]
      exact .after data s h line hsaved

/-- Where the output leads to a file or to a free name, what was worked out is written. -/
theorem run_of_takesFile {data : Bytes} {s : σ} {spot : Tree.Spot} (hread : read words = .ok (.act a o))
    (ha : a.WritesFile) (hc : contents A codec o w a = (.ok data, s)) (hs : w.host.Sound)
    (hr : w.host.resolve true o.output = .ok spot) (hspot : TakesFile spot) :
    ∃ line, run A codec words w =
      (0, { w with archive := s, host := w.host.write spot data, out := w.out ++ line }) := by
  obtain ⟨line, hact⟩ := act_of_ok ha hc
  exact ⟨line, run_of_ok hread (hact.trans (finish_of_ok (Host.save_eq_write hs hr hspot data)))⟩

theorem sound_run (hread : read words = .ok (.act a o)) (ha : a.WritesFile) (hs : w.host.Sound) :
    (run A codec words w).2.host.Sound := by
  rcases hc : contents A codec o w a with ⟨f | data, s⟩
  · rw [run_of_error hread (act_of_error ha hc)]
    exact hs
  · obtain ⟨line, hact⟩ := act_of_ok ha hc
    have hsound := hs.save o.output data
    rcases hsave : Host.save o.output data w.host with ⟨f | _, h⟩
    · rw [hsave] at hsound
      rw [run_of_error hread (hact.trans (finish_of_error hsave))]
      exact hsound
    · rw [hsave] at hsound
      rw [run_of_ok hread (hact.trans (finish_of_ok hsave))]
      exact hsound

/-! ## (3) Encoding undone -/

/-- What is written for a file is a stream that decodes to the file. -/
theorem exists_stream (A : Archive σ) (codec : Stream.Codec) {data : Bytes} (hl : w.host.load o.input = .ok data) (hc : o.chunkSize ≠ 0)
    (hd : ∀ x ∈ Bytes.slices o.chunkSize.toNat data, codec.Restores x) :
    ∃ stream, contents A codec o w .encode = (.ok stream, w.archive) ∧ Stream.decode codec stream = .ok data := by
  have henc := Stream.encode_eq codec hc data
  have hdec := Stream.decode_packAll hc hd (t := []) (by decide)
  rw [List.append_nil] at hdec
  refine ⟨_, ?_, hdec⟩
  rw [contents, hl]
  exact congrArg (·, w.archive) henc

theorem contents_decode {data stream : Bytes} (hl : w.host.load o.input = .ok stream)
    (hd : Stream.decode codec stream = .ok data) : contents A codec o w .decode = (.ok data, w.archive) := by
  rw [contents, hl]
  exact congrArg (·, w.archive) hd

/-- Over one file the stream is written and then the file again. -/
theorem run_over_itself {words' : List String} {o' : Options} {data : Bytes} {p : Place} {n : Tree.Node}
    (hread : read words = .ok (.act .encode o)) (hread' : read words' = .ok (.act .decode o')) (hs : w.host.Sound)
    (hd : ∀ x ∈ Bytes.slices o.chunkSize.toNat data, codec.Restores x) (hn : n.content = .file data)
    (hf : ∀ s ∈ [o.input, o.output, o'.input, o'.output], w.host.find true s = .ok (p, n)) :
    ∃ w₁ w₂, run A codec words w = (0, w₁) ∧ run A codec words' w₁ = (0, w₂) ∧
      w₂.host = w.host.put p (.file data) n.permissions := by
  have hspot : TakesFile ⟨p, some n⟩ := fun m hm => ⟨data, Option.some.inj hm ▸ hn⟩
  have hr : ∀ s ∈ [o.input, o.output, o'.input, o'.output], w.host.resolve true s = .ok ⟨p, some n⟩ :=
    fun s hm => Host.find_eq_ok_iff.mp (hf s hm)
  obtain ⟨stream, hc, hdec⟩ := exists_stream A codec (w := w) (Host.load_of_find (hf o.input (by simp)) hn)
    (chunkSize_ne_zero hread) hd
  obtain ⟨line, hrun⟩ := run_of_takesFile hread (.inr (.inl rfl)) hc hs (hr o.output (by simp)) hspot
  have hs₁ : (w.host.write ⟨p, some n⟩ stream).Sound := hs.write (hr o.output (by simp)) hspot stream
  have hf₁ : ∀ s ∈ [o'.input, o'.output], (w.host.write ⟨p, some n⟩ stream).find true s =
      .ok (p, ⟨.file stream, n.permissions, w.host.clocks.system⟩) :=
    fun s hm => Host.find_write (hr s (by simp at hm; rcases hm with rfl | rfl <;> simp)) hspot stream
  let w₁ : World σ := { w with host := w.host.write ⟨p, some n⟩ stream, out := w.out ++ line }
  have hin : w₁.host.load o'.input = .ok stream := Host.load_of_find (hf₁ o'.input (by simp)) rfl
  obtain ⟨line', hrun'⟩ := run_of_takesFile (w := w₁) hread' (.inr (.inr rfl)) (contents_decode (A := A) hin hdec) hs₁
    (Host.find_eq_ok_iff.mp (hf₁ o'.output (by simp))) fun m hm => ⟨stream, by rw [← Option.some.inj hm]⟩
  exact ⟨w₁, _, hrun, hrun', Host.put_put (Host.at?_of_find (hf o.input (by simp))) _ _⟩

/-- For every host, every command line for `payload`, `encode` or `decode` and every archive and codec:
    a command that fails before its write leaves the host as it was, and one that succeeds leaves the output
    with what was worked out and no other node changed, but for new directories above the output and the
    times of directories that got a name. Where the output leads to a file or to a free name, it succeeds.
    What was encoded is decoded to what it was, by way of other files, or of the one file itself. -/
theorem file_commands_write_last (A : Archive σ) (codec : Stream.Codec) {words : List String} {a : Action} {o : Options}
    (hread : read words = .ok (.act a o)) (ha : a.WritesFile) (w : World σ) :
    Ended o w (contents A codec o w a) (run A codec words w) ∧
    (∀ data s spot, contents A codec o w a = (.ok data, s) → w.host.Sound → w.host.resolve true o.output = .ok spot →
      TakesFile spot → ∃ line, run A codec words w =
        (0, { w with archive := s, host := w.host.write spot data, out := w.out ++ line })) ∧
    (w.host.Sound → (run A codec words w).2.host.Sound) ∧
    (a = .encode → ∀ data, w.host.load o.input = .ok data →
      (∀ x ∈ Bytes.slices o.chunkSize.toNat data, codec.decompress (codec.compress x) = .ok x) →
      ∀ words' o', read words' = .ok (.act .decode o') →
        (∀ w₁, run A codec words w = (0, w₁) → w₁.host.find true o'.input = w₁.host.find true o.output →
          Ended o' w₁ (.ok data, w₁.archive) (run A codec words' w₁)) ∧
        (∀ p n, w.host.Sound → n.content = .file data →
          (∀ s ∈ [o.input, o.output, o'.input, o'.output], w.host.find true s = .ok (p, n)) →
          ∃ w₁ w₂, run A codec words w = (0, w₁) ∧ run A codec words' w₁ = (0, w₂) ∧
            w₂.host = w.host.put p (.file data) n.permissions)) := by
  refine ⟨ended_run hread ha w, fun data s spot hc hs hr hspot => run_of_takesFile hread ha hc hs hr hspot,
    sound_run hread ha, ?_⟩
  rintro rfl data hl hd words' o' hread'
  refine ⟨fun w₁ hrun hsame => ?_, fun p n hs hn hf => run_over_itself hread hread' hs hd hn hf⟩
  obtain ⟨stream, hc, hdec⟩ := exists_stream A codec hl (chunkSize_ne_zero hread) hd
  have hended : Ended o w (contents A codec o w .encode) (run A codec words w) := ended_run hread ha w
  rw [hc, hrun] at hended
  have hin : w₁.host.load o'.input = .ok stream := by
    cases hended with
    | after _ _ h line hsaved => exact Host.load_of_find_eq hsame hsaved.loads
  exact contents_decode (A := A) hin hdec ▸ ended_run hread' (.inr (.inr rfl)) w₁

/-- A host with a file and a link to it. -/
def linked : Host := ((Host.bare ["here"] ⟨0, 7⟩).addFile "f" [1, 2, 3, 1] 0o640).addLink "l" "f"

/-- A file is encoded over itself, read through a link to it, and decoded again through the link. -/
theorem a_file_encoded_over_itself :
    let data : Bytes := [1, 2, 3, 1]
    let file : Tree.Node := ⟨.file data, 0o640, 7⟩
    let codec : Stream.Codec := ⟨id, fun x => .ok x⟩
    let A : Archive Unit := .absent "no library"
    let w : World Unit := ⟨linked, (), "", ""⟩
    let o : Options := ⟨"l", "f", 3, false, false⟩
    let o' : Options := ⟨"f", "l", Stream.defaultChunkSize, false, false⟩
    let e := ["encode", "-i", "l", "-o", "f", "--chunk-size", "3"]
    let d := ["decode", "-i", "f", "-o", "l"]
    read e = .ok (.act .encode o) ∧ read d = .ok (.act .decode o') ∧ linked.Sound ∧ linked.load o.input = .ok data ∧
      (∀ s ∈ [o.input, o.output, o'.input, o'.output], linked.find true s = .ok (["here", "f"], file)) ∧
      ∃ stream line w₁ w₂, contents A codec o w .encode = (.ok stream, ()) ∧
        run A codec e w = (0, { w with host := linked.write ⟨["here", "f"], some file⟩ stream, out := line }) ∧
        run A codec e w = (0, w₁) ∧ Ended o' w₁ (.ok data, ()) (run A codec d w₁) ∧ run A codec d w₁ = (0, w₂) ∧
        w₂.host = linked.put ["here", "f"] (.file data) 0o640 := by
  intro data file codec A w o o' e d
  have he : read e = .ok (.act .encode o) := by rfl
  have hd : read d = .ok (.act .decode o') := by rfl
  have hs : linked.Sound := by decide
  have hfile : linked.find true "f" = .ok (["here", "f"], ⟨.file [1, 2, 3, 1], 0o640, 7⟩) := by rfl
  have hlink : linked.find true "l" = .ok (["here", "f"], ⟨.file [1, 2, 3, 1], 0o640, 7⟩) := by rfl
  have hf : ∀ s ∈ [o.input, o.output, o'.input, o'.output], linked.find true s = .ok (["here", "f"], file) := by
    intro s hm
    rcases List.mem_cons.mp hm with rfl | hm
    · exact hlink
    rcases List.mem_cons.mp hm with rfl | hm
    · exact hfile
    rcases List.mem_cons.mp hm with rfl | hm
    · exact hfile
    · exact List.mem_singleton.mp hm ▸ hlink
  have hl : linked.load o.input = .ok data := Host.load_of_find hlink rfl
  obtain ⟨-, hwrites, -, hundone⟩ := file_commands_write_last A codec he (.inr (.inl rfl)) w
  obtain ⟨hothers, hitself⟩ := hundone rfl data hl (fun _ _ => rfl) d o' hd
  obtain ⟨w₁, w₂, hrun, hrun', hhost⟩ := hitself ["here", "f"] file hs rfl hf
  obtain ⟨stream, hc, -⟩ := exists_stream A codec (w := w) (o := o) hl (by decide) (fun _ _ => rfl)
  obtain ⟨line, hrun''⟩ := hwrites stream () ⟨["here", "f"], some file⟩ hc hs
    (Host.find_eq_ok_iff.mp (hf "f" (by simp [o, o']))) (fun m hm => ⟨data, by rw [← Option.some.inj hm]⟩)
  exact ⟨he, hd, hs, hl, hf, stream, _, w₁, w₂, hc, hrun'', hrun, hothers w₁ hrun rfl, hrun', hhost⟩

end FlatPackage.Command
