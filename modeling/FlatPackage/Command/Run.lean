/-
  FlatPackage.Command.Run — what each command does.

  The commands that write a file work out everything first and write last, so a command
  that fails earlier leaves the host as it was. The listing prints as it goes: what it
  has printed before a fault stays printed.
-/

import FlatPackage.Checksum.Sha256
import FlatPackage.Command.Line
import FlatPackage.Command.Options
import FlatPackage.Command.World
import FlatPackage.Package.Builder
import FlatPackage.Package.Reader

namespace FlatPackage.Command

open Container (Archive Header Session)
open Host (Descriptor)
open Package (Builder Entry Reader.extractPayload Reader.openPayload)

variable {σ : Type}

def usage : String :=
  "Usage:\n" ++
  "  xpkg help\n" ++
  "  xpkg create  -i <directory> -o <file.pkg> [-v]\n" ++
  "  xpkg list    -i <file.pkg> [--digest] [-v]\n" ++
  "  xpkg payload -i <file.pkg> -o <payload>\n" ++
  "  xpkg encode  -i <file> -o <stream> [--chunk-size <bytes>]\n" ++
  "  xpkg decode  -i <stream> -o <file>\n" ++
  "  xpkg info    -i <file>\n\n" ++
  "Notes:\n" ++
  "  - A package is a xar archive whose Payload entry is a pbzx stream\n" ++
  "    wrapping a cpio archive of the installed files.\n" ++
  "  - The default chunk size is 1 MiB, matching Apple's tooling.\n"

/-! ## Creating -/

/-- The package entry of a node, a file's with its contents. -/
def entryOf (d : Descriptor) : Run σ Entry := do
  let e : Entry := ⟨d.relative, d.kind, [], d.permissions, d.mtime, d.target⟩
  if d.kind = .file then
    let opened ← Run.look (Host.openFile d.absolute)
    return { e with data := ← Run.look (Host.readOpened opened) }
  else return e

/-- Adds the nodes in order; what is no file, directory or symlink is left out. -/
def collect (verbose : Bool) : List Descriptor → Builder → Run σ Builder
  | [], b => return b
  | d :: rest, b => do
    let e ← entryOf d
    if d.kind = .other then
      Run.note ("skipping " ++ d.relative ++ ": not a regular file, directory or symlink\n")
      collect verbose rest b
    else
      if verbose then Run.say ("adding " ++ d.relative ++ "\n")
      let b ← (b.add e : Except Fault Builder)
      collect verbose rest b

def create (A : Archive σ) (codec : Stream.Codec) (o : Options) : Run σ Unit := do
  let root ← Run.look (Host.openDirectory o.input)
  let found ← Run.look (Host.list root true)
  let b ← collect o.verbose found .empty
  Run.change (Host.ensureParent o.output)
  Run.calls (b.write A codec (← Run.now) o.output)
  Run.say ("Packaged " ++ toString b.size ++ " entries into " ++ o.output ++ "\n")

/-! ## Listing -/

/-- Passes over an entry's body, and gives the rest of its line: its digest, if that is wanted. -/
def passBody (A : Archive σ) (sum : Bytes → String) (wanted : Bool) (s : σ) : Except Fault (List Piece) × σ :=
  if wanted then
    let (body, t) := A.answer (.readAll .cpio) s
    (body.map fun body => [.text (sum body), .text "\n"], t)
  else
    let (done, t) := A.answer (.skip .cpio) s
    (done.map fun _ => [.text "\n"], t)

theorem left_passBody (A : Archive σ) (sum : Bytes → String) (wanted : Bool) (s : σ) :
    A.left .cpio (passBody A sum wanted s).2 ≤ A.left .cpio s := by
  simp only [passBody]
  split
  · exact A.left_body rfl
  · exact A.left_body rfl

/-- Prints a line for each entry that is still to come, and counts them on from `count`. -/
def listEntries (A : Archive σ) (sum : Bytes → String) (digest : Bool) (layout : Layout) (count : Nat) (w : World σ) :
    Except Fault Nat × World σ :=
  match _ : A.answer (.next .cpio) w.archive with
  | (.error f, s) => (.error f, { w with archive := s })
  | (.ok none, s) => (.ok count, { w with archive := s })
  | (.ok (some h), s) =>
    let (front, layout) := layout.print (Line.start digest h)
    match _ : passBody A sum (Line.wantsDigest digest h) s with
    | (.error f, t) => (.error f, { w with archive := t, out := w.out ++ front })
    | (.ok rest, t) =>
      let (back, layout) := layout.print rest
      listEntries A sum digest layout (count + 1) { w with archive := t, out := w.out ++ front ++ back }
termination_by A.left .cpio w.archive
decreasing_by
  have shrinks := left_passBody A sum (Line.wantsDigest digest h) s
  rw [show passBody A sum _ s = _ by assumption] at shrinks
  exact Nat.lt_of_le_of_lt shrinks (A.left_next (by assumption))

/-- The listing of a package, with `sum` for the digest of a body. -/
def list (A : Archive σ) (codec : Stream.Codec) (sum : Bytes → String) (o : Options) : Run σ Unit := do
  let payload ← Run.calls (Reader.extractPayload A o.input)
  if o.verbose then Run.note ("payload: " ++ toString payload.length ++ " bytes\n")
  Run.calls (Reader.openPayload A codec payload)
  let count ← listEntries A sum o.digest .plain 0
  if o.verbose then Run.note ("entries: " ++ toString count ++ "\n")

/-! ## Streams -/

def payload (A : Archive σ) (o : Options) : Run σ Unit := do
  let payload ← Run.calls (Reader.extractPayload A o.input)
  Run.change (Host.save o.output payload)
  Run.say ("Wrote " ++ toString payload.length ++ " payload bytes to " ++ o.output ++ "\n")

def encode (codec : Stream.Codec) (o : Options) : Run σ Unit := do
  let data ← Run.look (Host.load o.input)
  let stream ← (Stream.encode codec o.chunkSize data : Except Fault Bytes)
  Run.change (Host.save o.output stream)
  Run.say ("Encoded " ++ toString data.length ++ " bytes into " ++ toString stream.length ++ " bytes\n")

def decode (codec : Stream.Codec) (o : Options) : Run σ Unit := do
  let stream ← Run.look (Host.load o.input)
  let data ← (Stream.decode codec stream : Except Fault Bytes)
  Run.change (Host.save o.output data)
  Run.say ("Decoded " ++ toString stream.length ++ " bytes into " ++ toString data.length ++ " bytes\n")

def info (o : Options) : Run σ Unit := do
  let data ← Run.look (Host.load o.input)
  if Stream.isStream data then
    let chunkSize ← (Stream.readHeader data : Except Fault UInt64)
    Run.say (o.input ++ ": pbzx stream, chunk size " ++ toString chunkSize.toNat ++ ", " ++
      toString data.length ++ " bytes\n")
  else Run.say (o.input ++ ": not a pbzx stream\n")

/-! ## A command line -/

def act (A : Archive σ) (codec : Stream.Codec) (o : Options) : Action → Run σ Unit
  | .create => create A codec o
  | .list => list A codec Checksum.Sha256.hexDigest o
  | .payload => payload A o
  | .encode => encode codec o
  | .decode => decode codec o
  | .info => info o

def perform (A : Archive σ) (codec : Stream.Codec) (words : List String) : Run σ Unit := do
  match ← (read words : Except Fault Request) with
  | .help => Run.say usage
  | .act a o => act A codec o a

/-- Runs a command line: the exit status, and the world with a line about the fault, if any. -/
def run (A : Archive σ) (codec : Stream.Codec) (words : List String) (w : World σ) : Nat × World σ :=
  match perform A codec words w with
  | (.ok (), w) => (0, w)
  | (.error f, w) => (1, { w with err := w.err ++ f.report })

end FlatPackage.Command
