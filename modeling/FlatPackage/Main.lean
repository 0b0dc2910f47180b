/-
  FlatPackage.Main — the command line.

  The command itself is `Command.run`, on a host that has nothing but the input file.
  What it writes is carried over to the file system afterwards, and what it prints is
  printed. No container library is linked in, so the commands that need one say so.
-/

import FlatPackage.Command.Run
import FlatPackage.Host.Setup

namespace FlatPackage.Main

def library : Container.Archive Unit := .absent "no container library is linked in"

def here : Place := ["here"]

/-- The host as far as a command reads it: a file, a directory or nothing at the input's path. -/
def hostFor (path : String) : IO Host := do
  let host := (Host.bare here ⟨0, 0⟩).addDirectory (Path.parent path) Host.newDirectory
  try return host.addFile path (← IO.FS.readBinFile path).toList Host.newFile
  catch _ =>
    try
      if ← (← IO.FS.realPath path).isDir then return host.addDirectory path Host.newDirectory
      else return host
    catch _ => return host

/-- Writes one file that the command has written. -/
def carryOver (path : String) (data : Bytes) : IO Unit := do
  let up := Path.parent path
  if up ≠ "" then IO.FS.createDirAll up
  IO.FS.writeBinFile path (data.foldl ByteArray.push .empty)

/-- What a command line reads and what it writes. -/
def files (words : List String) : String × String :=
  match Command.read words with
  | .ok (.act a o) => (o.input, if a.needsOutput then o.output else "")
  | _ => ("", "")

def perform (words : List String) : IO UInt32 := do
  let (input, output) := files words
  let (code, w) := Command.run library .xz words ⟨← hostFor input, (), "", ""⟩
  try
    if code = 0 ∧ output ≠ "" then
      if let .ok data := w.host.load output then carryOver output data
    (← IO.getStdout).putStr w.out
    (← IO.getStderr).putStr w.err
    return code.toUInt32
  catch _ =>
    (← IO.getStderr).putStr (Fault.cannotOpenForWriting output).report
    return 1

end FlatPackage.Main

def main (words : List String) : IO UInt32 := FlatPackage.Main.perform words
