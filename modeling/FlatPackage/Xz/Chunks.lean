/-
  FlatPackage.Xz.Chunks — the chunked form in which a block holds its contents.

  Each chunk opens with a control octet: 0 ends the run, 1 and 2 are stored octets, and
  from 0x80 up LZMA symbols follow. The control octet also says what is forgotten: the
  dictionary (1, and from 0xE0 up), the statistics (from 0xA0 up), and whether new
  properties come with it (from 0xC0 up). A dictionary has to be started before
  anything else, and properties before the first LZMA chunk.
-/

import FlatPackage.Lzma.Decoder
import FlatPackage.Xz.Scan

namespace FlatPackage.Xz

open Lzma (Memory Props)

/-! ## Requests -/

/-- So many octets are asked for, request after request. -/
abbrev Requests := List Nat

namespace Requests

/-- All octets that are still asked for. -/
def total (r : Requests) : Nat := r.foldr (· + ·) 0

/-- The requests after `n` octets were given. One that is met stays until the next octet is given
    or until `next?` gives it up. -/
def spend : Nat → Requests → Requests
  | n, d :: r => if n ≤ d then (d - n) :: r else spend (n - d) r
  | _, [] => []

/-- The requests without the first one if that is met; nothing when there is no other. -/
def next? : Requests → Option Requests
  | [] => none
  | [0] => none
  | 0 :: r => some r
  | r => some r

end Requests

/-! ## Between two chunks -/

/-- The state between two chunks. Without requests, all there is is wanted. -/
structure Chunks where
  memory : Memory
  /-- No dictionary has been started yet. -/
  needsDictionary : Bool
  /-- The dictionary has been started and no properties have come since. -/
  needsProps : Bool
  requests : Option Requests

namespace Chunks

/-- How a reading of chunks stops: at the end mark, or when all that was asked for is given and
    what comes next cannot be read without giving more. -/
inductive Stop where
  | ended (out : ByteArray)
  | full (out : ByteArray)

def start (window : Nat) (requests : Option Requests) : Chunks :=
  { memory := ⟨⟨3, 0, 2⟩, #[], 0, 0, 0, 0, 0, .empty, 0, window⟩
    needsDictionary := true, needsProps := true, requests := requests }

/-- How many octets may still be given, if there is a limit. -/
def room (c : Chunks) : Option Nat := c.requests.map Requests.total

/-- The state after `n` octets were given, which are in `m`. -/
def give (c : Chunks) (n : Nat) (m : Memory) : Chunks :=
  { c with memory := m, requests := c.requests.map (Requests.spend n) }

abbrev Turn := Scan.Turn Chunks Stop

def pushAll (out : ByteArray) (s : Bytes) : ByteArray := s.foldl ByteArray.push out

/-! ## One chunk -/

/-- A stored chunk of `n` octets. -/
def stored (n : Nat) (c : Chunks) : Scan Turn :=
  let room := c.room.getD n
  if n ≤ room then do
    let data ← Scan.take n
    return .more (c.give n { c.memory with out := pushAll c.memory.out data })
  else fun s =>
    let data := s.take (room + 1)
    if data.length ≤ room then .error .truncated
    else .ok (.done (.full (pushAll c.memory.out (s.take room))), s.drop room)

/-- An LZMA chunk of `packed` octets that stands for `size`. One that needs an octet more than it
    has is at fault unless the input ends with it. -/
def coded (size packed : Nat) (c : Chunks) : Scan Turn := fun s =>
  let chunk := s.take packed
  let short := chunk.length < packed
  let beyond := s.drop packed
  match Lzma.decodeChunk c.memory size c.room chunk with
  | .finished m [] => if short then .error .corrupt else .ok (.more (c.give size m), beyond)
  | .finished _ (_ :: _) => .error .corrupt
  | .malformed => .error .corrupt
  | .starved => .error (if beyond.isEmpty then .truncated else .corrupt)
  | .overfull m unused => .ok (.done (.full m.out), unused ++ beyond)

/-- Two octets, most significant first, that stand for one less. -/
def size16 : Scan Nat := do
  let high ← Scan.octet
  let low ← Scan.octet
  return 256 * high.toNat + low.toNat + 1

/-- Whether a control octet starts a dictionary. -/
def startsDictionary (control : UInt8) : Bool := control ≥ 0xE0 || control == 1

/-- Starts a dictionary at the end of what there is, which gives up a request that is met. -/
def newDictionary? (c : Chunks) : Option Chunks :=
  let c := { c with
    memory := { c.memory with base := c.memory.out.size }
    needsDictionary := false, needsProps := true }
  match c.requests with
  | none => some c
  | some r => r.next?.map fun r => { c with requests := some r }

/-- New properties, or fresh statistics under the old ones, or neither. -/
def onStatistics (control : UInt8) (c : Chunks) : Scan Chunks :=
  if control ≥ 0xC0 then do
    match Props.ofByte? (← Scan.octet) with
    | some p => return { c with memory := c.memory.resetState p, needsProps := false }
    | none => Scan.fail .corrupt
  else if control ≥ 0xA0 then
    return { c with memory := c.memory.resetState c.memory.props }
  else return c

/-- The rest of a chunk with this control octet. -/
def body (control : UInt8) (c : Chunks) : Scan Turn := do
  if control ≥ 0x80 then
    Scan.demand (!c.needsProps || control ≥ 0xC0) .corrupt
    let low ← size16
    let packed ← size16
    let c ← onStatistics control c
    coded ((control.toNat % 32) * 65536 + low) packed c
  else
    Scan.demand (control ≤ 2) .corrupt
    let n ← size16
    stored n c

def turn (c : Chunks) : Scan Turn := do
  let control ← Scan.octet
  if control = 0 then return .done (.ended c.memory.out)
  else if startsDictionary control then
    match c.newDictionary? with
    | some c => body control c
    | none => return .done (.full c.memory.out)
  else
    Scan.demand (!c.needsDictionary) .corrupt
    body control c

/-- All chunks up to the end mark, or as many as are asked for. -/
def read (window : Nat) (requests : Option Requests) : Scan Stop :=
  Scan.repeated turn (start window requests)

end Chunks

end FlatPackage.Xz
