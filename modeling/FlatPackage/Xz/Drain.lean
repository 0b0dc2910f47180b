/-
  FlatPackage.Xz.Drain — the loop that takes contents out of a decoder.

  A decoder is called again and again, with the input that it has not taken and with the
  room that is left in a buffer. A call may give some octets, take some input, do both or
  neither. Before a call the buffer is doubled if it is full, so no call is made without
  room. The loop asks nothing of the decoder: with one that never comes to an end it goes
  on for ever.
-/

import FlatPackage.Xz.Delivery
import FlatPackage.Xz.Scan

namespace FlatPackage.Xz

/-! ## Decoders -/

/-- How a call ends. -/
inductive Status where
  | going
  | ended
  | failed (flaw : Flaw)
  deriving DecidableEq, Repr

/-- What a call gives: how it ended, how much of the input it took, the octets for the room
    that it had, and the decoder as it is left. -/
structure Answer (σ : Type) where
  status : Status
  taken : Nat
  octets : Bytes
  next : σ

/-- A decoder is called with input, with room for so many octets and in a state. -/
abbrev Decoder (σ : Type) := Bytes → Nat → σ → Answer σ

namespace Decoder

/-- Hands out contents that have been read, as much as there is room for. -/
def hand (taken room : Nat) (contents : Bytes) : Answer (Option Bytes) :=
  ⟨if contents.length ≤ room then .ended else .going, taken, contents.take room, some (contents.drop room)⟩

/-- The decoder that reads all of its input when it is first called. -/
def ofReader (read : Bytes → Except Flaw Bytes) : Decoder (Option Bytes)
  | input, room, none =>
    match read input with
    | .ok contents => hand input.length room contents
    | .error f => ⟨.failed f, 0, [], none⟩
  | _, room, some contents => hand 0 room contents

end Decoder

/-! ## The loop -/

/-- The loop between two calls: its buffer, of which the first `given` octets are contents, the
    input that is left and the decoder. -/
structure Drain (σ : Type) where
  buffer : Bytes
  given : Nat
  input : Bytes
  decoder : σ

namespace Drain

variable {σ : Type}

def start (payload : Bytes) (decoder : σ) : Drain σ :=
  ⟨Bytes.zeros (Delivery.start payload.length).buffer, 0, payload, decoder⟩

/-- Doubles the buffer if it is full. -/
def grow (d : Drain σ) : Drain σ :=
  if d.given = d.buffer.length then { d with buffer := Bytes.resize (2 * d.buffer.length) d.buffer } else d

def room (d : Drain σ) : Nat := d.buffer.length - d.given

/-- Puts an answer's octets behind those that were given before. -/
def store (d : Drain σ) (a : Answer σ) : Drain σ :=
  { buffer := Bytes.overwrite d.given a.octets d.buffer
    given := d.given + a.octets.length
    input := d.input.drop a.taken
    decoder := a.next }

def contents (d : Drain σ) : Bytes := Bytes.resize d.given d.buffer

/-- One call. -/
def turn (D : Decoder σ) (d : Drain σ) : Status × Drain σ :=
  let d := d.grow
  let a := D d.input d.room d.decoder
  (a.status, d.store a)

/-- One turn leads from `d` to `e`, and another has to follow. -/
def Next (D : Decoder σ) (e d : Drain σ) : Prop := turn D d = (.going, e)

/-- Calls the decoder until it ends or fails. Nothing is known of the result where that never happens. -/
def run (D : Decoder σ) : Drain σ → Except Flaw Bytes :=
  WellFounded.partialExtrinsicFix (Next D) fun d again =>
    match h : turn D d with
    | (.going, e) => again e h
    | (.ended, e) => .ok e.contents
    | (.failed f, _) => .error f

end Drain

end FlatPackage.Xz
