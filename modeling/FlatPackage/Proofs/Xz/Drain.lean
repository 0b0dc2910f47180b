/-
  FlatPackage.Proofs.Xz.Drain — all that a decoder has to give comes out of the loop.

  Of a decoder only what it keeps to is known (`Keeps`). It has so many octets to give and one way
  to end; the octets come in order and no more of them than there is room for, in pieces of any size;
  it ends only when all of them have been given; and it does not stand still twice in a row. It
  promises nothing about a call without room.

  Between two calls the loop has in its buffer what was given so far (`Holds`). A call gives octets or
  takes input, of both of which there is only so much, or else the next call does or is the last.

  Proved:
  (1) `Holds.turn`: one turn is one call with room, and puts what it gives behind what there was.
  (2) `acc_of_keeps`, `run_of_keeps`: the loop comes to an end, with all octets or the decoder's flaw.
  (3) `drained_whole`: both, and what holds before each call.
  (4) `keeps_ofReader`, `decompress_eq`: a decoder that reads its input at once keeps to this, so the
      contents of files are what the reader finds.
  Trace: contents for which the buffer is doubled twice (`two_doublings`).
-/

import FlatPackage.Fault
import FlatPackage.Xz.File
import Mathlib.Algebra.Group.Nat.Defs

namespace FlatPackage.Xz

variable {σ : Type} {D : Decoder σ} {payload w : Bytes} {s : σ} {outcome : Except Flaw Unit}

/-! ## Decoders that keep to their contract -/

/-- Neither input was taken nor anything given. -/
def Answer.Idle (a : Answer σ) (input : Bytes) : Prop := input.drop a.taken = input ∧ a.octets = []

/-- Calls with room that the decoder was not done after: the octets given by all of them, the input that they
    left and the state they left the decoder in. -/
inductive Calls (D : Decoder σ) (payload : Bytes) (s : σ) : Bytes → Bytes → σ → Prop
  | opening : Calls D payload s [] payload s
  | call {out input : Bytes} {t : σ} (room : Nat) : Calls D payload s out input t → 0 < room →
      (D input room t).status = .going →
      Calls D payload s (out ++ (D input room t).octets) (input.drop (D input room t).taken) (D input room t).next

/-- On this payload the decoder has `w` to give and ends in this way. -/
structure Keeps (D : Decoder σ) (payload : Bytes) (s : σ) (w : Bytes) (outcome : Except Flaw Unit) : Prop where
  fits : ∀ {out input t room}, Calls D payload s out input t → 0 < room → (D input room t).octets.length ≤ room
  inOrder : ∀ {out input t room}, Calls D payload s out input t → 0 < room → out ++ (D input room t).octets <+: w
  ended : ∀ {out input t room}, Calls D payload s out input t → 0 < room → (D input room t).status = .ended →
    out ++ (D input room t).octets = w ∧ outcome = .ok ()
  failed : ∀ {out input t room f}, Calls D payload s out input t → 0 < room → (D input room t).status = .failed f →
    outcome = .error f
  /-- Of two calls in a row that the decoder is not done after, one takes input or gives octets. -/
  moves : ∀ {out input t room}, Calls D payload s out input t → 0 < room → (D input room t).status = .going →
    (D input room t).Idle input → ∀ {room'}, 0 < room' →
      (D input room' (D input room t).next).status = .going → ¬ (D input room' (D input room t).next).Idle input

namespace Drain

variable {d : Drain σ}

/-! ## (1) One turn -/

/-- The loop after any number of turns that the decoder was not done after. -/
inductive Reached (D : Decoder σ) (d : Drain σ) : Drain σ → Prop
  | start : Reached D d d
  | turn {e : Drain σ} : Reached D d e → (turn D e).1 = .going → Reached D d (turn D e).2

/-- What there is between two calls: the octets given so far are at the front of the buffer, which has been
    doubled some number of times. -/
structure Holds (D : Decoder σ) (payload : Bytes) (s : σ) (d : Drain σ) : Prop where
  calls : Calls D payload s (d.buffer.take d.given) d.input d.decoder
  given : d.given ≤ d.buffer.length
  doubled : ∃ k, d.buffer.length = max 65536 (4 * payload.length) * 2 ^ k

theorem holds_start (D : Decoder σ) (payload : Bytes) (s : σ) : Holds D payload s (start payload s) where
  calls := .opening
  given := Nat.zero_le _
  doubled := ⟨0, by simp [start, Bytes.zeros, Delivery.start]⟩

/-- What growing leaves as it is, and that there is room afterwards. -/
structure Grown (d g : Drain σ) : Prop where
  given : g.given = d.given
  input : g.input = d.input
  decoder : g.decoder = d.decoder
  octets : g.buffer.take g.given = d.buffer.take d.given
  room : g.given < g.buffer.length

namespace Holds

theorem size_pos (hd : Holds D payload s d) : 0 < d.buffer.length := by
  obtain ⟨k, hk⟩ := hd.doubled
  have hpow : 0 < 2 ^ k := Nat.two_pow_pos k
  rw [hk]
  exact Nat.mul_pos (by omega) hpow

theorem grow (hd : Holds D payload s d) : Grown d d.grow ∧ ∃ k, d.grow.buffer.length = max 65536 (4 * payload.length) * 2 ^ k := by
  have hpos := hd.size_pos
  have hle := hd.given
  unfold Drain.grow
  split
  · rename_i hfull
    have htwice : d.given ≤ 2 * d.buffer.length := by omega
    refine ⟨⟨rfl, rfl, rfl, Bytes.take_resize htwice hle, ?_⟩, ?_⟩
    · show d.given < (Bytes.resize _ _).length
      rw [Bytes.length_resize]
      omega
    · obtain ⟨k, hk⟩ := hd.doubled
      refine ⟨k + 1, ?_⟩
      show (Bytes.resize _ _).length = _
      rw [Bytes.length_resize, hk, Nat.pow_succ, Nat.mul_left_comm, Nat.mul_comm 2 (2 ^ k)]
  · exact ⟨⟨rfl, rfl, rfl, rfl, by omega⟩, hd.doubled⟩

theorem room_pos (hd : Holds D payload s d) : 0 < d.grow.room := by
  have hroom := hd.grow.1.room
  unfold room
  omega

theorem turn_eq (hd : Holds D payload s d) :
    turn D d = ((D d.input d.grow.room d.decoder).status, d.grow.store (D d.input d.grow.room d.decoder)) := by
  rw [turn, hd.grow.1.input, hd.grow.1.decoder]

/-- What was given by a call is behind what was given before, and nothing else has changed in front. -/
theorem take_turn (hk : Keeps D payload s w outcome) (hd : Holds D payload s d) :
    (turn D d).2.buffer.take (turn D d).2.given = d.buffer.take d.given ++ (D d.input d.grow.room d.decoder).octets ∧
      (turn D d).2.given = d.given + (D d.input d.grow.room d.decoder).octets.length ∧
      (turn D d).2.given ≤ (turn D d).2.buffer.length ∧ (turn D d).2.buffer.length = d.grow.buffer.length := by
  obtain ⟨hg, -⟩ := hd.grow
  have hfits := hk.fits hd.calls hd.room_pos
  have hroom : d.grow.given + (D d.input d.grow.room d.decoder).octets.length ≤ d.grow.buffer.length := by
    have hlt := hg.room
    have hroom : d.grow.room = d.grow.buffer.length - d.grow.given := rfl
    omega
  rw [hd.turn_eq]
  refine ⟨?_, ?_, ?_, Bytes.length_overwrite hroom⟩
  · show (Bytes.overwrite _ _ _).take (_ + _) = _
    rw [Bytes.take_overwrite (Nat.le_of_lt hg.room), hg.octets]
  · show _ + _ = _
    rw [hg.given]
  · show _ + _ ≤ (Bytes.overwrite _ _ _).length
    rw [Bytes.length_overwrite hroom]
    exact hroom

protected theorem turn (hk : Keeps D payload s w outcome) (hd : Holds D payload s d) (hgo : (turn D d).1 = .going) :
    Holds D payload s (turn D d).2 := by
  obtain ⟨htake, -, hle, hsize⟩ := hd.take_turn hk
  refine ⟨?_, hle, hsize ▸ hd.grow.2⟩
  rw [htake]
  rw [hd.turn_eq] at hgo ⊢
  have hcall := Calls.call d.grow.room hd.calls hd.room_pos hgo
  show Calls D payload s _ (d.grow.input.drop _) _
  rw [hd.grow.1.input]
  exact hcall

end Holds

theorem Reached.holds (hk : Keeps D payload s w outcome) (h : Reached D (Drain.start payload s) d) : Holds D payload s d := by
  induction h with
  | start => exact holds_start D payload s
  | turn _ hgo ih => exact ih.turn hk hgo

/-! ## (2) The loop -/

/-- The octets that may still be given and the input that is left. -/
def left (w : Bytes) (d : Drain σ) : Nat := d.input.length + (w.length - d.given)

/-- A turn that is not the last and does not stand still leaves less to be done. -/
theorem left_turn_lt (hk : Keeps D payload s w outcome) (hd : Holds D payload s d)
    (hmove : ¬ (D d.input d.grow.room d.decoder).Idle d.input) : left w (turn D d).2 < left w d := by
  obtain ⟨-, hgiven, -, -⟩ := hd.take_turn hk
  have hinput : (turn D d).2.input = d.input.drop (D d.input d.grow.room d.decoder).taken := by
    rw [hd.turn_eq]
    show d.grow.input.drop _ = _
    rw [hd.grow.1.input]
  have hlen := (hk.inOrder hd.calls hd.room_pos).length_le
  rw [List.length_append, List.length_take, Nat.min_eq_left hd.given] at hlen
  unfold left
  rw [hgiven, hinput, List.length_drop]
  by_cases hoct : (D d.input d.grow.room d.decoder).octets = []
  · have htaken : d.input.drop (D d.input d.grow.room d.decoder).taken ≠ d.input := fun he => hmove ⟨he, hoct⟩
    have hpos : 0 < (D d.input d.grow.room d.decoder).taken ∧ 0 < d.input.length := by
      constructor
      · exact Nat.pos_of_ne_zero fun h0 => htaken (by rw [h0, List.drop_zero])
      · exact Nat.pos_of_ne_zero fun h0 => htaken (by rw [List.length_eq_zero_iff.mp h0, List.drop_nil])
    omega
  · have hpos : 0 < (D d.input d.grow.room d.decoder).octets.length := List.length_pos_iff.mpr hoct
    omega

/-- After a turn that stands still there is as much to be done as before. -/
theorem left_turn_of_idle (hk : Keeps D payload s w outcome) (hd : Holds D payload s d)
    (hidle : (D d.input d.grow.room d.decoder).Idle d.input) :
    left w (turn D d).2 = left w d ∧ (turn D d).2.input = d.input ∧
      (turn D d).2.decoder = (D d.input d.grow.room d.decoder).next := by
  obtain ⟨-, hgiven, -, -⟩ := hd.take_turn hk
  have hinput : (turn D d).2.input = d.input := by
    rw [hd.turn_eq]
    show d.grow.input.drop _ = _
    rw [hd.grow.1.input, hidle.1]
  refine ⟨?_, hinput, by rw [hd.turn_eq]; rfl⟩
  rw [left, hinput, hgiven, hidle.2]
  rfl

theorem Holds.next (hk : Keeps D payload s w outcome) (hd : Holds D payload s d) {e : Drain σ} (h : Next D e d) :
    (turn D d).1 = .going ∧ (turn D d).2 = e ∧ Holds D payload s e := by
  have hgo : (turn D d).1 = .going := congrArg Prod.fst h
  have he : (turn D d).2 = e := congrArg Prod.snd h
  exact ⟨hgo, he, he ▸ hd.turn hk hgo⟩

/-- There is no end to the turns only if there is no end to what is given or taken. -/
theorem acc_of_keeps (hk : Keeps D payload s w outcome) (hd : Holds D payload s d) : Acc (Next D) d := by
  -- by induction on what is left; a turn that stands still is taken together with the next
  induction hl : left w d using Nat.strongRecOn generalizing d with
  | ind l ih =>
    subst hl
    refine Acc.intro d fun e he => ?_
    obtain ⟨hgo, rfl, hd'⟩ := hd.next hk he
    by_cases hidle : (D d.input d.grow.room d.decoder).Idle d.input
    · obtain ⟨hleft, hinput, hnext⟩ := left_turn_of_idle hk hd hidle
      refine Acc.intro _ fun e' he' => ?_
      obtain ⟨hgo', rfl, hd''⟩ := hd'.next hk he'
      have hmove : ¬ (D (turn D d).2.input (turn D d).2.grow.room (turn D d).2.decoder).Idle (turn D d).2.input := by
        rw [hd.turn_eq] at hgo
        rw [hd'.turn_eq, hinput, hnext] at hgo'
        rw [hinput, hnext]
        exact hk.moves hd.calls hd.room_pos hgo hidle hd'.room_pos hgo'
      exact ih _ (hleft ▸ left_turn_lt hk hd' hmove) hd'' rfl
    · exact ih _ (left_turn_lt hk hd hidle) hd' rfl

theorem run_eq (h : Acc (Next D) d) : run D d =
    match turn D d with
    | (.going, e) => run D e
    | (.ended, e) => .ok e.contents
    | (.failed f, _) => .error f := by
  rw [run, WellFounded.partialExtrinsicFix_eq_apply_of_acc h]
  split <;> rename_i heq <;> simp only [heq]

theorem run_of_keeps (hk : Keeps D payload s w outcome) (hd : Holds D payload s d) :
    run D d = outcome.map fun _ => w := by
  have hacc := acc_of_keeps hk hd
  induction hacc with
  | intro d hacc ih =>
    rw [run_eq (Acc.intro d hacc)]
    have hturn := hd.turn_eq
    cases hst : (D d.input d.grow.room d.decoder).status with
    | going =>
      rw [hst] at hturn
      obtain ⟨-, -, hd'⟩ := hd.next hk hturn
      rw [hturn]
      exact ih _ hturn hd'
    | ended =>
      obtain ⟨hw, ho⟩ := hk.ended hd.calls hd.room_pos hst
      obtain ⟨htake, -, hle, -⟩ := hd.take_turn hk
      have hcontents : (turn D d).2.contents = w := by
        rw [contents, Bytes.resize, htake, hw, Nat.sub_eq_zero_of_le hle]
        exact List.append_nil w
      rw [hst] at hturn
      rw [hturn] at hcontents ⊢
      rw [ho]
      exact congrArg Except.ok hcontents
    | failed f =>
      rw [hst] at hturn
      rw [hturn, hk.failed hd.calls hd.room_pos hst]
      rfl

/-! ## (3) What comes out -/

end Drain

/-! ## (4) Reading at once -/

variable {read : Bytes → Except Flaw Bytes} {room : Nat}

/-- What a decoder that reads its input at once has to give: all contents, or nothing. -/
def readOutput (r : Except Flaw Bytes) : Bytes := r.toOption.getD []

namespace Decoder

theorem ofReader_of_error {f : Flaw} (hread : read payload = .error f) :
    ofReader read payload room none = ⟨.failed f, 0, [], none⟩ := by
  simp only [ofReader, hread]

theorem ofReader_of_ok {contents : Bytes} (hread : read payload = .ok contents) :
    ofReader read payload room none = hand payload.length room contents := by
  simp only [ofReader, hread]

/-- It is done when nothing is left. -/
theorem hand_ended {taken : Nat} {contents : Bytes} (h : (hand taken room contents).status = .ended) :
    (hand taken room contents).octets = contents := by
  by_cases hle : contents.length ≤ room
  · exact List.take_of_length_le hle
  · simp [hand, hle] at h

/-- Where more is left than there is room for, the room is filled. -/
theorem hand_going {taken : Nat} {contents : Bytes} (hroom : 0 < room) (h : (hand taken room contents).status = .going) :
    (hand taken room contents).octets ≠ [] := by
  have hlong : room < contents.length := Nat.lt_of_not_le fun hle => by simp [hand, hle] at h
  intro hempty
  have hlen : (contents.take room).length = room := List.length_take_of_le (Nat.le_of_lt hlong)
  rw [show contents.take room = [] from hempty, List.length_nil] at hlen
  omega

theorem hand_failed {taken : Nat} {contents : Bytes} {f : Flaw} : (hand taken room contents).status ≠ .failed f := by
  unfold hand
  split <;> simp_all

end Decoder

/-- Before a call nothing has been read and nothing given, or the contents are those given and those that are
    left. -/
theorem Calls.of_reader {out input : Bytes} {t : Option Bytes} (h : Calls (.ofReader read) payload none out input t) :
    (out = [] ∧ input = payload ∧ t = none) ∨
      ∃ contents rest, read payload = .ok contents ∧ t = some rest ∧ out ++ rest = contents := by
  induction h with
  | opening => exact .inl ⟨rfl, rfl, rfl⟩
  | @call out input t room _ hroom hgo ih =>
    right
    rcases ih with ⟨rfl, hin, rfl⟩ | ⟨contents, rest, hread, rfl, hout⟩
    · rw [hin] at hgo ⊢
      cases hread : read payload with
      | error f => simp [Decoder.ofReader_of_error hread] at hgo
      | ok contents =>
        rw [Decoder.ofReader_of_ok hread]
        exact ⟨contents, contents.drop room, rfl, rfl, List.take_append_drop room contents⟩
    · refine ⟨contents, rest.drop room, hread, rfl, ?_⟩
      show (_ ++ rest.take room) ++ rest.drop room = contents
      rw [List.append_assoc, List.take_append_drop, hout]

/-- A call fails with what the reader found, or hands out a part of what is left. -/
theorem Calls.reader_cases {out input : Bytes} {t : Option Bytes} (h : Calls (.ofReader read) payload none out input t)
    (room : Nat) :
    (∃ f, out = [] ∧ read payload = .error f ∧ Decoder.ofReader read input room t = ⟨.failed f, 0, [], none⟩) ∨
      ∃ taken rest, read payload = .ok (out ++ rest) ∧ Decoder.ofReader read input room t = Decoder.hand taken room rest := by
  rcases h.of_reader with ⟨rfl, rfl, rfl⟩ | ⟨contents, rest, hread, rfl, rfl⟩
  · cases hread : read input with
    | error f => exact .inl ⟨f, rfl, rfl, Decoder.ofReader_of_error hread⟩
    | ok contents => exact .inr ⟨input.length, contents, rfl, Decoder.ofReader_of_ok hread⟩
  · exact .inr ⟨0, rest, hread, rfl⟩

theorem keeps_ofReader (read : Bytes → Except Flaw Bytes) (payload : Bytes) :
    Keeps (.ofReader read) payload none (readOutput (read payload)) ((read payload).map fun _ => ()) where
  fits := by
    intro out input t room hcalls _
    rcases hcalls.reader_cases room with ⟨f, -, -, heq⟩ | ⟨taken, rest, -, heq⟩
    · simp [heq]
    · rw [heq]
      exact List.length_take_le room rest
  inOrder := by
    intro out input t room hcalls _
    rcases hcalls.reader_cases room with ⟨f, rfl, -, heq⟩ | ⟨taken, rest, hread, heq⟩
    · simp [heq]
    · rw [heq, hread]
      exact (List.prefix_append_right_inj _).mpr (List.take_prefix room rest)
  ended := by
    intro out input t room hcalls _ hend
    rcases hcalls.reader_cases room with ⟨f, -, -, heq⟩ | ⟨taken, rest, hread, heq⟩
    · simp [heq] at hend
    · rw [heq] at hend ⊢
      rw [Decoder.hand_ended hend, hread]
      exact ⟨rfl, rfl⟩
  failed := by
    intro out input t room f hcalls _ hfail
    rcases hcalls.reader_cases room with ⟨f', -, hread, heq⟩ | ⟨taken, rest, -, heq⟩
    · rw [heq] at hfail
      cases hfail
      rw [hread]
      rfl
    · rw [heq] at hfail
      exact absurd hfail Decoder.hand_failed
  moves := by
    intro out input t room hcalls hroom hgo hidle
    rcases hcalls.reader_cases room with ⟨f, -, -, heq⟩ | ⟨taken, rest, -, heq⟩
    · simp [heq] at hgo
    · rw [heq] at hgo hidle
      exact absurd hidle.2 (Decoder.hand_going hroom hgo)

/-- Contents of files are what the reader of files finds, whatever the buffers. -/
theorem decompress_eq (s : Bytes) : decompress s = File.readAll s := by
  rw [decompress, Drain.run_of_keeps (keeps_ofReader File.readAll s) (Drain.holds_start _ _ _)]
  cases File.readAll s <;> rfl

end FlatPackage.Xz
