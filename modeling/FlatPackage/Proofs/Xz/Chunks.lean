/-
  FlatPackage.Proofs.Xz.Chunks — the form of chunks, and that chunks are read from nothing else.

  A chunk is a control octet and a body. Some control octets start a dictionary; before the others there has to be one.
  A body is octets as they are behind their number, or LZMA symbols behind two numbers, for the octets that they stand
  for and for their own. How many octets a reader asked for is no part of the form: it reads the same chunks as one
  that wants all there is, as long as they give no more.

  Proved:
  (1) `IsChunk.size_out`: a chunk gives as many octets as it says, and at least one.
  (2) `acceptsAt_turn`: one chunk is read from its own octets.
  (3) `acceptsAt_read`: so are all chunks up to the end mark. That all is given that was asked for is no such matter, as
      more octets may be read then than were needed.
-/

import FlatPackage.Proofs.Lzma.Symbols
import FlatPackage.Proofs.Xz.Accept
import FlatPackage.Xz.Chunks

namespace FlatPackage.Xz

variable {c d : Chunks} {control : UInt8} {a b : Bytes} {n : Nat} {t : Chunks.Turn} {out : ByteArray}

theorem Requests.total_spend (n : Nat) (r : Requests) : (spend n r).total = r.total - n := by
  induction r generalizing n with
  | nil => exact (Nat.zero_sub n).symm
  | cons d r ih =>
    have hcons : ∀ d, total (d :: r) = d + total r := fun _ => rfl
    rw [spend]
    split
    · rw [hcons, hcons]
      omega
    · rw [ih, hcons]
      omega

/-- A request that is met is given up, which the next octet would do as well; there has to be another one then. -/
theorem Requests.next?_cases (r : Requests) : r.next? = none ∧ r.total = 0 ∨
    ∃ r', r.next? = some r' ∧ r'.total = r.total ∧ ∀ n, 0 < n → r'.spend n = r.spend n := by
  unfold next?
  split
  · exact .inl ⟨rfl, rfl⟩
  · exact .inl ⟨rfl, rfl⟩
  · rename_i r _
    refine .inr ⟨r, rfl, (Nat.zero_add _).symm, fun n hn => ?_⟩
    rw [spend.eq_1 n 0, if_neg (Nat.not_le.mpr hn), Nat.sub_zero]
  · exact .inr ⟨r, rfl, rfl, fun _ _ => rfl⟩

namespace Chunks

/-! ## (1) The form -/

/-- A dictionary is started at the end of what there is. -/
def renewed (c : Chunks) : Chunks :=
  { c with memory := { c.memory with base := c.memory.out.size }, needsDictionary := false, needsProps := true }

def filled (c : Chunks) (m : Lzma.Memory) : Chunks := { c with memory := m }

/-- Two octets, most significant first, that stand for one less. -/
def IsSize (a : Bytes) (n : Nat) : Prop := ∃ high low : UInt8, a = [high, low] ∧ n = 256 * high.toNat + low.toNat + 1

/-- What is forgotten before symbols are read, and the properties if they come with the chunk. -/
inductive Prepares (control : UInt8) (c : Chunks) : Bytes → Chunks → Prop
  | props {octet : UInt8} {p : Lzma.Props} : 0xC0 ≤ control → Lzma.Props.ofByte? octet = some p →
      Prepares control c [octet] { c with memory := c.memory.resetState p, needsProps := false }
  | fresh : ¬ 0xC0 ≤ control → 0xA0 ≤ control →
      Prepares control c [] { c with memory := c.memory.resetState c.memory.props }
  | same : ¬ 0xA0 ≤ control → Prepares control c [] c

/-- What stands behind a control octet, how many octets it gives, and the state after it. -/
inductive IsBody (control : UInt8) (c : Chunks) : Bytes → Nat → Chunks → Prop
  | stored {size data : Bytes} : control ≤ 2 → IsSize size data.length →
      IsBody control c (size ++ data) data.length (c.filled { c.memory with out := pushAll c.memory.out data })
  | coded {low packed props symbols : Bytes} {n : Nat} {d : Chunks} {m : Lzma.Memory} : 0x80 ≤ control →
      c.needsProps = false ∨ 0xC0 ≤ control → IsSize low n → IsSize packed symbols.length → Prepares control c props d →
      Lzma.decodeChunk d.memory (control.toNat % 32 * 65536 + n) none symbols = .finished m [] →
      IsBody control c (low ++ (packed ++ (props ++ symbols))) (control.toNat % 32 * 65536 + n) (d.filled m)

inductive IsChunk (c : Chunks) : Bytes → Nat → Chunks → Prop
  | renewing {control : UInt8} {a : Bytes} {n : Nat} {d : Chunks} : startsDictionary control = true →
      IsBody control c.renewed a n d → IsChunk c (control :: a) n d
  | going {control : UInt8} {a : Bytes} {n : Nat} {d : Chunks} : control ≠ 0 → startsDictionary control = false →
      c.needsDictionary = false → IsBody control c a n d → IsChunk c (control :: a) n d

/-- Chunks and the end mark, and all octets that there are then. -/
inductive IsChunks : Chunks → Bytes → ByteArray → Prop
  | ended {c : Chunks} : IsChunks c [0] c.memory.out
  | chunk {c d : Chunks} {a b : Bytes} {n : Nat} {out : ByteArray} : IsChunk c a n d → IsChunks d b out →
      IsChunks c (a ++ b) out

/-- What was asked for is no part of the form. -/
theorem Prepares.ask (h : Prepares control c a d) (q : Option Requests) :
    Prepares control { c with requests := q } a { d with requests := q } := by
  cases h with
  | props h hp => exact .props h hp
  | fresh h h' => exact .fresh h h'
  | same h => exact .same h

theorem IsBody.ask (h : IsBody control c a n d) (q : Option Requests) :
    IsBody control { c with requests := q } a n { d with requests := q } := by
  cases h with
  | stored hle hsize => exact .stored hle hsize
  | coded hge hprops hlow hpacked hprep hm => exact .coded (c := { c with requests := q }) hge hprops hlow hpacked (hprep.ask q) hm

theorem IsChunk.ask (h : IsChunk c a n d) (q : Option Requests) :
    IsChunk { c with requests := q } a n { d with requests := q } := by
  cases h with
  | renewing hstart hbody => exact .renewing hstart (hbody.ask q)
  | going h0 hstart hdict hbody => exact .going h0 hstart hdict (hbody.ask q)

theorem IsChunks.ask (h : IsChunks c a out) (q : Option Requests) : IsChunks { c with requests := q } a out := by
  induction h with
  | ended => exact .ended
  | chunk h _ ih => exact .chunk (h.ask q) ih

theorem IsSize.pos (h : IsSize a n) : 0 < n := by
  obtain ⟨_, _, -, rfl⟩ := h
  exact Nat.succ_pos _

theorem size_pushAll (out : ByteArray) (s : Bytes) : (pushAll out s).size = out.size + s.length := by
  induction s generalizing out with
  | nil => rfl
  | cons x s ih =>
    rw [pushAll, List.foldl_cons, ← pushAll, ih, ByteArray.size_push, List.length_cons]
    omega

theorem Prepares.keeps (h : Prepares control c a d) : d.memory.out = c.memory.out ∧ d.requests = c.requests := by
  cases h <;> exact ⟨rfl, rfl⟩

theorem IsBody.keeps (h : IsBody control c a n d) :
    0 < n ∧ d.memory.out.size = c.memory.out.size + n ∧ d.requests = c.requests := by
  cases h with
  | stored _ hsize => exact ⟨hsize.pos, size_pushAll _ _, rfl⟩
  | coded _ _ hlow _ hprep hdecode =>
    have hpos := hlow.pos
    obtain ⟨hout, hreq⟩ := hprep.keeps
    refine ⟨by omega, ?_, hreq⟩
    rw [← hout]
    exact Lzma.size_out_of_decodeChunk hdecode

/-- A chunk gives as many octets as it says, and at least one; what was asked for stays what it was. -/
theorem IsChunk.keeps (h : IsChunk c a n d) :
    0 < n ∧ d.memory.out.size = c.memory.out.size + n ∧ d.requests = c.requests := by
  cases h with
  | renewing _ hbody => exact hbody.keeps
  | going _ _ _ hbody => exact hbody.keeps

theorem IsChunk.ne_nil (h : IsChunk c a n d) : a ≠ [] := by
  cases h <;> exact List.cons_ne_nil _ _

theorem IsChunks.size_le (h : IsChunks c a out) : c.memory.out.size ≤ out.size := by
  induction h with
  | ended => exact Nat.le_refl _
  | chunk h _ ih =>
    have hsize := h.keeps.2.1
    omega

/-! ## (2) One chunk -/

/-- The turn was not cut short because all was given that was asked for. -/
def Unfilled : Turn → Prop
  | .done (.full _) => False
  | _ => True

theorem accepts_size16 : Accepts size16 IsSize := by
  refine fun n => (AcceptsAt.octet fun high => AcceptsAt.octet fun low => accepts_pure _ n).congr fun a => ?_
  constructor
  · rintro ⟨high, _, rfl, low, _, rfl, rfl, rfl⟩
    exact ⟨high, low, rfl, rfl⟩
  · rintro ⟨high, low, rfl, rfl⟩
    exact ⟨high, [low], rfl, low, [], rfl, rfl, rfl⟩

theorem accepts_onStatistics (control : UInt8) (c : Chunks) : Accepts (onStatistics control c) (Prepares control c) := by
  intro x
  have hfresh : 0xC0 ≤ control → 0xA0 ≤ control := UInt8.le_trans (by decide)
  unfold onStatistics
  by_cases hprops : control ≥ 0xC0
  · simp only [if_pos hprops]
    refine (AcceptsAt.octet (M := fun b a x => ∃ p, Lzma.Props.ofByte? b = some p ∧ a = [] ∧
      x = { c with memory := c.memory.resetState p, needsProps := false }) fun b => ?_).congr fun a => ?_
    · cases Lzma.Props.ofByte? b with
      | some p => exact (accepts_pure _ x).congr fun a => by simp
      | none => exact (accepts_fail _ x).congr fun a => by simp
    · constructor
      · rintro ⟨b, _, rfl, p, hp, rfl, rfl⟩
        exact .props hprops hp
      · intro h
        cases h with
        | props _ hp => exact ⟨_, [], rfl, _, hp, rfl, rfl⟩
        | fresh hnot => exact absurd hprops hnot
        | same hnot => exact absurd (hfresh hprops) hnot
  · simp only [if_neg hprops]
    refine (AcceptsAt.ite (fun _ => accepts_pure _ x) fun _ => accepts_pure _ x).congr fun a => ?_
    constructor
    · rintro (⟨h, rfl, rfl⟩ | ⟨h, rfl, rfl⟩)
      · exact .fresh hprops h
      · exact .same h
    · intro h
      cases h with
      | props h => exact absurd h hprops
      | fresh _ h => exact .inl ⟨h, rfl, rfl⟩
      | same h => exact .inr ⟨h, rfl, rfl⟩

theorem acceptsAt_stored (n : Nat) (c : Chunks) (ht : Unfilled t) : AcceptsAt (stored n c) (fun a t => a.length = n ∧
    c.room.all (n ≤ ·) = true ∧ t = .more (c.give n { c.memory with out := pushAll c.memory.out a })) t := by
  have hroom : n ≤ c.room.getD n ↔ c.room.all (n ≤ ·) = true := by
    cases c.room <;> simp
  unfold stored
  by_cases hle : n ≤ c.room.getD n
  · simp only [if_pos hle]
    refine (AcceptsAt.take fun data => accepts_pure _ t).congr fun a => ?_
    constructor
    · rintro ⟨data, _, rfl, hlen, rfl, rfl⟩
      rw [List.append_nil]
      exact ⟨hlen, hroom.mp hle, rfl⟩
    · rintro ⟨hlen, -, rfl⟩
      exact ⟨a, [], (List.append_nil a).symm, hlen, rfl, rfl⟩
  · simp only [if_neg hle]
    refine acceptsAt_of_never (fun s r h => ?_) fun a h => hle (hroom.mpr h.2.1)
    split at h <;> cases h
    exact ht

theorem coded_eq_ok_iff {size packed : Nat} (ht : Unfilled t) {s r : Bytes} :
    coded size packed c s = .ok (t, r) ↔ packed ≤ s.length ∧ r = s.drop packed ∧
      ∃ m, Lzma.decodeChunk c.memory size c.room (s.take packed) = .finished m [] ∧ t = .more (c.give size m) := by
  have hshort : (s.take packed).length < packed ↔ ¬ packed ≤ s.length := by
    rw [List.length_take]
    omega
  unfold coded
  simp only [hshort]
  cases Lzma.decodeChunk c.memory size c.room (s.take packed) with
  | finished m unused =>
    cases unused with
    | nil =>
      by_cases hle : packed ≤ s.length
      · simp [hle, eq_comm, and_comm]
      · simp [hle]
    | cons b unused => simp
  | starved => simp
  | malformed => simp
  | overfull m unused =>
    constructor
    · intro h
      cases h
      exact ht.elim
    · rintro ⟨-, -, m', hm, -⟩
      cases hm

theorem acceptsAt_coded (size packed : Nat) (c : Chunks) (ht : Unfilled t) : AcceptsAt (coded size packed c)
    (fun a t => a.length = packed ∧ c.room.all (size ≤ ·) = true ∧
      ∃ m, Lzma.decodeChunk c.memory size none a = .finished m [] ∧ t = .more (c.give size m)) t := by
  intro s r
  have hlimit : ∀ chunk m, Lzma.decodeChunk c.memory size c.room chunk = .finished m [] ↔
      c.room.all (size ≤ ·) = true ∧ Lzma.decodeChunk c.memory size none chunk = .finished m [] :=
    fun _ _ => Lzma.decodeChunk_finished_iff
  rw [coded_eq_ok_iff ht]
  simp only [hlimit]
  constructor
  · rintro ⟨hle, rfl, m, ⟨hroom, hm⟩, rfl⟩
    exact ⟨s.take packed, (List.take_append_drop packed s).symm, List.length_take_of_le hle, hroom, m, hm, rfl⟩
  · rintro ⟨a, rfl, rfl, hroom, m, hm, rfl⟩
    rw [List.drop_left, List.take_left, List.length_append]
    exact ⟨Nat.le_add_right _ _, rfl, m, ⟨hroom, hm⟩, rfl⟩

theorem Prepares.room_eq (h : Prepares control c a d) : d.room = c.room := by
  rw [room, room, h.keeps.2]

theorem acceptsAt_body (control : UInt8) (c : Chunks) (ht : Unfilled t) : AcceptsAt (body control c) (fun a t =>
    ∃ n d, IsBody control c a n d ∧ c.room.all (n ≤ ·) = true ∧ t = .more (d.give n d.memory)) t := by
  have hsmall : control ≤ 2 → ¬ 0x80 ≤ control := fun hle hge => absurd (UInt8.le_trans hge hle) (by decide)
  have hready : (!c.needsProps || control ≥ 0xC0) = true ↔ c.needsProps = false ∨ 0xC0 ≤ control := by simp
  unfold body
  refine (AcceptsAt.ite
    (fun _ => AcceptsAt.demand <| AcceptsAt.bind accepts_size16 fun low => AcceptsAt.bind accepts_size16 fun packed =>
      AcceptsAt.bind (accepts_onStatistics control c) fun d => acceptsAt_coded _ packed d ht)
    (fun _ => AcceptsAt.demand <| AcceptsAt.bind accepts_size16 fun n => acceptsAt_stored n c ht)).congr fun a => ?_
  constructor
  · rintro (⟨hge, hprops, low, b, _, rfl, hlow, _, b', _, rfl, hpacked, d, props, symbols, rfl, hprep, rfl, hroom, m, hm, rfl⟩ |
      ⟨-, hle, _, size, data, rfl, hsize, rfl, hroom, rfl⟩)
    · exact ⟨_, _, .coded hge (hready.mp hprops) hlow hpacked hprep hm, hprep.room_eq ▸ hroom, rfl⟩
    · exact ⟨_, _, .stored (of_decide_eq_true hle) hsize, hroom, rfl⟩
  · rintro ⟨n, d, hbody, hroom, rfl⟩
    cases hbody with
    | @stored size data hle hsize =>
      exact .inr ⟨hsmall hle, decide_eq_true hle, _, size, data, rfl, hsize, rfl, hroom, rfl⟩
    | @coded b b' props symbols low d m hge hprops hlow hpacked hprep hm =>
      exact .inl ⟨hge, hready.mpr hprops, low, b, _, rfl, hlow, _, b', _, rfl, hpacked, d, props, symbols, rfl, hprep, rfl,
        hprep.room_eq.symm ▸ hroom, m, hm, rfl⟩

/-- A dictionary is started unless all is given that was asked for. -/
theorem newDictionary?_cases (c : Chunks) :
    c.newDictionary? = none ∧ c.room = some 0 ∨
      ∃ q, c.newDictionary? = some { c.renewed with requests := q } ∧ q.map Requests.total = c.room ∧
        ∀ n, 0 < n → q.map (Requests.spend n) = c.requests.map (Requests.spend n) := by
  unfold newDictionary? room
  cases c.requests with
  | none => exact .inr ⟨none, rfl, rfl, fun _ _ => rfl⟩
  | some r =>
    rcases r.next?_cases with ⟨hnext, htotal⟩ | ⟨r', hnext, htotal, hspend⟩
    · exact .inl ⟨by simp [hnext], congrArg some htotal⟩
    · exact .inr ⟨some r', by simp [hnext, renewed], congrArg some htotal, fun n hn => congrArg some (hspend n hn)⟩

/-- What a turn reads, and from what. -/
def IsTurn (c : Chunks) (a : Bytes) (t : Turn) : Prop :=
  a = [0] ∧ t = .done (.ended c.memory.out) ∨
    ∃ n d, IsChunk c a n d ∧ c.room.all (n ≤ ·) = true ∧ t = .more (d.give n d.memory)

/-- A body behind the start of a dictionary. -/
theorem acceptsAt_renewed {q : Option Requests} (control : UInt8) (hroom : q.map Requests.total = c.room)
    (hspend : ∀ n, 0 < n → q.map (Requests.spend n) = c.requests.map (Requests.spend n)) (ht : Unfilled t) :
    AcceptsAt (body control { c.renewed with requests := q }) (fun a t => ∃ n d, IsBody control c.renewed a n d ∧
      c.room.all (n ≤ ·) = true ∧ t = .more (d.give n d.memory)) t := by
  refine (acceptsAt_body control { c.renewed with requests := q } ht).congr fun a => ?_
  constructor
  · rintro ⟨n, d, hbody, hall, rfl⟩
    obtain ⟨hpos, -, hreq⟩ := hbody.keeps
    refine ⟨n, _, hbody.ask c.requests, hroom ▸ hall, ?_⟩
    rw [give, give, hreq, hspend n hpos]
  · rintro ⟨n, d, hbody, hall, rfl⟩
    obtain ⟨hpos, -, hreq⟩ := hbody.keeps
    refine ⟨n, _, hbody.ask q, ?_, ?_⟩
    · show (q.map Requests.total).all _ = true
      rwa [hroom]
    · rw [give, give, hreq, hspend n hpos]
      rfl

theorem acceptsAt_turn (c : Chunks) (ht : Unfilled t) : AcceptsAt (turn c) (IsTurn c) t := by
  unfold turn
  refine (AcceptsAt.octet fun control => AcceptsAt.ite (fun _ => accepts_pure _ t) fun _ => AcceptsAt.ite
    (L := fun a (t : Turn) => ∃ n d, IsBody control c.renewed a n d ∧ c.room.all (n ≤ ·) = true ∧ t = .more (d.give n d.memory))
    (fun _ => ?_) fun _ => AcceptsAt.demand (acceptsAt_body control c ht)).congr fun a => ?_
  · rcases c.newDictionary?_cases with ⟨hnone, hroom⟩ | ⟨q, hsome, hroom, hspend⟩
    · rw [hnone]
      refine acceptsAt_of_never (fun s r h => ?_) ?_
      · cases h
        exact ht
      · rintro a ⟨n, d, hbody, hall, -⟩
        have hpos := hbody.keeps.1
        rw [hroom, Option.all_some, decide_eq_true_eq] at hall
        omega
    · rw [hsome]
      exact acceptsAt_renewed control hroom hspend ht
  constructor
  · rintro ⟨control, a, rfl, ⟨rfl, rfl, rfl⟩ | ⟨h0, ⟨hstart, n, d, hbody, hroom, rfl⟩ | ⟨hstart, hdict, n, d, hbody, hroom, rfl⟩⟩⟩
    · exact .inl ⟨rfl, rfl⟩
    · exact .inr ⟨n, d, .renewing hstart hbody, hroom, rfl⟩
    · exact .inr ⟨n, d, .going h0 (by simpa using hstart) (by simpa using hdict) hbody, hroom, rfl⟩
  · rintro (⟨rfl, rfl⟩ | ⟨n, d, hchunk, hroom, rfl⟩)
    · exact ⟨0, [], rfl, .inl ⟨rfl, rfl, rfl⟩⟩
    · cases hchunk with
      | @renewing control a _ _ hstart hbody =>
        have h0 : control ≠ 0 := by
          rintro rfl
          cases hstart
        exact ⟨control, a, rfl, .inr ⟨h0, .inl ⟨hstart, n, d, hbody, hroom, rfl⟩⟩⟩
      | @going control a _ _ h0 hstart hdict hbody =>
        exact ⟨control, a, rfl, .inr ⟨h0, .inr ⟨by simp [hstart], by simp [hdict], n, d, hbody, hroom, rfl⟩⟩⟩

/-! ## (3) All chunks -/

theorem total_map_spend (q : Option Requests) (n : Nat) :
    (q.map (Requests.spend n)).map Requests.total = (q.map Requests.total).map (· - n) := by
  cases q with
  | none => rfl
  | some r => exact congrArg some (Requests.total_spend n r)

/-- Turns that come to an end mark have read chunks, and have given no more than there was room for. -/
theorem isChunks_of_turns (h : Turns IsTurn c a (.ended out)) :
    IsChunks c a out ∧ c.room.all (out.size ≤ c.memory.out.size + ·) = true := by
  generalize hy : Stop.ended out = y at h
  induction h with
  | done h =>
    obtain ⟨rfl, he⟩ | ⟨_, _, -, -, he⟩ := h
    · cases he
      cases hy
      exact ⟨.ended, by cases room _ <;> simp⟩
    · cases he
  | @more c _ a b _ h _ _ ih =>
    obtain ⟨-, he⟩ | ⟨n, d, hchunk, hroom, he⟩ := h
    · cases he
    · cases he
      obtain ⟨hchunks, hrest⟩ := ih hy
      obtain ⟨-, hsize, hreq⟩ := hchunk.keeps
      refine ⟨.chunk hchunk (hchunks.ask d.requests), ?_⟩
      have hleft : (d.give n d.memory).room = c.room.map (· - n) := by
        rw [room, give, hreq, total_map_spend]
        rfl
      rw [hleft] at hrest
      cases hc : c.room with
      | none => rfl
      | some k =>
        simp only [hc, Option.map_some, Option.all_some, decide_eq_true_eq] at hroom hrest ⊢
        have hlast : out.size ≤ d.memory.out.size + (k - n) := hrest
        omega

/-- Chunks are read by turn after turn, whatever was asked for, if it is no less than they give. -/
theorem turns_of_isChunks (h : IsChunks c a out) (q : Option Requests)
    (hq : (q.map Requests.total).all (out.size ≤ c.memory.out.size + ·) = true) :
    Turns IsTurn { c with requests := q } a (.ended out) := by
  induction h generalizing q with
  | ended => exact .done (.inl ⟨rfl, rfl⟩)
  | @chunk c d a b n out hchunk hchunks ih =>
    have hsize := hchunk.keeps.2.1
    have hrest := hchunks.size_le
    refine .more (.inr ⟨n, _, hchunk.ask q, ?_, rfl⟩) hchunk.ne_nil (ih (q.map (Requests.spend n)) ?_)
    · show (q.map Requests.total).all _ = true
      cases q with
      | none => rfl
      | some r =>
        simp only [Option.map_some, Option.all_some, decide_eq_true_eq] at hq ⊢
        omega
    · rw [total_map_spend]
      cases q with
      | none => rfl
      | some r =>
        simp only [Option.map_some, Option.all_some, decide_eq_true_eq] at hq ⊢
        omega

theorem acceptsAt_read (window : Nat) (requests : Option Requests) (out : ByteArray) :
    AcceptsAt (read window requests) (fun a _ => IsChunks (.start window none) a out ∧
      (requests.map Requests.total).all (out.size ≤ ·) = true) (.ended out) := by
  refine (acceptsAt_repeated (T := IsTurn) (y := Stop.ended out) (fun c _ => acceptsAt_turn c trivial)
    (fun c => acceptsAt_turn c trivial) (.start window requests)).congr fun a => ?_
  constructor
  · intro h
    obtain ⟨hchunks, hroom⟩ := isChunks_of_turns h
    have hroom : (requests.map Requests.total).all (out.size ≤ 0 + ·) = true := hroom
    exact ⟨hchunks.ask none, by simpa only [Nat.zero_add] using hroom⟩
  · rintro ⟨hchunks, hroom⟩
    have hroom : (requests.map Requests.total).all (out.size ≤ 0 + ·) = true := by simpa only [Nat.zero_add] using hroom
    exact turns_of_isChunks hchunks requests hroom

end Chunks

end FlatPackage.Xz
