/-
  FlatPackage.Proofs.Xz.Blocks — what a block is, and that blocks are read from nothing else.

  A block is told by its parts: a header that says which filters were applied and may say two sizes, chunks, zeros up
  to a multiple of four, and a check of the contents. Chunks end at their own mark and a header where its first octet
  says, so none of the parts depends on what stands behind it.

  Proved:
  (1) `BlockHeader.accepts_header`: headers, of which padding takes whatever is left of the size.
  (2) `Block.accepts_read`: blocks, wherever their contents go.
-/

import FlatPackage.Proofs.Xz.Chunks
import FlatPackage.Proofs.Xz.Outline

namespace FlatPackage.Xz

/-! ## (1) Headers -/

namespace Chain

/-- What stands in a header for one filter: its number, and its properties behind their size. -/
def IsEntry (a : Bytes) (step : Step) : Prop :=
  ∃ id props, a = Varint.write id ++ (Varint.write props.length ++ props) ∧
    id < Nat.pow 2 62 ∧ props.length < sizeLimit ∧ stepOf? id props = some step

theorem accepts_readStep : Accepts readStep IsEntry := by
  refine fun step => (AcceptsAt.bind accepts_varint fun id => AcceptsAt.demand (AcceptsAt.bind accepts_varint fun size =>
    AcceptsAt.take (M := fun props a step => a = [] ∧ stepOf? id props = some step) fun props => ?_)).congr fun a => ?_
  · cases stepOf? id props with
    | some found => exact (accepts_pure found step).congr fun a => by rw [Option.some.injEq, eq_comm (a := step)]
    | none => exact (accepts_fail .options step).congr fun a => by simp
  · constructor
    · rintro ⟨id, _, _, rfl, ⟨rfl, -⟩, hid, _, _, _, rfl, ⟨rfl, hsize⟩, props, _, rfl, rfl, rfl, hstep⟩
      exact ⟨id, props, by rw [List.append_nil], of_decide_eq_true hid, hsize, hstep⟩
    · rintro ⟨id, props, rfl, hid, hsize, hstep⟩
      have hlimit : id < sizeLimit := Nat.lt_trans hid (by decide)
      exact ⟨id, _, _, rfl, ⟨rfl, hlimit⟩, decide_eq_true hid, props.length, _, _, rfl, ⟨rfl, hsize⟩, props, [],
        (List.append_nil _).symm, rfl, rfl, hstep⟩

theorem accepts_readSteps (n : Nat) : Accepts (readSteps n) fun a steps => Strung IsEntry a steps ∧ steps.length = n := by
  induction n with
  | zero =>
    refine (accepts_pure []).congr fun a steps => ?_
    constructor
    · rintro ⟨rfl, rfl⟩
      exact ⟨.nil, rfl⟩
    · rintro ⟨ha, hn⟩
      obtain rfl := List.length_eq_zero_iff.mp hn
      cases ha
      exact ⟨rfl, rfl⟩
  | succ n ih =>
    refine fun steps => (AcceptsAt.bind accepts_readStep fun step => AcceptsAt.bind ih fun rest =>
      accepts_pure _ steps).congr fun a => ?_
    constructor
    · rintro ⟨step, b, _, rfl, hb, rest, c, _, rfl, ⟨hc, hn⟩, rfl, rfl⟩
      rw [List.append_nil]
      exact ⟨.cons hb hc, congrArg (· + 1) hn⟩
    · rintro ⟨ha, hn⟩
      cases ha with
      | nil => cases hn
      | @cons b c step rest hb hc =>
        exact ⟨step, b, c, rfl, hb, rest, c, [], (List.append_nil c).symm, ⟨hc, Nat.succ.inj hn⟩, rfl, rfl⟩

/-- Entries for so many filters, which make a chain. -/
def IsChain (n : Nat) (a : Bytes) (c : Chain) : Prop :=
  ∃ steps, Strung IsEntry a steps ∧ steps.length = n ∧ ofSteps? steps = some c

theorem accepts_read (n : Nat) : Accepts (Chain.read n) (IsChain n) := by
  refine fun c => (AcceptsAt.bind (M := fun steps a c => a = [] ∧ ofSteps? steps = some c) (accepts_readSteps n)
    fun steps => ?_).congr fun a => ?_
  · cases ofSteps? steps with
    | some found => exact (accepts_pure found c).congr fun a => by rw [Option.some.injEq, eq_comm (a := c)]
    | none => exact (accepts_fail .options c).congr fun a => by simp
  · constructor
    · rintro ⟨steps, b, _, rfl, ⟨hb, hn⟩, rfl, hc⟩
      rw [List.append_nil]
      exact ⟨steps, hb, hn, hc⟩
    · rintro ⟨steps, ha, hn, hc⟩
      exact ⟨steps, a, [], (List.append_nil a).symm, ⟨ha, hn⟩, rfl, hc⟩

end Chain

namespace BlockHeader

/-- A size that is said, or nothing. -/
def sizeText (size : Option Nat) : Bytes := (size.map Varint.write).getD []

theorem accepts_optionalSize (present : Bool) : Accepts (optionalSize present) fun a size =>
    a = sizeText size ∧ size.isSome = present ∧ size.all (· < sizeLimit) = true := by
  intro size
  cases present with
  | true =>
    refine (AcceptsAt.bind accepts_varint fun n => accepts_pure (some n) size).congr fun a => ?_
    constructor
    · rintro ⟨n, _, _, rfl, ⟨rfl, hn⟩, rfl, rfl⟩
      exact ⟨List.append_nil _, rfl, decide_eq_true hn⟩
    · rintro ⟨rfl, hsome, hlt⟩
      obtain ⟨n, rfl⟩ := Option.isSome_iff_exists.mp hsome
      exact ⟨n, Varint.write n, [], (List.append_nil _).symm, ⟨rfl, of_decide_eq_true hlt⟩, rfl, rfl⟩
  | false =>
    refine (accepts_pure none size).congr fun a => ?_
    constructor
    · rintro ⟨rfl, rfl⟩
      exact ⟨rfl, rfl, rfl⟩
    · rintro ⟨rfl, hnone, -⟩
      obtain rfl := Option.isSome_eq_false_iff.mp hnone |> Option.isNone_iff_eq_none.mp
      exact ⟨rfl, rfl⟩

theorem padding_eq_ok_iff {a r : Bytes} : padding a = .ok ((), r) ↔ r = [] ∧ ∃ k, a = Bytes.zeros k := by
  unfold padding
  constructor
  · intro h
    split at h
    · rename_i hzero
      cases h
      refine ⟨rfl, a.length, List.eq_replicate_iff.mpr ⟨rfl, fun b hb => ?_⟩⟩
      exact eq_of_beq (List.all_eq_true.mp hzero b hb)
    · cases h
  · rintro ⟨rfl, k, rfl⟩
    rw [if_pos (List.all_eq_true.mpr fun b hb => by rw [List.eq_of_mem_replicate hb]; rfl)]

theorem fillsAt_padding (h h' : BlockHeader) :
    FillsAt (do padding; return h') (fun a h => h = h' ∧ ∃ k, a = Bytes.zeros k) h := by
  intro a
  rw [bind_eq_ok_iff]
  constructor
  · rintro ⟨_, r, hr, he⟩
    cases he
    exact ⟨rfl, (padding_eq_ok_iff.mp hr).2⟩
  · rintro ⟨rfl, hk⟩
    exact ⟨(), [], padding_eq_ok_iff.mpr ⟨rfl, hk⟩, rfl⟩

/-- The fields of a header of `size` octets: flags, the sizes that they announce, as many entries of filters as they
    count, and zeros. -/
def IsFields (check : Check) (size : Nat) (a : Bytes) (h : BlockHeader) : Prop :=
  ∃ flags chain k, a = flags :: (sizeText h.packed ++ (sizeText h.contents ++ (chain ++ Bytes.zeros k))) ∧
    flags &&& 0x3C = 0 ∧ h.size = size ∧
    h.packed.isSome = (flags &&& 0x40 != 0) ∧
    h.packed.all (fun n => 0 < n && size + n + check.size ≤ unpaddedLimit) = true ∧
    h.contents.isSome = (flags &&& 0x80 != 0) ∧ h.contents.all (· < sizeLimit) = true ∧
    Chain.IsChain ((flags &&& 3).toNat + 1) chain h.chain

/-- A block that is not too large has packed contents that are not. -/
theorem all_lt_of_fits {size tag : Nat} {packed : Option Nat}
    (h : packed.all (fun n => 0 < n && size + n + tag ≤ unpaddedLimit) = true) : packed.all (· < sizeLimit) = true := by
  cases packed with
  | none => rfl
  | some n =>
    have hlimit : unpaddedLimit < sizeLimit := by decide
    simp only [Option.all_some, Bool.and_eq_true, decide_eq_true_eq] at h ⊢
    omega

theorem fillsAt_fields (check : Check) (size : Nat) (h : BlockHeader) :
    FillsAt (fields check size) (IsFields check size) h := by
  refine (FillsAt.bind accepts_octet fun flags => FillsAt.bind (accepts_demand _ _) fun _ =>
    FillsAt.bind (accepts_optionalSize _) fun packed => FillsAt.bind (accepts_demand _ _) fun _ =>
    FillsAt.bind (accepts_optionalSize _) fun contents => FillsAt.bind (Chain.accepts_read _) fun chain =>
    fillsAt_padding h _).congr fun a => ?_
  constructor
  · rintro ⟨flags, _, _, rfl, rfl, _, _, _, rfl, ⟨rfl, hflags⟩, packed, _, _, rfl, ⟨rfl, hp, -⟩, _, _, _, rfl, ⟨rfl, hfits⟩,
      contents, _, _, rfl, ⟨rfl, hc, hlt⟩, chain, b, _, rfl, hchain, rfl, k, rfl⟩
    exact ⟨flags, b, k, rfl, eq_of_beq hflags, rfl, hp, hfits, hc, hlt, hchain⟩
  · rintro ⟨flags, b, k, rfl, hflags, rfl, hp, hfits, hc, hlt, hchain⟩
    exact ⟨flags, [flags], _, rfl, rfl, (), [], _, rfl, ⟨rfl, beq_iff_eq.mpr hflags⟩, h.packed, _, _, rfl,
      ⟨rfl, hp, all_lt_of_fits hfits⟩, (), [], _, rfl, ⟨rfl, hfits⟩, h.contents, _, _, rfl, ⟨rfl, hc, hlt⟩, h.chain, b,
      Bytes.zeros k, rfl, hchain, rfl, k, rfl⟩

/-- A whole header: its size in words of four octets, less one, its fields and their checksum. -/
def IsHeader (check : Check) (a : Bytes) (h : BlockHeader) : Prop :=
  ∃ first fields, a = first :: (fields ++ Bytes.le32 (Checksum.crc32 (first :: fields))) ∧ first ≠ 0 ∧
    a.length = 4 * (first.toNat + 1) ∧ IsFields check a.length fields h

theorem accepts_header (check : Check) {first : UInt8} (hfirst : first ≠ 0) :
    Accepts (BlockHeader.read check first) fun a h => IsHeader check (first :: a) h := by
  have hpos : 0 < first.toNat := Nat.pos_of_ne_zero fun h0 => hfirst (UInt8.toNat_inj.mp h0)
  have hlength : ∀ fields : Bytes, fields.length = 4 * (first.toNat + 1) - 5 ↔
      (first :: (fields ++ Bytes.le32 (Checksum.crc32 (first :: fields)))).length = 4 * (first.toNat + 1) := by
    intro fields
    rw [List.length_cons, List.length_append, Bytes.length_le32]
    omega
  have hmap : ∀ {body : Bytes} {h : BlockHeader}, AcceptsAt
      (fun s => (Scan.confined .corrupt (fields check (4 * (first.toNat + 1))) body).map fun h => (h, s))
      (fun a h => a = [] ∧ IsFields check (4 * (first.toNat + 1)) body h) h := by
    intro body h s r
    have hread : Scan.confined .corrupt (fields check (4 * (first.toNat + 1))) body = .ok h ↔
        IsFields check (4 * (first.toNat + 1)) body h :=
      confined_eq_ok_iff.trans (fillsAt_fields check _ h body)
    simp only [← hread]
    cases Scan.confined .corrupt (fields check (4 * (first.toNat + 1))) body with
    | error f => simp [Except.map]
    | ok found => simp [Except.map, and_comm, eq_comm]
  refine fun h => (AcceptsAt.take fun body => AcceptsAt.take fun sum => AcceptsAt.demand hmap).congr fun a => ?_
  constructor
  · rintro ⟨body, _, rfl, hbody, sum, _, rfl, -, hsum, rfl, hfields⟩
    rw [eq_of_beq hsum, List.append_nil]
    have hl := (hlength body).mp hbody
    exact ⟨first, body, rfl, hfirst, hl, hl ▸ hfields⟩
  · rintro ⟨_, body, he, -, hl, hfields⟩
    obtain ⟨rfl, rfl⟩ := List.cons.inj he
    exact ⟨body, _, rfl, (hlength body).mpr hl, _, [], (List.append_nil _).symm, rfl, beq_self_eq_true _, rfl,
      hl ▸ hfields⟩

theorem IsHeader.size_eq {check : Check} {a : Bytes} {h : BlockHeader} (hh : IsHeader check a h) : h.size = a.length := by
  obtain ⟨_, _, _, _, _, _, _, _, _, _, hsize, _⟩ := hh
  exact hsize

theorem IsHeader.ne_nil {check : Check} {a : Bytes} {h : BlockHeader} (hh : IsHeader check a h) : a ≠ [] := by
  obtain ⟨_, _, rfl, -⟩ := hh
  exact List.cons_ne_nil _ _

end BlockHeader

/-! ## (2) Blocks -/

/-- A whole block and what is known of it: a header, chunks, zeros up to a multiple of four, and a tag that its check
    takes. The sizes that the header says are those of the chunks and of what they stand for. -/
def IsBlock (check : Check) (a : Bytes) (b : Record × Bytes) : Prop :=
  ∃ h head packed out tag, a = head ++ (packed ++ (Bytes.zeros (Bytes.padding4 packed.length) ++ tag)) ∧
    BlockHeader.IsHeader check head h ∧
    Chunks.IsChunks (.start h.chain.window none) packed out ∧
    h.packed.all (· == packed.length) = true ∧ h.contents.all (· == out.size) = true ∧
    tag.length = check.size ∧ check.accepts (h.chain.undo out).toList tag = true ∧
    b = (⟨head.length + packed.length + check.size, out.size⟩, (h.chain.undo out).toList)

namespace Block

variable {d : Delivery} {h : BlockHeader}

/-- What the filters were applied to: chunks, which give no more than the header says. -/
def Gives (h : BlockHeader) (a : Bytes) (out : ByteArray) : Prop :=
  Chunks.IsChunks (.start h.chain.window none) a out ∧ h.contents.all (out.size ≤ ·) = true

theorem accepts_filtered : Accepts (filtered d h) (Gives h) := by
  have hread : ∀ s out r, filtered d h s = .ok (out, r) ↔
      Chunks.read h.chain.window (h.contents.map fun n => [n]) s = .ok (.ended out, r) := by
    intro s out r
    unfold filtered
    cases Chunks.read h.chain.window (h.contents.map fun n => [n]) s with
    | error f => simp
    | ok x =>
      obtain ⟨_ | _, r'⟩ := x
      · simp
      · simp
  have htotal : (h.contents.map fun n => [n]).map Requests.total = h.contents := by
    cases h.contents <;> rfl
  intro out s r
  rw [hread, Chunks.acceptsAt_read _ _ out s r, htotal]
  rfl

theorem accepts_packed : Accepts (packed d h) fun a x =>
    Gives h a x.1 ∧ h.packed.all (· == a.length) = true ∧ x.2 = a.length := by
  intro x s r
  unfold packed
  cases h.packed with
  | none =>
    constructor
    · intro hs
      cases hf : filtered d h s with
      | error f =>
        simp only [hf] at hs
        cases hs
      | ok y =>
        obtain ⟨out, r'⟩ := y
        simp only [hf] at hs
        cases hs
        obtain ⟨a, rfl, ha⟩ := (accepts_filtered out s _).mp hf
        exact ⟨a, rfl, ha, rfl, by rw [List.length_append, Nat.add_sub_cancel]⟩
    · rintro ⟨a, rfl, ha, -, hn⟩
      simp only [(accepts_filtered x.1).append ha r]
      show Except.ok ((x.1, (a ++ r).length - r.length), r) = _
      rw [List.length_append, Nat.add_sub_cancel, ← hn]
  | some n =>
    constructor
    · intro hs
      cases hsplit : Bytes.splitExact? n s with
      | none =>
        simp only [hsplit] at hs
        cases hf : filtered d h s <;> simp [hf] at hs
      | some split =>
        obtain ⟨region, r'⟩ := split
        obtain ⟨rfl, hlen⟩ := Bytes.splitExact?_eq_some hsplit
        simp only [hsplit] at hs
        cases hc : Scan.confined .corrupt (filtered d h) region with
        | error f =>
          rw [hc] at hs
          cases hs
        | ok out =>
          rw [hc] at hs
          cases hs
          have hregion := (accepts_filtered out).iff_whole.mpr (confined_eq_ok_iff.mp hc)
          exact ⟨region, rfl, hregion, beq_iff_eq.mpr hlen.symm, hlen.symm⟩
    · rintro ⟨a, rfl, ha, hall, hn⟩
      obtain rfl : n = a.length := eq_of_beq hall
      have hc : Scan.confined .corrupt (filtered d h) a = .ok x.1 :=
        confined_eq_ok_iff.mpr ((accepts_filtered x.1).iff_whole.mp ha)
      simp only [Bytes.splitExact?_append, hc]
      show Except.ok ((x.1, a.length), r) = _
      rw [← hn]

theorem accepts_read (check : Check) (d : Delivery) {first : UInt8} (hfirst : first ≠ 0) :
    Accepts (Block.read check d first) fun a b => IsBlock check (first :: a) b := by
  intro b
  refine (AcceptsAt.bind (BlockHeader.accepts_header check hfirst) fun h => AcceptsAt.bind accepts_packed
    (M := fun x a b => h.contents.all (· == x.1.size) = true ∧ ∃ tag, a = Bytes.zeros (Bytes.padding4 x.2) ++ tag ∧
      tag.length = check.size ∧ check.accepts (h.chain.undo x.1).toList tag = true ∧
      b = (⟨h.size + x.2 + check.size, x.1.size⟩, (h.chain.undo x.1).toList))
    fun x => ?_).congr fun a => ?_
  · obtain ⟨out, n⟩ := x
    refine (AcceptsAt.demand <| AcceptsAt.bind (accepts_zeros _ _) fun _ => AcceptsAt.take fun tag => AcceptsAt.demand <|
      accepts_pure _ b).congr fun a => ?_
    constructor
    · rintro ⟨hsize, _, _, _, rfl, rfl, tag, _, rfl, htag, hok, rfl, rfl⟩
      exact ⟨hsize, tag, by rw [List.append_nil], htag, hok, rfl⟩
    · rintro ⟨hsize, tag, rfl, htag, hok, rfl⟩
      exact ⟨hsize, (), _, tag, rfl, rfl, tag, [], (List.append_nil tag).symm, htag, hok, rfl, rfl⟩
  · constructor
    · rintro ⟨h, head, _, rfl, hhead, ⟨out, n⟩, packed, _, rfl, ⟨⟨hchunks, -⟩, hpacked, hn⟩, hsize, tag, rfl, htag, hok,
        rfl⟩
      obtain rfl : n = packed.length := hn
      have hlen : h.size = (first :: head).length := hhead.size_eq
      exact ⟨h, first :: head, packed, out, tag, rfl, hhead, hchunks, hpacked, hsize, htag, hok, hlen ▸ rfl⟩
    · rintro ⟨h, head, packed, out, tag, he, hhead, hchunks, hpacked, hsize, htag, hok, rfl⟩
      obtain ⟨_, head, rfl⟩ := List.exists_cons_of_ne_nil hhead.ne_nil
      obtain ⟨rfl, rfl⟩ := List.cons.inj he
      have hlen : h.size = (first :: head).length := hhead.size_eq
      have hroom : h.contents.all (out.size ≤ ·) = true := by
        cases hc : h.contents with
        | none => rfl
        | some n =>
          rw [hc] at hsize
          obtain rfl := eq_of_beq hsize
          simp
      exact ⟨h, head, _, rfl, hhead, (out, packed.length), packed, _, rfl, ⟨⟨hchunks, hroom⟩, hpacked, rfl⟩, hsize, tag, rfl,
        htag, hok, hlen ▸ rfl⟩

end Block

end FlatPackage.Xz
