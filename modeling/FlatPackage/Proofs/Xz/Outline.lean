/-
  FlatPackage.Proofs.Xz.Outline — what stands around the blocks of a file.

  A header, an index and a footer are read from exactly what is written for them. That holds because
  nothing in them has two forms: a number has one text, padding is zeros of a length that is known, and
  every checksum is compared.

  Proved:
  (1) `accepts_varint`: numbers below 2^63, each from its own text.
  (2) `accepts_header`, `accepts_footer`: the two ends of a file, with a check that has a number.
  (3) `accepts_index`: the index of given records, behind its zero octet. `named_size`: which indices a footer
      can name.
-/

import FlatPackage.Proofs.Words
import FlatPackage.Proofs.Xz.Accept
import FlatPackage.Xz.File

namespace FlatPackage.Xz

variable {check : Check} {size : Nat} {r : Record} {records : List Record}

/-! ## (1) Numbers -/

namespace Varint

theorem toNat_toUInt8 {n : Nat} (h : n < 256) : n.toUInt8.toNat = n := by
  rw [Nat.toUInt8_eq, UInt8.toNat_ofNat', Nat.mod_eq_of_lt h]

theorem write_of_lt {n : Nat} (h : n < 128) : write n = [n.toUInt8] := by
  rw [write, if_pos h]

/-- Seven bits, and a number that is not zero behind them. -/
theorem write_of_high {b : UInt8} (hb : ¬ b < 128) {n : Nat} (hn : n ≠ 0) : write (b.toNat % 128 + n * 128) = b :: write n := by
  have hlow : 128 ≤ b.toNat := Nat.not_lt.mp hb
  have hhigh : b.toNat < 256 := b.toNat_lt
  have hmod : (b.toNat % 128 + n * 128) % 128 + 128 = b.toNat := by omega
  have hdiv : (b.toNat % 128 + n * 128) / 128 = n := by omega
  rw [write, if_neg (by omega), hmod, hdiv, Nat.toUInt8_eq, UInt8.ofNat_toNat]

/-- A number of more than seven bits is one octet and a number that is not zero. -/
theorem exists_high {n : Nat} (h : ¬ n < 128) : ∃ b : UInt8, ¬ b < 128 ∧ ∃ m, m ≠ 0 ∧ n = b.toNat % 128 + m * 128 := by
  have hb := toNat_toUInt8 (n := n % 128 + 128) (by omega)
  refine ⟨(n % 128 + 128).toUInt8, ?_, n / 128, by omega, by omega⟩
  show ¬ (n % 128 + 128).toUInt8.toNat < 128
  omega

/-- Behind `count` octets the text of a number that is not zero, or that is all there is. -/
theorem accepts_readFrom (count sofar fuel : Nat) : Accepts (readFrom count sofar fuel) fun a v =>
    ∃ n, a = write n ∧ v = sofar + n * Nat.pow 128 count ∧ n < Nat.pow 128 fuel ∧ (n = 0 → count = 0 ∧ fuel ≠ 0) := by
  induction fuel generalizing count sofar with
  | zero =>
    refine (accepts_fail .corrupt).congr fun a v => ?_
    constructor
    · exact False.elim
    · rintro ⟨n, -, -, hn, hz⟩
      exact (hz (Nat.lt_one_iff.mp hn)).2 rfl
  | succ fuel ih =>
    refine fun v => (AcceptsAt.octet fun b => AcceptsAt.ite (fun _ => AcceptsAt.demand (accepts_pure _ v))
      fun _ => ih _ _ v).congr fun a => ?_
    have hfuel : Nat.pow 128 (fuel + 1) = Nat.pow 128 fuel * 128 := rfl
    have hpos : 0 < Nat.pow 128 fuel := Nat.pow_pos (by decide)
    have hvalue : ∀ m k, sofar + m * Nat.pow 128 count + k * Nat.pow 128 (count + 1) =
        sofar + (m + k * 128) * Nat.pow 128 count := by
      intro m k
      show _ + k * (Nat.pow 128 count * 128) = _
      rw [Nat.add_mul, Nat.add_assoc, Nat.mul_assoc k, Nat.mul_comm 128]
    constructor
    · rintro ⟨b, c, rfl, ⟨hb, hz, rfl, rfl⟩ | ⟨hb, n, rfl, rfl, hn, hz⟩⟩
      · have hlow : b.toNat < 128 := hb
        refine ⟨b.toNat, ?_, ?_, by omega, fun h0 => ⟨?_, Nat.succ_ne_zero fuel⟩⟩
        · rw [write_of_lt hlow, Nat.toUInt8_eq, UInt8.ofNat_toNat]
        · rw [Nat.mod_eq_of_lt hlow]
        · have hb0 : b = 0 := UInt8.toNat_inj.mp h0
          simpa [hb0] using hz
      · have hn0 : n ≠ 0 := fun h0 => Nat.succ_ne_zero count (hz h0).1
        have hmod : b.toNat % 128 < 128 := Nat.mod_lt _ (by decide)
        exact ⟨_, (write_of_high hb hn0).symm, hvalue _ _, by omega, by omega⟩
    · rintro ⟨n, rfl, rfl, hn, hz⟩
      by_cases hlow : n < 128
      · have hb := toNat_toUInt8 (n := n) (by omega)
        have hn0 : n = 0 ∨ n.toUInt8 ≠ 0 := by
          by_cases h0 : n = 0
          · exact .inl h0
          · exact .inr fun he => h0 (hb.symm.trans (congrArg UInt8.toNat he))
        refine ⟨n.toUInt8, [], write_of_lt hlow, .inl ⟨?_, ?_, rfl, ?_⟩⟩
        · show n.toUInt8.toNat < 128
          omega
        · rcases hn0 with h0 | h0
          · simp [(hz h0).1]
          · simp [h0]
        · rw [hb, Nat.mod_eq_of_lt hlow]
      · obtain ⟨b, hb, m, hm, rfl⟩ := exists_high hlow
        exact ⟨b, write m, write_of_high hb hm, .inr ⟨hb, m, rfl, (hvalue _ _).symm, by omega, fun h0 => absurd h0 hm⟩⟩

end Varint

theorem accepts_varint : Accepts Varint.read fun a n => a = Varint.write n ∧ n < sizeLimit := by
  refine (Varint.accepts_readFrom 0 0 9).congr fun a v => ?_
  have hlimit : Nat.pow 128 9 = sizeLimit := by decide
  constructor
  · rintro ⟨n, rfl, rfl, hn, -⟩
    have hv : 0 + n * Nat.pow 128 0 = n := by rw [Nat.zero_add]; exact Nat.mul_one n
    rw [hv]
    exact ⟨rfl, hlimit ▸ hn⟩
  · rintro ⟨rfl, hv⟩
    refine ⟨v, rfl, ?_, hlimit ▸ hv, fun _ => ⟨rfl, by decide⟩⟩
    rw [Nat.zero_add]
    exact (Nat.mul_one v).symm

/-! ## (2) Header and footer -/

theorem ofFlags?_eq_some_iff {flags : Bytes} : Check.ofFlags? flags = some check ↔ flags = check.flags ∧ check.id < 16 := by
  constructor
  · intro h
    unfold Check.ofFlags? at h
    split at h
    · rename_i a b
      by_cases hab : a = 0 ∧ b < 16
      · rw [if_pos hab] at h
        cases h
        refine ⟨?_, hab.2⟩
        rw [Check.flags, hab.1, Nat.toUInt8_eq, UInt8.ofNat_toNat]
      · rw [if_neg hab] at h
        cases h
    · cases h
  · rintro ⟨rfl, hid⟩
    have hb := Varint.toNat_toUInt8 (n := check.id) (by omega)
    have hlow : check.id.toUInt8 < 16 := by
      show check.id.toUInt8.toNat < 16
      omega
    rw [Check.flags, Check.ofFlags?, if_pos ⟨rfl, hlow⟩, hb]

theorem accepts_flags (flags : Bytes) : Accepts (File.readFlags flags) fun a c => a = [] ∧ flags = c.flags ∧ c.id < 16 := by
  rw [File.readFlags]
  cases hf : Check.ofFlags? flags with
  | some c =>
    refine (accepts_pure c).congr fun a x => and_congr_right fun _ => ?_
    rw [← ofFlags?_eq_some_iff, hf, Option.some.injEq, eq_comm]
  | none =>
    refine (accepts_fail .options).congr fun a x => ?_
    rw [← ofFlags?_eq_some_iff, hf]
    simp

/-- Octets in three parts. -/
theorem eq_of_thirds {s a b c : Bytes} {i j : Nat} (ha : s.take i = a) (hb : (s.drop i).take j = b) (hc : s.drop (i + j) = c) :
    s = a ++ b ++ c := by
  rw [← ha, ← hb, ← hc, List.append_assoc, ← List.drop_drop, List.take_append_drop, List.take_append_drop]

theorem accepts_header (notMagic : Flaw) :
    Accepts (File.readHeader notMagic) fun a c => a = File.header c ∧ c.id < 16 := by
  refine fun c => (AcceptsAt.take fun fields => AcceptsAt.demand (AcceptsAt.demand (accepts_flags _ c))).congr fun a => ?_
  constructor
  · rintro ⟨fields, _, rfl, hlen, hmagic, hsum, rfl, hflags, hid⟩
    rw [hflags] at hsum
    rw [List.append_nil]
    exact ⟨eq_of_thirds (eq_of_beq hmagic) hflags (eq_of_beq hsum), hid⟩
  · rintro ⟨rfl, hid⟩
    exact ⟨File.header c, [], (List.append_nil _).symm, rfl, beq_self_eq_true magic, beq_self_eq_true _, rfl, rfl, hid⟩

/-- The sizes that a footer can name: multiples of four that are not zero, up to 2^34. -/
def Index.Named (size : Nat) : Prop := ∃ w : UInt32, size = 4 * (w.toNat + 1)

theorem word_of_named {w : UInt32} (h : size = 4 * (w.toNat + 1)) : (size / 4 - 1).toUInt32 = w := by
  have hw : size / 4 - 1 = w.toNat := by omega
  rw [hw, Nat.toUInt32_eq, UInt32.ofNat_toNat]

theorem accepts_footer : Accepts (File.readFooter check size) fun a _ =>
    a = File.footer check size ∧ check.id < 16 ∧ Index.Named size := by
  refine fun u => (AcceptsAt.take fun fields => AcceptsAt.demand (AcceptsAt.demand
    (AcceptsAt.bind (accepts_flags _) fun c => AcceptsAt.demand (accepts_demand _ _ u)))).congr fun a => ?_
  constructor
  · rintro ⟨fields, _, rfl, hlen, hmagic, hsum, found, _, _, rfl, ⟨rfl, hflags, hid⟩, hsize, rfl, hfound⟩
    obtain rfl := eq_of_beq hfound
    have hw := (eq_of_beq hsize).symm
    refine ⟨?_, hid, _, hw⟩
    have hword : ((fields.drop 4).take 6).take 4 = Bytes.le32 (size / 4 - 1).toUInt32 := by
      rw [word_of_named hw, Bytes.le32_ofLe32]
      rw [List.length_take, List.length_take, List.length_drop, hlen]
      rfl
    have hsummed : (fields.drop 4).take 6 = Bytes.le32 (size / 4 - 1).toUInt32 ++ found.flags := by
      rw [← hword, ← hflags, List.take_append_drop]
    rw [hsummed] at hsum
    rw [List.append_nil, List.append_nil]
    exact eq_of_thirds (eq_of_beq hsum) hsummed (eq_of_beq hmagic)
  · rintro ⟨rfl, hid, w, hw⟩
    refine ⟨File.footer check size, [], (List.append_nil _).symm, rfl, beq_self_eq_true footerMagic,
      beq_self_eq_true _, check, [], [], rfl, ⟨rfl, rfl, hid⟩, ?_, rfl, beq_self_eq_true check⟩
    rw [beq_iff_eq, hw]
    show 4 * ((Bytes.ofLe32 (Bytes.le32 _)).toNat + 1) = _
    rw [word_of_named rfl, Bytes.ofLe32_le32]

/-! ## (3) The index -/

/-- The sizes of a block that an index can name. -/
structure Record.Fits (r : Record) : Prop where
  least : 5 ≤ r.unpadded
  most : r.unpadded ≤ unpaddedLimit
  contents : r.contents < sizeLimit

theorem accepts_record : Accepts Record.read fun a r => a = r.write ∧ r.Fits := by
  refine fun r => (AcceptsAt.bind accepts_varint fun unpadded => AcceptsAt.demand
    (AcceptsAt.bind accepts_varint fun contents => accepts_pure _ r)).congr fun a => ?_
  constructor
  · rintro ⟨n, _, _, rfl, ⟨rfl, -⟩, hbounds, m, _, _, rfl, ⟨rfl, hm⟩, rfl, rfl⟩
    have hb : 5 ≤ n ∧ n ≤ unpaddedLimit := by simpa using hbounds
    exact ⟨by rw [List.append_nil]; rfl, hb.1, hb.2, hm⟩
  · rintro ⟨rfl, hmin, hmax, hc⟩
    refine ⟨r.unpadded, _, _, rfl, ⟨rfl, Nat.lt_of_le_of_lt hmax (by decide)⟩, ?_, r.contents, Varint.write r.contents, [],
      (List.append_nil _).symm, ⟨rfl, hc⟩, rfl, rfl⟩
    simp [hmin, hmax]

/-- No sum of the first records, of any number of them, is more than it may be. -/
def Index.Within (most : Index.Sums) : Index.Sums → List Record → Prop
  | _, [] => True
  | sofar, r :: records => (sofar.add r).within most = true ∧ Within most (sofar.add r) records

theorem accepts_readRecords (most : Index.Sums) (n : Nat) (sofar : Index.Sums) :
    Accepts (Index.readRecords most n sofar) fun a records =>
      a = records.flatMap Record.write ∧ records.length = n ∧ (∀ r ∈ records, r.Fits) ∧ Index.Within most sofar records := by
  induction n generalizing sofar with
  | zero =>
    refine (accepts_pure []).congr fun a records => ?_
    constructor
    · rintro ⟨rfl, rfl⟩
      exact ⟨rfl, rfl, by simp, trivial⟩
    · rintro ⟨rfl, hn, -⟩
      obtain rfl := List.length_eq_zero_iff.mp hn
      exact ⟨rfl, rfl⟩
  | succ n ih =>
    refine fun records => (AcceptsAt.bind accepts_record fun r => AcceptsAt.demand
      (AcceptsAt.bind (ih (sofar.add r)) fun rest => accepts_pure _ records)).congr fun a => ?_
    constructor
    · rintro ⟨r, _, _, rfl, ⟨rfl, hr⟩, hw, rest, _, _, rfl, ⟨rfl, rfl, hrest, hws⟩, rfl, rfl⟩
      refine ⟨by rw [List.append_nil]; rfl, rfl, ?_, hw, hws⟩
      exact List.forall_mem_cons.mpr ⟨hr, hrest⟩
    · rintro ⟨rfl, hn, hfit, hws⟩
      obtain ⟨r, rest, rfl⟩ := List.exists_cons_of_length_eq_add_one hn
      obtain ⟨hr, hrest⟩ := List.forall_mem_cons.mp hfit
      exact ⟨r, _, _, rfl, ⟨rfl, hr⟩, hws.1, rest, rest.flatMap Record.write, [], (List.append_nil _).symm,
        ⟨rfl, by simpa using hn, hrest, hws.2⟩, rfl, rfl⟩

theorem Index.Sums.within_add {t u : Index.Sums} (h : t.within u = true) (r : Record) : t.within (u.add r) = true := by
  simp only [Index.Sums.within, Bool.and_eq_true, decide_eq_true_eq] at h ⊢
  obtain ⟨⟨hb, hc⟩, hl⟩ := h
  exact ⟨⟨Nat.le_add_right_of_le hb, Nat.le_add_right_of_le hc⟩, Nat.le_add_right_of_le hl⟩

theorem Index.Sums.within_foldl {t u : Index.Sums} (h : t.within u = true) (records : List Record) :
    t.within (records.foldl Index.Sums.add u) = true := by
  induction records generalizing u with
  | nil => exact h
  | cons r records ih => exact ih (within_add h r)

/-- The sums of some records are never more than those of all. -/
theorem Index.within_foldl (t : Index.Sums) (records : List Record) :
    Index.Within (records.foldl Index.Sums.add t) t records := by
  induction records generalizing t with
  | nil => trivial
  | cons r records ih => exact ⟨Index.Sums.within_foldl (by simp [Index.Sums.within]) records, ih (t.add r)⟩

/-- Where a scan needs an octet anyhow, nothing is changed by asking for one first. -/
theorem AcceptsAt.more {β : Type} {q : Unit → Scan β} {M : Bytes → β → Prop} {z : β} (hq : AcceptsAt (q ()) M z)
    (hne : ∀ a, M a z → a ≠ []) : AcceptsAt (Index.more >>= q) M z := by
  intro s r
  rw [← hq s r, bind_eq_ok_iff]
  constructor
  · rintro ⟨u, t, hu, h⟩
    rw [Index.more] at hu
    split at hu
    · cases hu
    · cases hu
      exact h
  · intro h
    refine ⟨(), s, ?_, h⟩
    obtain ⟨a, rfl, ha⟩ := (hq s r).mp h
    rw [Index.more, if_neg]
    simp [hne a ha]

theorem accepts_expect (t : Bytes) : Accepts (Index.expect t) fun a _ => a = t := by
  induction t with
  | nil => exact (accepts_pure ()).congr fun a _ => and_iff_left rfl
  | cons b t ih =>
    refine fun u => (AcceptsAt.octet fun c => (AcceptsAt.demand (ih u) : AcceptsAt _ _ u)).congr fun a => ?_
    constructor
    · rintro ⟨c, d, rfl, hc, rfl⟩
      rw [eq_of_beq hc]
    · rintro rfl
      exact ⟨b, t, rfl, beq_self_eq_true b, rfl⟩

/-- How far the fields of an index reach that has so many records with such texts. -/
def Index.listed (records : List Record) : Nat :=
  1 + (Varint.write records.length).length + (records.flatMap Record.write).length

theorem Index.write_eq (records : List Record) : Index.write records =
    0 :: (Varint.write records.length ++ (records.flatMap Record.write ++
      (Bytes.zeros (Bytes.padding4 (Index.listed records)) ++ Bytes.le32 (Checksum.crc32 (Index.body records))))) := by
  have hlisted : (0 :: Varint.write records.length ++ records.flatMap Record.write).length = Index.listed records := by
    rw [Index.listed, List.length_append, List.length_cons, Nat.add_comm 1]
  have hbody : Index.body records = 0 :: Varint.write records.length ++ records.flatMap Record.write ++
      Bytes.zeros (Bytes.padding4 (Index.listed records)) := by
    rw [← hlisted]
    rfl
  apply (congrArg (· ++ Bytes.le32 (Checksum.crc32 (Index.body records))) hbody).trans
  simp only [List.append_assoc, List.cons_append]

theorem accepts_index : Accepts (Index.read records) fun a _ =>
    0 :: a = Index.write records ∧ records.length < sizeLimit ∧ ∀ r ∈ records, r.Fits := by
  let sum := Bytes.le32 (Checksum.crc32 (Index.body records))
  have hsum : ∀ found : List Record, ∀ u, AcceptsAt
      (Index.more >>= fun _ => Scan.demand (found == records) .corrupt >>= fun _ => Index.expect sum)
      (fun a _ => (found == records) = true ∧ a = sum) u := by
    intro found u
    refine AcceptsAt.more (AcceptsAt.demand (accepts_expect sum u)) ?_
    rintro a ⟨-, rfl⟩
    exact List.cons_ne_nil _ _
  refine fun u => (AcceptsAt.bind accepts_varint fun count => AcceptsAt.demand (AcceptsAt.bind
    (accepts_readRecords _ count _) fun found => AcceptsAt.bind (accepts_zeros .corrupt _) fun _ => hsum found u)).congr
      fun a => ?_
  rw [Index.write_eq]
  constructor
  · rintro ⟨n, _, _, rfl, ⟨rfl, hn⟩, hcount, found, _, _, rfl, ⟨rfl, hlen, hfit, -⟩, _, _, _, rfl, rfl, hfound, rfl⟩
    obtain rfl := eq_of_beq hcount
    obtain rfl := eq_of_beq hfound
    exact ⟨rfl, hn, hfit⟩
  · rintro ⟨ha, hn, hfit⟩
    exact ⟨records.length, _, _, (List.cons.inj ha).2, ⟨rfl, hn⟩, beq_self_eq_true _, records, _, _, rfl,
      ⟨rfl, rfl, hfit, Index.within_foldl _ records⟩, (), _, _, rfl, rfl, beq_self_eq_true _, rfl⟩

theorem length_body (records : List Record) : (Index.body records).length % 4 = 0 := by
  rw [Index.body, List.length_append, Bytes.zeros, List.length_replicate, Bytes.padding4]
  omega

/-- An index can be too large for a footer, and is never anything else that a footer cannot name. -/
theorem named_size (records : List Record) : Index.Named (Index.size records) ↔ Index.size records ≤ Nat.pow 2 34 := by
  have hlimit : Nat.pow 2 34 = 4 * 4294967296 := by decide
  have hbody := length_body records
  rw [hlimit, Index.size]
  constructor
  · rintro ⟨w, hw⟩
    have hlt : w.toNat < 4294967296 := w.toNat_lt
    omega
  · intro hle
    refine ⟨UInt32.ofNat ((Index.body records).length / 4), ?_⟩
    rw [UInt32.toNat_ofNat', Nat.mod_eq_of_lt (by omega)]
    omega

end FlatPackage.Xz
