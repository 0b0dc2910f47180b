/-
  FlatPackage.Proofs.Xz.Accept — what a scan reads, and from which octets.

  A scan accepts a language when it reads a value from exactly the octets that the language has for
  the value, whatever follows them, and leaves what follows. How it fails is not said. Scans that are put
  together accept what is put together from their languages, so that the language of a scan is written
  down along its definition and then brought into the form of the format.

  Proved:
  (1) `Accepts.append_inj`: no two texts of a language begin one another.
  (2) `accepts_octet`, `accepts_take`, `accepts_demand`: the scans that all others are made of.
  (3) `AcceptsAt.bind`, `acceptsAt_repeated`: one scan after another, and a scan that is repeated.
  (4) `FillsAt.bind`: scans of which the last one takes all there is.
-/

import FlatPackage.Xz.Scan

namespace FlatPackage.Xz

variable {α β σ τ : Type} {p : Scan α} {f : α → Scan β} {L L' : Bytes → α → Prop} {M : α → Bytes → β → Prop} {x y : α}
  {z : β} {a b r s : Bytes} {flaw : Flaw}

/-! ## (1) Languages -/

/-- The value `x` is read from the octets that `L` has for it, and from nothing else. -/
def AcceptsAt (p : Scan α) (L : Bytes → α → Prop) (x : α) : Prop := ∀ s r, p s = .ok (x, r) ↔ ∃ a, s = a ++ r ∧ L a x

abbrev Accepts (p : Scan α) (L : Bytes → α → Prop) : Prop := ∀ x, AcceptsAt p L x

theorem AcceptsAt.congr (h : AcceptsAt p L x) (hL : ∀ a, L a x ↔ L' a x) : AcceptsAt p L' x := by
  intro s r
  simp only [h s r, hL]

theorem Accepts.congr (h : Accepts p L) (hL : ∀ a x, L a x ↔ L' a x) : Accepts p L' := fun x => (h x).congr fun a => hL a x

theorem AcceptsAt.append (h : AcceptsAt p L x) (ha : L a x) (r : Bytes) : p (a ++ r) = .ok (x, r) :=
  (h (a ++ r) r).mpr ⟨a, rfl, ha⟩

/-- The texts of a value are those that are read as it to the end. -/
theorem AcceptsAt.iff_whole (h : AcceptsAt p L x) : L a x ↔ p a = .ok (x, []) := by
  rw [h a []]
  constructor
  · intro ha
    exact ⟨a, (List.append_nil a).symm, ha⟩
  · rintro ⟨a', ha, hL⟩
    rwa [ha, List.append_nil]

/-- Where nothing is read as a value, it has no text. -/
theorem acceptsAt_of_never (h : ∀ s r, p s ≠ .ok (x, r)) (hL : ∀ a, ¬ L a x) : AcceptsAt p L x := by
  intro s r
  constructor
  · intro hs
    exact absurd hs (h s r)
  · rintro ⟨a, -, ha⟩
    exact absurd ha (hL a)

/-- Where two texts of a language begin the same octets, they are one, and are read as the same. -/
theorem Accepts.append_inj (h : Accepts p L) (ha : L a x) (hb : L b y) (he : a ++ r = b ++ s) : a = b ∧ x = y ∧ r = s := by
  have hx := (h x).append ha r
  rw [he, (h y).append hb s] at hx
  obtain ⟨rfl, rfl⟩ := Prod.mk.inj (Except.ok.inj hx)
  exact ⟨List.append_cancel_right he, rfl, rfl⟩

/-! ## (2) Single scans -/

theorem accepts_pure (y : α) : Accepts (pure y : Scan α) fun a x => a = [] ∧ x = y := by
  intro x s r
  show Except.ok (y, s) = Except.ok (x, r) ↔ _
  constructor
  · intro h
    cases h
    exact ⟨[], rfl, rfl, rfl⟩
  · rintro ⟨a, rfl, rfl, rfl⟩
    rfl

theorem accepts_fail (flaw : Flaw) : Accepts (Scan.fail flaw : Scan α) fun _ _ => False := by
  intro x s r
  constructor
  · intro h
    cases h
  · rintro ⟨a, -, h⟩
    exact h.elim

theorem accepts_octet : Accepts Scan.octet fun a b => a = [b] := by
  intro b s r
  constructor
  · intro h
    cases s with
    | nil => cases h
    | cons c t =>
      cases h
      exact ⟨[b], rfl, rfl⟩
  · rintro ⟨a, rfl, rfl⟩
    rfl

theorem accepts_take (n : Nat) : Accepts (Scan.take n) fun a x => a = x ∧ a.length = n := by
  intro x s r
  rw [Scan.take]
  constructor
  · intro h
    cases hs : Bytes.splitExact? n s with
    | none => simp [hs] at h
    | some split =>
      obtain ⟨b, t⟩ := split
      obtain ⟨hsplit, hlen⟩ := Bytes.splitExact?_eq_some hs
      simp only [hs] at h
      cases h
      exact ⟨_, hsplit, rfl, hlen⟩
  · rintro ⟨a, rfl, rfl, rfl⟩
    rw [Bytes.splitExact?_append]

theorem accepts_demand (ok : Bool) (flaw : Flaw) : Accepts (Scan.demand ok flaw) fun a _ => a = [] ∧ ok = true := by
  intro u s r
  rw [Scan.demand]
  constructor
  · intro h
    cases ok with
    | false => cases h
    | true =>
      cases h
      exact ⟨[], rfl, rfl, rfl⟩
  · rintro ⟨a, rfl, rfl, rfl⟩
    rfl

/-! ## (3) Scans put together -/

theorem bind_eq_ok_iff : (p >>= f) s = .ok (z, r) ↔ ∃ x t, p s = .ok (x, t) ∧ f x t = .ok (z, r) := by
  show (p s).bind (fun u => f u.1 u.2) = _ ↔ _
  cases p s with
  | error e =>
    constructor
    · intro h
      cases h
    · rintro ⟨x, t, h, -⟩
      cases h
  | ok u =>
    obtain ⟨x, t⟩ := u
    constructor
    · intro h
      exact ⟨x, t, rfl, h⟩
    · rintro ⟨x', t', h, hf⟩
      cases h
      exact hf

theorem AcceptsAt.bind (hp : Accepts p L) (hf : ∀ x, AcceptsAt (f x) (M x) z) :
    AcceptsAt (p >>= f) (fun a z => ∃ x b c, a = b ++ c ∧ L b x ∧ M x c z) z := by
  intro s r
  rw [bind_eq_ok_iff]
  constructor
  · rintro ⟨x, t, hx, hz⟩
    obtain ⟨b, rfl, hb⟩ := (hp x s t).mp hx
    obtain ⟨c, rfl, hc⟩ := (hf x t r).mp hz
    exact ⟨b ++ c, (List.append_assoc b c r).symm, x, b, c, rfl, hb, hc⟩
  · rintro ⟨a, rfl, x, b, c, rfl, hb, hc⟩
    rw [List.append_assoc]
    exact ⟨x, c ++ r, (hp x).append hb _, (hf x).append hc r⟩

/-- An octet and what follows it. -/
theorem AcceptsAt.octet {f : UInt8 → Scan β} {M : UInt8 → Bytes → β → Prop} (hf : ∀ b, AcceptsAt (f b) (M b) z) :
    AcceptsAt (Scan.octet >>= f) (fun a z => ∃ b c, a = b :: c ∧ M b c z) z := by
  refine (AcceptsAt.bind accepts_octet hf).congr fun a => ?_
  constructor
  · rintro ⟨b, _, c, rfl, rfl, hc⟩
    exact ⟨b, c, rfl, hc⟩
  · rintro ⟨b, c, rfl, hc⟩
    exact ⟨b, [b], c, rfl, rfl, hc⟩

/-- Octets of a known number and what follows them. -/
theorem AcceptsAt.take {n : Nat} {f : Bytes → Scan β} {M : Bytes → Bytes → β → Prop} (hf : ∀ b, AcceptsAt (f b) (M b) z) :
    AcceptsAt (Scan.take n >>= f) (fun a z => ∃ b c, a = b ++ c ∧ b.length = n ∧ M b c z) z := by
  refine (AcceptsAt.bind (accepts_take n) hf).congr fun a => ?_
  constructor
  · rintro ⟨b, _, c, rfl, ⟨rfl, hl⟩, hc⟩
    exact ⟨_, c, rfl, hl, hc⟩
  · rintro ⟨b, c, rfl, hl, hc⟩
    exact ⟨b, b, c, rfl, ⟨rfl, hl⟩, hc⟩

/-- A demand takes nothing. -/
theorem AcceptsAt.demand {ok : Bool} {f : Unit → Scan β} {M : Bytes → β → Prop} (hf : AcceptsAt (f ()) M z) :
    AcceptsAt (Scan.demand ok flaw >>= f) (fun a z => ok = true ∧ M a z) z := by
  refine (AcceptsAt.bind (M := fun _ => M) (accepts_demand ok flaw) fun _ => hf).congr fun a => ?_
  constructor
  · rintro ⟨_, _, c, rfl, ⟨rfl, hok⟩, hc⟩
    exact ⟨hok, hc⟩
  · rintro ⟨hok, ha⟩
    exact ⟨(), [], a, rfl, ⟨rfl, hok⟩, ha⟩

/-- One scan or another, by what is known before either. -/
theorem AcceptsAt.ite {c : Prop} [Decidable c] {q : Scan α} (hp : c → AcceptsAt p L x) (hq : ¬ c → AcceptsAt q L' x) :
    AcceptsAt (if c then p else q) (fun a y => c ∧ L a y ∨ ¬ c ∧ L' a y) x := by
  by_cases hc : c
  · rw [if_pos hc]
    exact (hp hc).congr fun a => by simp [hc]
  · rw [if_neg hc]
    exact (hq hc).congr fun a => by simp [hc]

theorem accepts_zeros (flaw : Flaw) (n : Nat) : Accepts (Scan.zeros flaw n) fun a _ => a = Bytes.zeros n := by
  induction n with
  | zero => exact (accepts_pure ()).congr fun a _ => and_iff_left rfl
  | succ n ih =>
    refine fun u => (AcceptsAt.octet fun b => (AcceptsAt.demand (ih u) : AcceptsAt _ _ u)).congr fun a => ?_
    constructor
    · rintro ⟨b, c, rfl, hb, rfl⟩
      rw [eq_of_beq hb]
      rfl
    · rintro rfl
      exact ⟨0, Bytes.zeros n, rfl, rfl, rfl⟩

/-- What is read by one turn after another, of which each takes something, and a last one. -/
inductive Turns (T : σ → Bytes → Scan.Turn σ τ → Prop) : σ → Bytes → τ → Prop
  | done {x : σ} {a : Bytes} {y : τ} : T x a (.done y) → Turns T x a y
  | more {x x' : σ} {a b : Bytes} {y : τ} : T x a (.more x') → a ≠ [] → Turns T x' b y → Turns T x (a ++ b) y

theorem acceptsAt_repeated {turn : σ → Scan (Scan.Turn σ τ)} {T : σ → Bytes → Scan.Turn σ τ → Prop} {y : τ}
    (hmore : ∀ x x', AcceptsAt (turn x) (T x) (.more x')) (hdone : ∀ x, AcceptsAt (turn x) (T x) (.done y)) (x : σ) :
    AcceptsAt (Scan.repeated turn x) (Turns T x) y := by
  intro s r
  constructor
  · intro h
    -- by induction on the octets that are left
    induction hn : s.length using Nat.strongRecOn generalizing s x with
    | ind n ih =>
      rw [Scan.repeated] at h
      split at h
      · cases h
      · rename_i hturn
        cases h
        obtain ⟨a, rfl, ha⟩ := (hdone x _ r).mp hturn
        exact ⟨a, rfl, .done ha⟩
      · rename_i x' t hturn
        split at h
        · rename_i hlt
          obtain ⟨a, rfl, ha⟩ := (hmore x x' _ t).mp hturn
          obtain ⟨b, rfl, hb⟩ := ih _ (hn ▸ hlt) x' t h rfl
          refine ⟨a ++ b, (List.append_assoc a b r).symm, .more ha ?_ hb⟩
          rintro rfl
          exact absurd hlt (Nat.lt_irrefl _)
        · cases h
  · rintro ⟨a, rfl, ha⟩
    induction ha with
    | done ha => rw [Scan.repeated, (hdone _).append ha r]
    | @more x x' a b y ha hne hb ih =>
      have hlt : (b ++ r).length < (a ++ b ++ r).length := by
        have hpos : 0 < a.length := List.length_pos_iff.mpr hne
        simp only [List.length_append]
        omega
      rw [Scan.repeated, List.append_assoc, (hmore x x').append ha (b ++ r), ← List.append_assoc]
      simp only [if_pos hlt]
      exact ih hdone

/-! ## (4) Texts strung together, and scans of all there is -/

/-- Texts that stand for some values, one behind the other. -/
inductive Strung (L : Bytes → α → Prop) : Bytes → List α → Prop
  | nil : Strung L [] []
  | cons {a b : Bytes} {x : α} {xs : List α} : L a x → Strung L b xs → Strung L (a ++ b) (x :: xs)

/-- The value `x` is read from the octets that `L` has for it when nothing follows them. -/
def FillsAt (p : Scan α) (L : Bytes → α → Prop) (x : α) : Prop := ∀ a, p a = .ok (x, []) ↔ L a x

theorem FillsAt.congr (h : FillsAt p L x) (hL : ∀ a, L a x ↔ L' a x) : FillsAt p L' x := by
  intro a
  rw [h a, hL]

theorem FillsAt.bind (hp : Accepts p L) (hf : ∀ x, FillsAt (f x) (M x) z) :
    FillsAt (p >>= f) (fun a z => ∃ x b c, a = b ++ c ∧ L b x ∧ M x c z) z := by
  intro a
  rw [bind_eq_ok_iff]
  constructor
  · rintro ⟨x, c, hx, hz⟩
    obtain ⟨b, rfl, hb⟩ := (hp x a c).mp hx
    exact ⟨x, b, c, rfl, hb, (hf x c).mp hz⟩
  · rintro ⟨x, b, c, rfl, hb, hc⟩
    exact ⟨x, c, (hp x).append hb c, (hf x c).mpr hc⟩

/-- A region that is read is read to its end. -/
theorem confined_eq_ok_iff {region : Bytes} : Scan.confined flaw p region = .ok x ↔ p region = .ok (x, []) := by
  unfold Scan.confined
  split <;> rename_i h <;> simp [h]

end FlatPackage.Xz
