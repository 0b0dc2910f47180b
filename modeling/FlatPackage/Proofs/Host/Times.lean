/-
  FlatPackage.Proofs.Host.Times — the second that a file's time is shown as.

  A file's time is moved by what lies between the readings of the two clocks (`Clocks.lag`) and then cut
  off toward zero. Nothing else comes in, so what is shown is the second that the time is in exactly
  while the moved time is cut off to that second (`Clocks.Keeps`). After the epoch that fails when the
  second passes between the readings; before it, it fails for every time inside a second that is
  read without a lag.

  Proved:
  (1) `seconds_eq`, `seconds_eq_iff`: the second that is shown, and when it is the time's own.
  (2) `describeAt_at`: the same node described at other readings, by whatever path.
  (3) `times_shown`: what the readings do to a description.
  Trace: a file of the last nanosecond of a second (`in_the_last_nanosecond`), and times that are shown
  as a second they are not in (`a_second_it_is_not_in`).
-/

import FlatPackage.Host.Setup
import FlatPackage.Proofs.Host.Listing

namespace FlatPackage

namespace Clocks

variable {c : Clocks} {t : Int}

/-! ## (1) Seconds -/

/-- What passes from the reading of the file clock to that of the other one. -/
def lag (c : Clocks) : Int := c.system - c.file

/-- Cutting off toward zero leads to the next second before the epoch. -/
theorem tdiv_second (t : Int) : t.tdiv second = t / second + if t < 0 ∧ t % second ≠ 0 then 1 else 0 := by
  have hexact : 0 ≤ t ∨ second ∣ t ↔ ¬(t < 0 ∧ t % second ≠ 0) := by
    rw [Int.dvd_iff_emod_eq_zero]
    omega
  rw [Int.tdiv_eq_ediv]
  by_cases hneg : t < 0 ∧ t % second ≠ 0
  · rw [if_pos hneg, if_neg fun he => hexact.mp he hneg]
    rfl
  · rw [if_neg hneg, if_pos (hexact.mpr hneg)]

theorem seconds_eq (c : Clocks) (t : Int) :
    c.seconds t = (t + c.lag) / second + if t + c.lag < 0 ∧ (t + c.lag) % second ≠ 0 then 1 else 0 := by
  have hmoved : t - c.file + c.system = t + c.lag := by
    rw [lag]
    omega
  rw [seconds, hmoved, tdiv_second]

/-- The moved time is cut off to the second that the time is in. -/
def Keeps (c : Clocks) (t : Int) : Prop :=
  if 0 ≤ t + c.lag then 0 ≤ t % second + c.lag ∧ t % second + c.lag < second
  else -second < t % second + c.lag ∧ t % second + c.lag ≤ 0

theorem seconds_eq_iff (c : Clocks) (t : Int) : c.seconds t = t / second ↔ c.Keeps t := by
  rw [seconds_eq, Keeps, second]
  generalize c.lag = lag
  by_cases hneg : 0 ≤ t + lag
  · rw [if_pos hneg, if_neg (by omega)]
    omega
  · rw [if_neg hneg]
    split <;> omega

/-- Of clocks that are read in one instant, before the epoch only whole seconds are kept. -/
theorem keeps_of_no_lag (hlag : c.lag = 0) : c.Keeps t ↔ 0 ≤ t ∨ t % second = 0 := by
  rw [Keeps, hlag, second]
  split <;> omega

/-- After the epoch a time is kept while its second does not pass between the readings. -/
theorem keeps_of_lag (ht : 0 ≤ t) (hlag : 0 ≤ c.lag) : c.Keeps t ↔ t % second + c.lag < second := by
  rw [Keeps, if_pos (by omega), second]
  omega

/-- No time is kept at all readings. -/
theorem exists_not_keeps (t : Int) : ∃ c : Clocks, ¬c.Keeps t := by
  have hlag : (⟨0, second + t.natAbs⟩ : Clocks).lag = second + t.natAbs := Int.sub_zero _
  refine ⟨⟨0, second + t.natAbs⟩, ?_⟩
  rw [Keeps, hlag, second, if_pos (by omega)]
  omega

end Clocks

namespace Host

open FlatPackage.Tree (Node)

variable {h : Host} {s : String} {d : Descriptor} {p : Place} {m : Node}

/-! ## (2) Other readings -/

/-- The time of what a path leads to, and the present if it leads nowhere. -/
def shownTime (c : Clocks) (followed : Option Node) : Int := followed.elim c.now fun m => c.seconds m.mtime

theorem ofNode_at (c c' : Clocks) (absolute relative : String) (n : Node) (followed : Option Node) :
    Descriptor.ofNode c absolute relative n followed =
      { Descriptor.ofNode c' absolute relative n followed with mtime := shownTime c followed } := by
  cases followed <;> rfl

/-- At other readings a text is described as before, but for the time of what it leads to. -/
theorem describeAt_at (h : Host) (text name : String) (c : Clocks) :
    ({ h with clocks := c } : Host).describeAt text name =
      (h.describeAt text name).map fun d => { d with mtime := shownTime c ((h.find true text).toOption.map Prod.snd) } := by
  have hfind : ∀ follow, ({ h with clocks := c } : Host).find follow text = h.find follow text := fun _ => rfl
  unfold describeAt
  rw [hfind, hfind]
  cases h.find false text with
  | error why => rfl
  | ok x => exact congrArg Except.ok (ofNode_at c h.clocks text name x.2 _)

theorem describe_at (hd : h.describe s = .ok d) (hm : h.find true d.absolute = .ok (p, m)) (c : Clocks) :
    ({ h with clocks := c } : Host).describe s = .ok { d with mtime := c.seconds m.mtime } := by
  have hs : s ≠ "" := by
    rintro rfl
    cases hd
  rw [describe, if_neg hs] at hd ⊢
  have habs : d.absolute = (h.absolute s).text := by
    unfold describeAt at hd
    split at hd
    · cases hd
    · cases hd
      rfl
  have hat := h.describeAt_at (h.absolute s).text (h.absolute s).name c
  rw [hd, ← habs, hm] at hat
  show ({ h with clocks := c } : Host).describeAt (h.absolute s).text (h.absolute s).name = _
  rw [← habs]
  exact hat

/-- At other readings what is below a listed directory is described as before, but for the time of what it
    leads to. -/
theorem describeBelow_at (h : Host) (root : String) (dir q : Place) : ∃ followed : Option Node,
    (∀ p n, h.find false (textBelow root dir q) = .ok (p, n) → (∀ target, n.content ≠ .symlink target) →
      followed = some n) ∧
    ∀ c, ({ h with clocks := c } : Host).describeBelow root dir q =
      (h.describeBelow root dir q).map fun d => { d with mtime := shownTime c followed } := by
  refine ⟨(h.find true (textBelow root dir q)).toOption.map Prod.snd, fun p n hf hno => ?_, h.describeAt_at _ _⟩
  have htrue := resolve_of_noLink (find_eq_ok_iff.mp hf) fun m target hm => Option.some.inj hm ▸ hno target
  rw [find_eq_ok_iff.mpr htrue]
  rfl

/-! ## (3) What is shown -/

/-- For every host and every path that is described and leads somewhere. At any readings of the two clocks
    the path is described as before, but for the time, and so is what is listed. The time is shown as the
    second that it is in exactly if the readings keep it; the readings matter only through the lag
    between them, and no time is kept at all readings. -/
theorem times_shown (hd : h.describe s = .ok d) (hm : h.find true d.absolute = .ok (p, m)) (c : Clocks) :
    ({ h with clocks := c } : Host).describe s = .ok { d with mtime := c.seconds m.mtime } ∧
    (∀ root dir q, ∃ followed : Option Node,
      (∀ p n, h.find false (textBelow root dir q) = .ok (p, n) → (∀ target, n.content ≠ .symlink target) →
        followed = some n) ∧
      ∀ c, ({ h with clocks := c } : Host).describeBelow root dir q =
        (h.describeBelow root dir q).map fun d => { d with mtime := shownTime c followed }) ∧
    (c.lag = h.clocks.lag → c.seconds m.mtime = d.mtime) ∧
    (c.seconds m.mtime = m.mtime / Clocks.second ↔ c.Keeps m.mtime) ∧
    (c.lag = 0 → (c.Keeps m.mtime ↔ 0 ≤ m.mtime ∨ m.mtime % Clocks.second = 0)) ∧
    (0 ≤ m.mtime → 0 ≤ c.lag → (c.Keeps m.mtime ↔ m.mtime % Clocks.second + c.lag < Clocks.second)) ∧
    ∃ c' : Clocks, ¬c'.Keeps m.mtime := by
  refine ⟨describe_at hd hm c, describeBelow_at h, fun hlag => ?_,
    c.seconds_eq_iff m.mtime, Clocks.keeps_of_no_lag, Clocks.keeps_of_lag, Clocks.exists_not_keeps m.mtime⟩
  have hnow := describe_at hd hm h.clocks
  have hsame : d = { d with mtime := h.clocks.seconds m.mtime } := Except.ok.inj (hd.symm.trans hnow)
  rw [hsame, Clocks.seconds_eq, Clocks.seconds_eq, hlag]

/-- A file of a given time. -/
def dated (t : Int) : Host := ((Host.bare [] ⟨7, 7⟩).addFile "f" [] 0o640).setTime "f" t

/-- The last nanosecond of a second is kept when the clocks are read in one instant. -/
theorem in_the_last_nanosecond :
    let m : Node := ⟨.file [], 0o640, 999999999⟩
    let d : Descriptor := ⟨"/f", "f", .file, 0, 0o640, 0, ""⟩
    (dated 999999999).describe "f" = .ok d ∧ (dated 999999999).find true "/f" = .ok (["f"], m) ∧
      (⟨7, 7⟩ : Clocks).Keeps 999999999 ∧ ¬(⟨7, 8⟩ : Clocks).Keeps 999999999 ∧
      ({ dated 999999999 with clocks := ⟨7, 8⟩ } : Host).describe "f" = .ok { d with mtime := 1 } := by
  intro m d
  have hd : (dated 999999999).describe "f" = .ok d := by decide +kernel
  have hm : (dated 999999999).find true d.absolute = .ok (["f"], m) := by decide +kernel
  obtain ⟨-, -, -, -, hinstant, -, -⟩ := times_shown hd hm ⟨7, 7⟩
  obtain ⟨hlater, -, -, -, -, hlag, -⟩ := times_shown hd hm ⟨7, 8⟩
  refine ⟨hd, hm, (hinstant (by decide)).mpr (.inl (by decide)), fun hkeeps => ?_, hlater⟩
  exact absurd ((hlag (by decide) (by decide)).mp hkeeps) (by decide)

/-- Half a second before the epoch is shown as the epoch, also when the clocks are read in one instant; a
    nanosecond between the readings shows a file as a second older or younger. -/
theorem a_second_it_is_not_in :
    (dated (-500000000)).describe "f" = .ok ⟨"/f", "f", .file, 0, 0o640, 0, ""⟩ ∧ -500000000 / Clocks.second = -1 ∧
      (dated 999999999).describe "f" = .ok ⟨"/f", "f", .file, 0, 0o640, 0, ""⟩ ∧
      ({ dated 999999999 with clocks := ⟨7, 8⟩ } : Host).describe "f" = .ok ⟨"/f", "f", .file, 0, 0o640, 1, ""⟩ ∧
      (dated 1000000000).describe "f" = .ok ⟨"/f", "f", .file, 0, 0o640, 1, ""⟩ ∧
      ({ dated 1000000000 with clocks := ⟨8, 7⟩ } : Host).describe "f" = .ok ⟨"/f", "f", .file, 0, 0o640, 0, ""⟩ := by
  decide +kernel

end Host

end FlatPackage
