/-
  FlatPackage.Proofs.Container.Watch — what an operation asks of a container library.

  An operation is a session for any library, in any state, at any time. To see which calls it
  makes, it is given a library that passes every call on and writes down what was asked and what
  was answered (`Archive.watched`). Operations are put together from calls, from answers that need
  no call, and from one operation after another, so what holds of these holds of all of them.

  Proved, for operations that are put together so (`Orderly`):
  (1) Being watched changes nothing.
  (2) A call that fails is the last one, and the operation ends in its fault.
  (3) Two runs make the same calls for as long as they get the same answers, whatever the
      libraries, their states and the times; only the time in a header of the outer container
      may differ.
  From (1) to (3) follows that the operation is fail-stop (`Orderly.failStop`).
-/

import FlatPackage.Proofs.Container.Session

namespace FlatPackage.Container

/-! ## Exchanges -/

/-- A call with all that it was given. -/
inductive Request where
  | openFile (format : Format) (path : String)
  | openMemory (format : Format) (bytes : Bytes)
  | next (format : Format)
  | read (format : Format) (n : Nat)
  | readAll (format : Format)
  | skip (format : Format)
  | createFile (format : Format) (path : String)
  | createMemory (format : Format)
  | header (format : Format) (h : Header)
  | data (format : Format) (bytes : Bytes)
  | finish (format : Format)
  | take (format : Format)
  deriving DecidableEq, Repr

namespace Request

def format : Request → Format
  | openFile f _ | openMemory f _ | next f | read f _ | readAll f | skip f | createFile f _ | createMemory f
  | header f _ | data f _ | finish f | take f => f

/-- The request without the time that a header of the outer container is stamped with. -/
def undated : Request → Request
  | header .xar h => header .xar { h with mtime := 0 }
  | q => q

end Request

/-- What a call gave when it went well. -/
inductive Value where
  | nothing
  | entry (h : Option Header)
  | bytes (b : Bytes)
  deriving DecidableEq, Repr

namespace Call

variable {α : Type}

def request : Call α → Request
  | openFile f path => .openFile f path
  | openMemory f b => .openMemory f b
  | next f => .next f
  | read f n => .read f n
  | readAll f => .readAll f
  | skip f => .skip f
  | createFile f path => .createFile f path
  | createMemory f => .createMemory f
  | header f h => .header f h
  | data f b => .data f b
  | finish f => .finish f
  | take f => .take f

def value : Call α → α → Value
  | next _, h => .entry h
  | read _ _, b => .bytes b
  | readAll _, b => .bytes b
  | take _, b => .bytes b
  | _, _ => .nothing

/-- Nothing of an answer is lost. -/
theorem value_inj (c : Call α) {a b : α} (h : c.value a = c.value b) : a = b := by
  cases c <;> first | rfl | (simp only [value] at h; injection h)

end Call

structure Exchange where
  request : Request
  reply : Except Fault Value

namespace Exchange

def of {α : Type} (c : Call α) (r : Except Fault α) : Exchange := ⟨c.request, r.map c.value⟩

def undated (x : Exchange) : Exchange := { x with request := x.request.undated }

/-- The call went well. -/
def Well (x : Exchange) : Prop := ∃ v, x.reply = .ok v

/-- Exchanges with the same reply were answered the same, if the calls do not differ in what they give. -/
theorem answer_eq_of_reply_eq {α : Type} {c d : Call α} (hv : ∀ a b, c.value a = d.value b → a = b)
    {r r' : Except Fault α} (h : (of c r).reply = (of d r').reply) : r = r' := by
  cases r with
  | error f =>
    cases r' with
    | error f' =>
      injection h with h
      rw [h]
    | ok b => cases h
  | ok a =>
    cases r' with
    | error f' => cases h
    | ok b =>
      injection h with h
      rw [hv a b h]

end Exchange

/-! ## Watching -/

structure Watched (σ : Type) where
  state : σ
  /-- The first one first. -/
  exchanges : List Exchange

variable {σ σ' α β : Type}

/-- The same library, with everything written down. -/
def Archive.watched (A : Archive σ) : Archive (Watched σ) where
  answer c w := ((A.answer c w.state).1, ⟨(A.answer c w.state).2, w.exchanges ++ [.of c (A.answer c w.state).1]⟩)
  left f w := A.left f w.state
  left_next := by
    intro f w h t e
    obtain ⟨he, ht⟩ := Prod.mk.inj e
    rw [← ht]
    exact A.left_next (Prod.ext he rfl)
  left_body h := A.left_body h

/-- A session that leaves the library to its user, who may look at the clock. -/
abbrev Operation (α : Type) : Type 1 := (σ : Type) → Archive σ → Int → Session σ α

/-- What was asked and answered in the course of an operation. -/
def Operation.exchanges (op : Operation α) (A : Archive σ) (now : Int) (s : σ) : List Exchange :=
  (op _ A.watched now ⟨s, []⟩).2.exchanges

structure Operation.FailStop (op : Operation α) : Prop where
  /-- What is seen of an operation is what it does when it is not watched. -/
  unwatched : ∀ {σ : Type} (A : Archive σ) (now : Int) (s : σ),
    op _ A now s = ((op _ A.watched now ⟨s, []⟩).1, (op _ A.watched now ⟨s, []⟩).2.state)
  /-- If a call fails, the operation ends in its fault and makes no call after it. The calls that it has made
      by then are the first calls of every run that was answered in the same way before that call,
      whatever it was answered afterwards. -/
  stops : ∀ {σ σ' : Type} (A : Archive σ) (A' : Archive σ') (now now' : Int) (s : σ) (s' : σ') (k : Nat) (e : Fault),
    (op.exchanges A' now' s')[k]?.map Exchange.reply = some (.error e) →
    ((op.exchanges A' now' s').take k).map Exchange.reply = ((op.exchanges A now s).take k).map Exchange.reply →
    (op _ A' now' s').1 = .error e ∧ (op.exchanges A' now' s').length = k + 1 ∧
      (op.exchanges A' now' s').map (·.request.undated) =
        ((op.exchanges A now s).take (k + 1)).map (·.request.undated)

/-! ## One run and two -/

/-- How a watched session came out that was started behind the exchanges `before`: all calls went well,
    or one failed, which was the last, and the session ended in its fault. -/
inductive Ended (P : Request → Prop) (before : List Exchange) (r : Except Fault α × Watched σ) : Prop
  | well (made : List Exchange) : r.2.exchanges = before ++ made → (∀ x ∈ made, x.Well ∧ P x.request) → Ended P before r
  | failed (made : List Exchange) (q : Request) (f : Fault) : r.2.exchanges = before ++ (made ++ [⟨q, .error f⟩]) →
      (∀ x ∈ made, x.Well ∧ P x.request) → P q → r.1 = .error f → Ended P before r

/-- The same calls were made, but for the time, and the same answers given. -/
def Alike (l l' : List Exchange) : Prop := l.map Exchange.undated = l'.map Exchange.undated

/-- How two watched sessions came out: alike, or there was a first call that the one and the other were
    answered differently. -/
inductive Paired (r : Except Fault α × Watched σ) (r' : Except Fault α × Watched σ') : Prop
  | together : r.1 = r'.1 → Alike r.2.exchanges r'.2.exchanges → Paired r r'
  | parted (p p' : List Exchange) (x x' : Exchange) : p ++ [x] <+: r.2.exchanges → p' ++ [x'] <+: r'.2.exchanges →
      Alike p p' → x.request.undated = x'.request.undated → x.reply ≠ x'.reply → Paired r r'

/-- An operation of which the three facts hold, and that asks for nothing but what is allowed. -/
structure Operation.Orderly (P : Request → Prop) (op : Operation α) : Prop where
  unwatched : ∀ {σ : Type} (A : Archive σ) (now : Int) (w : Watched σ),
    op _ A now w.state = ((op _ A.watched now w).1, (op _ A.watched now w).2.state)
  ended : ∀ {σ : Type} (A : Archive σ) (now : Int) (w : Watched σ), Ended P w.exchanges (op _ A.watched now w)
  paired : ∀ {σ σ' : Type} (A : Archive σ) (A' : Archive σ') (now now' : Int) (w : Watched σ) (w' : Watched σ'),
    Alike w.exchanges w'.exchanges → Paired (op _ A.watched now w) (op _ A'.watched now' w')

/-! ## Logs -/

theorem Ended.grows {P : Request → Prop} {before : List Exchange} {r : Except Fault α × Watched σ}
    (h : Ended P before r) : before <+: r.2.exchanges := by
  cases h with
  | well made hl _ => exact ⟨made, hl.symm⟩
  | failed made q f hl _ _ _ => exact ⟨_, hl.symm⟩

theorem Ended.requests {P : Request → Prop} {before : List Exchange} {r : Except Fault α × Watched σ}
    (h : Ended P before r) : ∃ made, r.2.exchanges = before ++ made ∧ ∀ x ∈ made, P x.request := by
  cases h with
  | well made hl hw => exact ⟨made, hl, fun x hx => (hw x hx).2⟩
  | failed made q f hl hw hq _ =>
    refine ⟨_, hl, fun x hx => ?_⟩
    rcases List.mem_append.mp hx with hx | hx
    · exact (hw x hx).2
    · rw [List.mem_singleton.mp hx]
      exact hq

/-- A session that gave a value made no call that failed. -/
theorem Ended.of_ok {P : Request → Prop} {before : List Exchange} {a : α} {t : Watched σ}
    (h : Ended P before (.ok a, t)) : ∃ made, t.exchanges = before ++ made ∧ ∀ x ∈ made, x.Well ∧ P x.request := by
  cases h with
  | well made hl hw => exact ⟨made, hl, hw⟩
  | failed made q f _ _ _ he => cases he

/-- A session that failed is not changed by what would have come after it. -/
theorem Ended.of_error {P : Request → Prop} {before : List Exchange} {f : Fault} {t : Watched σ}
    (h : Ended P before ((.error f : Except Fault α), t)) : Ended P before ((.error f : Except Fault β), t) := by
  cases h with
  | well made hl hw => exact .well made hl hw
  | failed made q g hl hw hq he =>
    cases he
    exact .failed made q f hl hw hq rfl

theorem Ended.mono {P Q : Request → Prop} (hPQ : ∀ q, P q → Q q) {before : List Exchange}
    {r : Except Fault α × Watched σ} (h : Ended P before r) : Ended Q before r := by
  cases h with
  | well made hl hw => exact .well made hl fun x hx => ⟨(hw x hx).1, hPQ _ (hw x hx).2⟩
  | failed made q f hl hw hq he => exact .failed made q f hl (fun x hx => ⟨(hw x hx).1, hPQ _ (hw x hx).2⟩) (hPQ _ hq) he

theorem Ended.after {P : Request → Prop} {before made : List Exchange} (hm : ∀ x ∈ made, x.Well ∧ P x.request)
    {r : Except Fault α × Watched σ} (h : Ended P (before ++ made) r) : Ended P before r := by
  have hall : ∀ {more : List Exchange}, (∀ x ∈ more, x.Well ∧ P x.request) → ∀ x ∈ made ++ more, x.Well ∧ P x.request := by
    intro more hmore x hx
    rcases List.mem_append.mp hx with hx | hx
    · exact hm x hx
    · exact hmore x hx
  cases h with
  | well more hl hw => exact .well (made ++ more) (by rw [hl, List.append_assoc]) (hall hw)
  | failed more q f hl hw hq he =>
    exact .failed (made ++ more) q f (by rw [hl, List.append_assoc, List.append_assoc]) (hall hw) hq he

theorem Ended.bind {P : Request → Prop} {x : Session (Watched σ) α} {f : α → Session (Watched σ) β} {w : Watched σ}
    (hx : Ended P w.exchanges (x w)) (hf : ∀ a t, Ended P t.exchanges (f a t)) : Ended P w.exchanges ((x >>= f) w) := by
  rcases hr : x w with ⟨e | a, t⟩
  · rw [Session.bind_of_error hr]
    rw [hr] at hx
    exact hx.of_error
  · rw [Session.bind_of_ok hr]
    rw [hr] at hx
    obtain ⟨made, hl, hw⟩ := hx.of_ok
    have ht := hf a t
    rw [hl] at ht
    exact ht.after hw

/-- What was written down stays written down. -/
theorem exchanges_prefix_bind {P : Request → Prop} (x : Session (Watched σ) α) {f : α → Session (Watched σ) β}
    (w : Watched σ) (hf : ∀ a t, Ended P t.exchanges (f a t)) : (x w).2.exchanges <+: ((x >>= f) w).2.exchanges := by
  rcases hr : x w with ⟨e | a, t⟩
  · exact ⟨[], by rw [Session.bind_of_error hr, List.append_nil]⟩
  · rw [Session.bind_of_ok hr]
    exact (hf a t).grows

theorem Alike.append {l l' m m' : List Exchange} (h : Alike l l') (hm : Alike m m') : Alike (l ++ m) (l' ++ m') := by
  unfold Alike at *
  rw [List.map_append, List.map_append, h, hm]

theorem Alike.length_eq {l l' : List Exchange} (h : Alike l l') : l.length = l'.length := by
  rw [← List.length_map Exchange.undated, h, List.length_map]

theorem Alike.requests_eq {l l' : List Exchange} (h : Alike l l') :
    l.map (·.request.undated) = l'.map (·.request.undated) := by
  have hc := congrArg (List.map Exchange.request) h
  rwa [List.map_map, List.map_map] at hc

/-- Two sessions that came out alike go on alike, and two that were parted stay so whatever either does. -/
theorem Paired.bind {P : Request → Prop} {x : Session (Watched σ) α} {x' : Session (Watched σ') α}
    {f : α → Session (Watched σ) β} {f' : α → Session (Watched σ') β} {w : Watched σ} {w' : Watched σ'}
    (hx : Paired (x w) (x' w')) (hf : ∀ a t, Ended P t.exchanges (f a t)) (hf' : ∀ a t, Ended P t.exchanges (f' a t))
    (hff : ∀ a t t', Alike t.exchanges t'.exchanges → Paired (f a t) (f' a t')) :
    Paired ((x >>= f) w) ((x' >>= f') w') := by
  cases hx with
  | together hr ha =>
    rcases he : x w with ⟨e | a, t⟩
    · have he' : x' w' = (.error e, (x' w').2) := Prod.ext (by rw [← hr, he]) rfl
      rw [he] at ha
      rw [Session.bind_of_error he, Session.bind_of_error he']
      exact .together rfl ha
    · have he' : x' w' = (.ok a, (x' w').2) := Prod.ext (by rw [← hr, he]) rfl
      rw [he] at ha
      rw [Session.bind_of_ok he, Session.bind_of_ok he']
      exact hff a t _ ha
  | parted p p' y y' hp hp' ha hq hne =>
    have hg := exchanges_prefix_bind x w hf
    have hg' := exchanges_prefix_bind x' w' hf'
    exact .parted p p' y y' (hp.trans hg) (hp'.trans hg') ha hq hne

namespace Operation.Orderly

variable {P : Request → Prop}

/-! ## Putting operations together -/

theorem mono {Q : Request → Prop} (hPQ : ∀ q, P q → Q q) {op : Operation α} (h : Orderly P op) : Orderly Q op :=
  ⟨h.unwatched, fun A now w => (h.ended A now w).mono hPQ, h.paired⟩

/-- An answer that needs no call. -/
theorem answer (r : Except Fault α) : Orderly P fun _ _ _ => (fun s => (r, s)) :=
  ⟨fun _ _ _ => rfl, fun _ _ w => .well [] (List.append_nil _).symm (by simp), fun _ _ _ _ _ _ h => .together rfl h⟩

/-- A call that may depend on the time, though only in the stamp. -/
theorem timed {c : Int → Call α} (hP : ∀ now, P (c now).request)
    (hv : ∀ now now' a b, (c now).value a = (c now').value b → a = b)
    (hq : ∀ now now', (c now).request.undated = (c now').request.undated) : Orderly P fun _ A now => A.call (c now) := by
  refine ⟨fun _ _ _ => rfl, ?_, ?_⟩
  · intro σ A now w
    show Ended P w.exchanges ((A.answer (c now) w.state).1, _)
    cases (A.answer (c now) w.state).1 with
    | ok a =>
      refine .well [.of (c now) (.ok a)] rfl ?_
      intro x hx
      rw [List.mem_singleton.mp hx]
      exact ⟨⟨_, rfl⟩, hP now⟩
    | error f => exact .failed [] (c now).request f rfl (by simp) (hP now) rfl
  · intro σ σ' A A' now now' w w' h
    by_cases hr : (Exchange.of (c now) (A.answer (c now) w.state).1).reply
        = (Exchange.of (c now') (A'.answer (c now') w'.state).1).reply
    · refine .together (Exchange.answer_eq_of_reply_eq (hv now now') hr) (h.append ?_)
      show [Exchange.mk _ _] = [Exchange.mk _ _]
      rw [hr, show (Exchange.of (c now) _).request.undated = _ from hq now now']
      rfl
    · exact .parted w.exchanges w'.exchanges _ _ (List.prefix_refl _) (List.prefix_refl _) h (hq now now') hr

theorem call (c : Call α) (hP : P c.request) : Orderly P fun _ A _ => A.call c :=
  timed (fun _ => hP) (fun _ _ _ _ => c.value_inj) fun _ _ => rfl

/-- One operation after another. -/
theorem bind {op : Operation α} {next : α → Operation β} (h : Orderly P op) (hn : ∀ a, Orderly P (next a)) :
    Orderly P fun σ A now => op σ A now >>= fun a => next a σ A now := by
  refine ⟨?_, ?_, ?_⟩
  · intro σ A now w
    have hu := h.unwatched A now w
    rcases hr : op _ A.watched now w with ⟨f | a, t⟩
    · rw [hr] at hu
      rw [Session.bind_of_error hr, Session.bind_of_error hu]
    · rw [hr] at hu
      rw [Session.bind_of_ok hr, Session.bind_of_ok hu]
      exact (hn a).unwatched A now t
  · intro σ A now w
    exact (h.ended A now w).bind fun a t => (hn a).ended A now t
  · intro σ σ' A A' now now' w w' hl
    exact (h.paired A A' now now' w w' hl).bind (fun a t => (hn a).ended A now t) (fun a t => (hn a).ended A' now' t)
      fun a t t' ht => (hn a).paired A A' now now' t t' ht

/-! ## Fail-stop -/

/-- Only the last of a row of exchanges failed: it is where a failure is found. -/
theorem index_of_failure {made : List Exchange} {q : Request} {f e : Fault} {k : Nat} (hw : ∀ x ∈ made, x.Well)
    (hk : (made ++ [⟨q, .error f⟩])[k]?.map Exchange.reply = some (.error e)) : k = made.length ∧ f = e := by
  rcases Nat.lt_trichotomy k made.length with hlt | rfl | hgt
  · obtain ⟨v, hv⟩ := hw made[k] (List.getElem_mem hlt)
    rw [List.getElem?_append_left hlt, List.getElem?_eq_getElem hlt, Option.map_some, hv] at hk
    cases hk
  · rw [List.getElem?_concat_length, Option.map_some] at hk
    cases hk
    exact ⟨rfl, rfl⟩
  · rw [List.getElem?_eq_none (by rw [List.length_append, List.length_singleton]; omega)] at hk
    cases hk

/-- A failure is in the last place, and the operation ends in it. -/
theorem last_of_failure {op : Operation α} (h : Orderly P op) (A : Archive σ) (now : Int) (s : σ) {k : Nat} {e : Fault}
    (hk : (op.exchanges A now s)[k]?.map Exchange.reply = some (.error e)) :
    (op _ A now s).1 = .error e ∧ (op.exchanges A now s).length = k + 1 := by
  have hu := h.unwatched A now ⟨s, []⟩
  rw [show op _ A now s = _ from hu]
  unfold exchanges at hk ⊢
  cases h.ended A now ⟨s, []⟩ with
  | well made hl hw =>
    rw [hl, List.nil_append] at hk
    obtain ⟨x, hx, he⟩ := Option.map_eq_some_iff.mp hk
    obtain ⟨v, hv⟩ := (hw x (List.mem_of_getElem? hx)).1
    rw [hv] at he
    cases he
  | failed made q f hl hw _ hr =>
    rw [hl, List.nil_append] at hk ⊢
    obtain ⟨rfl, rfl⟩ := index_of_failure (fun x hx => (hw x hx).1) hk
    exact ⟨hr, List.length_append⟩

theorem getElem?_length_of_front {l p : List Exchange} {x : Exchange} (h : p ++ [x] <+: l) : l[p.length]? = some x := by
  obtain ⟨r, rfl⟩ := h
  rw [List.getElem?_append_left (by rw [List.length_append, List.length_singleton]; omega), List.getElem?_concat_length]

/-- As long as the answers are the same, so are the calls. -/
theorem requests_eq {op : Operation α} (h : Orderly P op) (A : Archive σ) (A' : Archive σ') (now now' : Int) (s : σ)
    (s' : σ') {k : Nat} (hl : (op.exchanges A' now' s').length = k + 1)
    (hr : ((op.exchanges A' now' s').take k).map Exchange.reply = ((op.exchanges A now s).take k).map Exchange.reply) :
    (op.exchanges A' now' s').map (·.request.undated) =
      ((op.exchanges A now s).take (k + 1)).map (·.request.undated) := by
  cases h.paired A A' now now' ⟨s, []⟩ ⟨s', []⟩ rfl with
  | together _ ha =>
    have hlen : (op.exchanges A now s).length = k + 1 := ha.length_eq.trans hl
    rw [List.take_of_length_le (Nat.le_of_eq hlen)]
    exact ha.requests_eq.symm
  | parted p p' x x' hp hp' ha hq hne =>
    change p ++ [x] <+: op.exchanges A now s at hp
    change p' ++ [x'] <+: op.exchanges A' now' s' at hp'
    have hpp := ha.length_eq
    have hle := hp'.length_le
    rw [hl, List.length_append, List.length_singleton] at hle
    rcases Nat.lt_or_eq_of_le (Nat.le_of_succ_le_succ hle) with hlt | rfl
    · -- the reply at which they part is one of those that agree
      have hx : (op.exchanges A now s)[p'.length]? = some x := hpp ▸ getElem?_length_of_front hp
      have hx' : (op.exchanges A' now' s')[p'.length]? = some x' := getElem?_length_of_front hp'
      have hreply := congrArg (·[p'.length]?) hr
      simp only [List.getElem?_map, List.getElem?_take_of_lt hlt, hx, hx', Option.map_some] at hreply
      injection hreply with hreply
      exact absurd hreply.symm hne
    · have h' : p' ++ [x'] = op.exchanges A' now' s' := hp'.eq_of_length (by rw [hl, List.length_append]; rfl)
      have h₀ : p ++ [x] = (op.exchanges A now s).take (p'.length + 1) := by
        rw [← hpp]
        exact (List.prefix_iff_eq_take.mp hp).trans (by rw [List.length_append]; rfl)
      rw [← h', ← h₀, List.map_append, List.map_append, ha.requests_eq]
      exact congrArg _ (congrArg (· :: []) hq.symm)

theorem failStop {op : Operation α} (h : Orderly P op) : op.FailStop := by
  refine ⟨fun A now s => h.unwatched A now ⟨s, []⟩, ?_⟩
  intro σ σ' A A' now now' s s' k e hk hsame
  obtain ⟨hr, hl⟩ := h.last_of_failure A' now' s' hk
  exact ⟨hr, hl, h.requests_eq A A' now now' s s' hl hsame⟩

end Operation.Orderly

end FlatPackage.Container
