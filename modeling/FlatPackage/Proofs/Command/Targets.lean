/-
  FlatPackage.Proofs.Command.Targets — what becomes of the text that a symlink stores.

  A link's text reaches a user in three ways: in a description, in a listing, and in the header that the
  inner container is given when a package is made. All three have it from one place, which writes it with single
  slashes. A text without two slashes in a row is kept octet for octet, also with dots in it, a slash at its
  end or nothing where it leads; any other is shown, and packaged, as another text, which
  leads to the same place.

  Proved:
  (1) `generic_eq_self_iff`, `steps_generic`: which texts are kept, and what is kept of the others.
  (2) `told_of_gather`: what is gathered says of each node what its description says.
  (3) `exchanges_run`: whatever comes of packing, the inner container is given headers of what was gathered.
  (4) `link_text_single_slashes`: the three ways.
  Trace: a text with dots and a slash at its end, which is kept (`a_text_with_dots`), and one with two
  slashes, which is not (`a_text_with_two_slashes`).
-/

import FlatPackage.Proofs.Command.Create
import FlatPackage.Proofs.Host.Agreement
import FlatPackage.Proofs.Package.FailStop

namespace FlatPackage

open FlatPackage.Path (endsInSlash generic isRooted names singleSlashes steps)

/-! ## (1) Single slashes -/

namespace Path

variable {l : List Char}

theorem singleSlashes_run (r : List Char) : singleSlashes ('/' :: '/' :: r) = singleSlashes ('/' :: r) := by
  rw [singleSlashes]

/-- A character that is not one of two slashes is kept. -/
theorem singleSlashes_cons {c : Char} {r : List Char} (hc : ∀ r', c = '/' → r = '/' :: r' → False) :
    singleSlashes (c :: r) = c :: singleSlashes r := by
  rw [singleSlashes]
  exact hc

theorem length_singleSlashes_le (l : List Char) : (singleSlashes l).length ≤ l.length := by
  induction l using singleSlashes.induct with
  | case1 r ih =>
    rw [singleSlashes_run]
    exact Nat.le_succ_of_le ih
  | case2 c r hc ih =>
    rw [singleSlashes_cons hc]
    exact Nat.succ_le_succ ih
  | case3 => exact Nat.le_refl _

theorem singleSlashes_eq_self_iff : singleSlashes l = l ↔ ¬['/', '/'] <:+: l := by
  induction l using singleSlashes.induct with
  | case1 r ih =>
    rw [singleSlashes_run]
    refine ⟨fun h => ?_, fun hno => absurd ⟨[], r, rfl⟩ hno⟩
    have hle := length_singleSlashes_le ('/' :: r)
    rw [h] at hle
    simp only [List.length_cons] at hle
    omega
  | case2 c r hc ih =>
    have hfirst : ¬['/', '/'] <+: c :: r := by
      rintro ⟨r', hr⟩
      obtain ⟨hslash, hrest⟩ := List.cons.inj hr
      exact hc r' hslash.symm hrest.symm
    rw [singleSlashes_cons hc, List.infix_cons_iff, or_iff_right hfirst, ← ih, List.cons_inj_right]
  | case3 => simp [singleSlashes]

/-- A text is kept unless two slashes in it are in a row. -/
theorem generic_eq_self_iff (s : String) : generic s = s ↔ ∀ a b : String, s ≠ a ++ "//" ++ b := by
  have hlist : generic s = s ↔ singleSlashes s.toList = s.toList := by
    rw [generic, ← String.toList_inj, String.toList_ofList]
  rw [hlist, singleSlashes_eq_self_iff]
  constructor
  · rintro hno a b rfl
    exact hno ⟨a.toList, b.toList, by simp⟩
  · rintro hno ⟨a, b, hs⟩
    refine hno (String.ofList a) (String.ofList b) (String.toList_inj.mp ?_)
    rw [← hs]
    simp

/-- The names between the slashes are kept, whatever stands in front. -/
theorem names_append_singleSlashes (a l : List Char) : names (a ++ singleSlashes l) = names (a ++ l) := by
  have hslash : ∀ r : List Char, names ('/' :: r) = names r := fun r => names_append_slash [] r
  induction l using singleSlashes.induct generalizing a with
  | case1 r ih => rw [singleSlashes_run, ih, names_append_slash, names_append_slash, hslash]
  | case2 c r hc ih =>
    have hfront : ∀ x : List Char, a ++ c :: x = (a ++ [c]) ++ x := fun x => by simp
    rw [singleSlashes_cons hc, hfront, ih, ← hfront]
  | case3 => rfl

theorem getLast?_singleSlashes (l : List Char) : (singleSlashes l).getLast? = l.getLast? := by
  induction l using singleSlashes.induct with
  | case1 r ih => rw [singleSlashes_run, ih, List.getLast?_cons_cons]
  | case2 c r hc ih => rw [singleSlashes_cons hc, List.getLast?_cons, List.getLast?_cons, ih]
  | case3 => rfl

theorem head?_singleSlashes (l : List Char) : (singleSlashes l).head? = l.head? := by
  induction l using singleSlashes.induct with
  | case1 r ih => rw [singleSlashes_run, ih, List.head?_cons, List.head?_cons]
  | case2 c r hc ih => rw [singleSlashes_cons hc, List.head?_cons, List.head?_cons]
  | case3 => rfl

/-- The steps of a text are kept. -/
theorem steps_generic (s : String) : steps (generic s) = steps s := by
  have hnames := names_append_singleSlashes [] s.toList
  rw [steps_eq, steps_eq, generic, endsInSlash, endsInSlash, String.toList_ofList, getLast?_singleSlashes]
  rw [List.nil_append, List.nil_append] at hnames
  rw [hnames]

theorem isRooted_generic (s : String) : isRooted (generic s) = isRooted s := by
  rw [isRooted, isRooted, generic, String.toList_ofList, head?_singleSlashes]

end Path

namespace Command

open Container (Archive Exchange Header Operation Watched)
open Container.Session (bind_eq_ok bind_of_error bind_of_ok)
open FlatPackage.Tree (Node)
open Host (Descriptor openDirectory relative)
open Package (Builder Entry)

variable {σ : Type} {A : Archive σ} {codec : Stream.Codec} {words : List String} {a : Action} {o : Options} {root : String}
  {dir p : Place} {m : Node} {d : Descriptor} {e : Entry} {b b' : Builder} {es : List Entry}

/-! ## (2) What is gathered -/

/-- An entry says of a node what its description says. -/
structure Told (d : Descriptor) (e : Entry) : Prop where
  path : e.path = d.relative
  kind : e.kind = d.kind
  permissions : e.permissions = d.permissions
  mtime : e.mtime = d.mtime
  target : e.target = d.target

theorem Told.trimmed (h : Told d e) : Told d e.trimmed := by
  unfold Entry.trimmed
  split
  · exact h
  · exact ⟨h.path, h.kind, h.permissions, h.mtime, h.target⟩

theorem told_of_entryOf {w w' : World σ} (h : entryOf d w = (.ok e, w')) : Told d e := by
  unfold entryOf at h
  dsimp only at h
  split at h
  · obtain ⟨_, _, -, h⟩ := bind_eq_ok h
    obtain ⟨_, _, -, h⟩ := bind_eq_ok h
    cases h
    exact ⟨rfl, rfl, rfl, rfl, rfl⟩
  · cases h
    exact ⟨rfl, rfl, rfl, rfl, rfl⟩

/-- Entries that say what these descriptions say, of all of them but the ones that are left out. -/
structure TellsOf (l : List Descriptor) (es : List Entry) : Prop where
  every : ∀ d ∈ l, d.kind ≠ .other → ∃ e ∈ es, Told d e
  only : ∀ e ∈ es, ∃ d ∈ l, Told d e

theorem TellsOf.skip {l : List Descriptor} (h : TellsOf l es) (hd : d.kind = .other) : TellsOf (d :: l) es where
  every x hx hk := by
    rcases List.mem_cons.mp hx with rfl | hx
    · exact absurd hd hk
    · exact h.every x hx hk
  only e he := by
    obtain ⟨x, hx, ht⟩ := h.only e he
    exact ⟨x, List.mem_cons_of_mem _ hx, ht⟩

theorem TellsOf.cons {l : List Descriptor} (h : TellsOf l es) (ht : Told d e) : TellsOf (d :: l) (e :: es) where
  every x hx hk := by
    rcases List.mem_cons.mp hx with rfl | hx
    · exact ⟨e, List.mem_cons_self, ht⟩
    · obtain ⟨y, hy, hty⟩ := h.every x hx hk
      exact ⟨y, List.mem_cons_of_mem _ hy, hty⟩
  only y hy := by
    rcases List.mem_cons.mp hy with rfl | hy
    · exact ⟨d, List.mem_cons_self, ht⟩
    · obtain ⟨x, hx, htx⟩ := h.only y hy
      exact ⟨x, List.mem_cons_of_mem _ hx, htx⟩

/-- An entry that is added goes to the end. -/
theorem entries_of_add {w w' : World σ} (h : (liftM (b.add e) : Run σ Builder) w = (.ok b', w')) :
    b'.entries = b.entries ++ [e.trimmed] := by
  unfold Builder.add at h
  split at h
  · cases h
  · cases h
    rfl

theorem told_of_collect {verbose : Bool} {l : List Descriptor} {w w' : World σ}
    (h : collect verbose l b w = (.ok b', w')) : ∃ es, b'.entries = b.entries ++ es ∧ TellsOf l es := by
  induction l generalizing b w with
  | nil =>
    cases h
    exact ⟨[], (List.append_nil _).symm, ⟨by simp, by simp⟩⟩
  | cons d l ih =>
    obtain ⟨e, t, hentry, h⟩ := bind_eq_ok h
    -- what is left after the entry was added at the end
    have hadded : ∀ {t : World σ}, ((liftM (b.add e) : Run σ Builder) >>= collect verbose l) t = (.ok b', w') →
        ∃ es, b'.entries = b.entries ++ es ∧ TellsOf (d :: l) es := by
      intro t h
      obtain ⟨c, u, hc, h⟩ := bind_eq_ok h
      obtain ⟨es, hes, ht⟩ := ih h
      rw [entries_of_add hc, List.append_assoc] at hes
      exact ⟨_, hes, ht.cons (told_of_entryOf hentry).trimmed⟩
    split at h
    · rename_i hother
      obtain ⟨_, _, -, h⟩ := bind_eq_ok h
      obtain ⟨es, hes, ht⟩ := ih h
      exact ⟨es, hes, ht.skip hother⟩
    · split at h
      · obtain ⟨_, _, -, h⟩ := bind_eq_ok h
        exact hadded h
      · exact hadded h

/-- Gathering that goes well tells of all that is below the directory, and of nothing else. -/
theorem told_of_gather {w w' : World σ} (hs : w.host.Sound) (hopen : openDirectory o.input w.host = .ok root)
    (hf : w.host.find true root = .ok (dir, m)) (hg : gather o w = (.ok b, w')) :
    TellsOf ((Host.nodesBelow w.host.tree dir).map (w.host.shown root dir)) b.entries := by
  have hlook : Run.look (openDirectory o.input) w = (.ok root, w) := by rw [Run.look, hopen]
  have hlisted := Host.listed_true hs hf (Host.directory_of_openDirectory hopen hf)
  rcases hr : Host.list root true w.host with f | found
  · have hlist : Run.look (Host.list root true) w = (.error f, w) := by rw [Run.look, hr]
    have hfails : gather o w = (.error f, w) := (bind_of_ok hlook).trans (bind_of_error hlist)
    rw [hfails] at hg
    cases hg
  have hlist : Run.look (Host.list root true) w = (.ok found, w) := by rw [Run.look, hr]
  have hcollect : collect o.verbose found .empty w = (.ok b, w') :=
    (bind_of_ok hlist).symm.trans ((bind_of_ok hlook).symm.trans hg)
  obtain ⟨es, hes, ht⟩ := told_of_collect hcollect
  obtain ⟨-, rfl⟩ := hlisted.eq_ok_iff.mp hr
  rwa [hes]

/-! ## (3) What the inner container is given -/

theorem mem_headers {made : List Exchange} {hd : Header} : hd ∈ headers made ↔ ∃ x ∈ made, x.request = .header .cpio hd := by
  rw [headers, List.mem_filterMap]
  constructor
  · rintro ⟨x, hx, hhd⟩
    refine ⟨x, hx, ?_⟩
    split at hhd
    · rename_i hreq
      rw [hreq, Option.some.inj hhd]
    · cases hhd
  · rintro ⟨x, hx, hreq⟩
    exact ⟨x, hx, by rw [hreq]⟩

/-- A request that hands the inner container no header but one of these entries'. -/
def HeaderOf (es : List Entry) (q : Container.Request) : Prop := ∀ hd, q = .header .cpio hd → hd ∈ es.map Entry.header

theorem headerOf_of_ne {q : Container.Request} (hq : ∀ hd, q ≠ .header .cpio hd) : HeaderOf es q :=
  fun hd h => absurd h (hq hd)

theorem orderly_putEntry_of_mem (he : e ∈ es) : Operation.Orderly (HeaderOf es) fun _ A _ => Builder.putEntry A e := by
  unfold Builder.putEntry
  refine .bind (.call _ ?_) fun _ => ?_
  · rintro hd ⟨⟩
    exact List.mem_map_of_mem he
  by_cases h : e.kind = .file ∧ !e.data.isEmpty
  · simp only [if_pos h]
    exact .call _ (headerOf_of_ne fun _ => nofun)
  · simp only [if_neg h]
    exact .answer (.ok ())

theorem orderly_putEntries_of_subset {l : List Entry} (hl : ∀ e ∈ l, e ∈ es) :
    Operation.Orderly (HeaderOf es) fun _ A _ => Builder.putEntries A l := by
  induction l with
  | nil => exact .answer (.ok ())
  | cons e l ih =>
    exact .bind (orderly_putEntry_of_mem (hl e List.mem_cons_self)) fun _ => ih fun x hx => hl x (List.mem_cons_of_mem _ hx)

theorem orderly_write_headers (codec : Stream.Codec) (b : Builder) (path : String) :
    Operation.Orderly (HeaderOf b.entries) fun _ A now => b.write A codec now path := by
  have hother : ∀ q : Container.Request, q.format = .xar → HeaderOf b.entries q := fun q hq =>
    headerOf_of_ne fun hd h => by
      rw [h] at hq
      cases hq
  have hpayload : Operation.Orderly (HeaderOf b.entries) fun _ A _ => b.buildPayload A codec :=
    .bind (.bind (.call _ (headerOf_of_ne fun _ => nofun)) fun _ =>
      .bind (orderly_putEntries_of_subset fun _ he => he) fun _ => .call _ (headerOf_of_ne fun _ => nofun))
      fun archive => .answer (.ok (Stream.compress codec archive))
  exact .bind hpayload fun payload => .bind (.call _ (headerOf_of_ne fun _ => nofun)) fun _ =>
    (Builder.orderly_putPayload payload).mono hother

theorem archive_run (hread : read words = .ok (.act a o)) (w : World σ) :
    (run A codec words w).2.archive = (act A codec o a w).2.archive := by
  rcases hact : act A codec o a w with ⟨f | _, w'⟩
  · rw [run_of_error hread hact]
  · rw [run_of_ok hread hact]

/-- A quiet end makes no call. -/
theorem archive_bind {α β : Type} {x : Run σ α} {f : α → Run σ β} (hf : ∀ a, Quiet (f a)) (w : World σ) :
    ((x >>= f) w).2.archive = (x w).2.archive := by
  rcases hx : x w with ⟨g | a, t⟩
  · rw [bind_of_error hx]
  · rw [bind_of_ok hx]
    exact (hf a t).2

/-- Packing makes no call, or the ones that writing the entries makes. -/
theorem archive_pack (A : Archive σ) (codec : Stream.Codec) (o : Options) (b : Builder) (w : World σ) :
    (pack A codec o b w).2.archive = w.archive ∨
      ∃ now, (pack A codec o b w).2.archive = (b.write A codec now o.output w.archive).2 := by
  rcases he : Host.ensureParent o.output w.host with ⟨f | _, h⟩
  · have hchange : Run.change (Host.ensureParent o.output) w = (.error f, { w with host := h }) := by rw [Run.change, he]
    have hpack : pack A codec o b w = (.error f, { w with host := h }) := bind_of_error hchange
    exact .inl (by rw [hpack])
  · have hchange : Run.change (Host.ensureParent o.output) w = (.ok (), { w with host := h }) := by rw [Run.change, he]
    have hpack : pack A codec o b w = (Run.calls (b.write A codec h.clocks.now o.output) >>= fun _ =>
        Run.say ("Packaged " ++ toString b.size ++ " entries into " ++ o.output ++ "\n")) { w with host := h } :=
      (bind_of_ok hchange).trans (bind_of_ok rfl)
    refine .inr ⟨h.clocks.now, ?_⟩
    rw [hpack, archive_bind fun _ => .say _]
    rfl

/-- Whatever comes of it, packing gives the inner container headers of what was gathered and no others, and all
    of them if it goes well. -/
theorem exchanges_run (A : Archive σ) (codec : Stream.Codec) {w w' : World (Watched σ)}
    (hread : read words = .ok (.act .create o)) (hg : gather o w = (.ok b, w')) :
    ∃ made, (run A.watched codec words w).2.archive.exchanges = w'.archive.exchanges ++ made ∧
      (∀ hd ∈ headers made, hd ∈ b.entries.map Entry.header) ∧
      ((run A.watched codec words w).1 = 0 → headers made = b.entries.map Entry.header) := by
  have hmade : ∃ made, (run A.watched codec words w).2.archive.exchanges = w'.archive.exchanges ++ made ∧
      ∀ x ∈ made, HeaderOf b.entries x.request := by
    have hact : act A.watched codec o .create w = pack A.watched codec o b w' :=
      (congrFun (create_eq A.watched codec o) w).trans (bind_of_ok hg)
    rw [archive_run hread, hact]
    rcases archive_pack A.watched codec o b w' with h | ⟨now, h⟩
    · exact ⟨[], by rw [h, List.append_nil], by simp⟩
    · rw [h]
      exact ((orderly_write_headers codec b o.output).ended A now w'.archive).requests
  obtain ⟨made, hl, hmade⟩ := hmade
  refine ⟨made, hl, fun hd hhd => ?_, fun hok => ?_⟩
  · obtain ⟨x, hx, hreq⟩ := mem_headers.mp hhd
    exact hmade x hx hd hreq
  · have hpacked : Packed codec o b.entries (fun _ => True) w' (run A.watched codec words w) := packed_run hread hg trivial
    generalize run A.watched codec words w = r at hpacked hok hl
    cases hpacked with
    | unplaced => cases hok
    | refused => cases hok
    | packed h s made' archive _ hl' hmade' _ _ =>
      have hsame : made' = made := List.append_cancel_left (hl'.symm.trans hl)
      rw [← hsame, hmade', headers_calls]

/-! ## (4) Links -/

/-- A symlink with this text is at a place. -/
def LinkAt (h : Host) (p : Place) (target : String) : Prop := ∃ n, h.tree.at? p = some n ∧ n.content = .symlink target

section Links

variable {h : Host} {target : String} {n : Node}

/-- A description of a link has its text with single slashes. -/
theorem ofNode_link (hc : n.content = .symlink target) (c : Clocks) (absolute name : String) (followed : Option Node) :
    (Descriptor.ofNode c absolute name n followed).kind = .symlink ∧
      (Descriptor.ofNode c absolute name n followed).target = generic target := by
  unfold Descriptor.ofNode
  simp only [hc]
  exact ⟨rfl, rfl⟩

theorem describe_link {s : String} (hlink : LinkAt h p target) (hne : s ≠ "")
    (hf : h.find false (h.absolute s).text = .ok (p, n)) :
    ∃ d, h.describe s = .ok d ∧ d.kind = .symlink ∧ d.target = generic target := by
  obtain ⟨n', hn', hc⟩ := hlink
  rw [Host.at?_of_find hf] at hn'
  cases hn'
  exact ⟨_, Host.describe_eq hne hf, ofNode_link hc _ _ _ _⟩

/-- A link below a directory is one of the nodes below it, and it is shown with its text in single slashes. -/
theorem shown_link (hs : h.Sound) (hlink : LinkAt h p target) (hf : h.find true root = .ok (dir, m))
    (hc : m.content = .directory) (hp : dir <+: p) : ∃ n, (p, n) ∈ Host.nodesBelow h.tree dir ∧
      (h.shown root dir (p, n)).kind = .symlink ∧ (h.shown root dir (p, n)).target = generic target := by
  obtain ⟨n, hn, hcn⟩ := hlink
  have hne : p ≠ dir := by
    rintro rfl
    rw [Host.at?_of_find hf] at hn
    cases hn
    rw [hc] at hcn
    cases hcn
  exact ⟨n, (Host.mem_nodesBelow hs.tree).mpr ⟨hn, hp, hne⟩, ofNode_link hcn _ _ _ _⟩

theorem list_link (hs : h.Sound) (hlink : LinkAt h p target) (hf : h.find true root = .ok (dir, m))
    (hc : m.content = .directory) (hp : dir <+: p) {recursive : Bool} (hr : recursive = true ∨ p.length = dir.length + 1)
    {entries : List Descriptor} (hlist : Host.list root recursive h = .ok entries) :
    (∃ e ∈ entries, e.relative = relative dir p) ∧
      ∀ e ∈ entries, e.relative = relative dir p → e.kind = .symlink ∧ e.target = generic target := by
  obtain ⟨n, hmem, hshown⟩ := shown_link hs hlink hf hc hp
  obtain ⟨hin, honly⟩ := Host.mem_list hs hf hc hmem hr hlist
  refine ⟨⟨_, hin, rfl⟩, fun e he hname => ?_⟩
  rw [honly e he hname]
  exact hshown

/-- Packaging hands the inner container one text for a link, if it hands it any. -/
theorem create_link {w : World (Watched σ)} (hs : w.host.Sound) (hlink : LinkAt w.host p target)
    (hread : read words = .ok (.act .create o)) (hopen : openDirectory o.input w.host = .ok root)
    (hf : w.host.find true root = .ok (dir, m)) (hp : dir <+: p) :
    ∃ made, (run A.watched codec words w).2.archive.exchanges = w.archive.exchanges ++ made ∧
      ((run A.watched codec words w).1 = 0 → ∃ hd ∈ headers made, hd.path = relative dir p) ∧
      ∀ hd ∈ headers made, hd.path = relative dir p → hd.kind = .symlink ∧ hd.target = generic target := by
  have hquiet := quiet_gather o w
  rcases hg : gather o w with ⟨f | b, w'⟩
  · have hact : act A.watched codec o .create w = (.error f, w') :=
      (congrFun (create_eq A.watched codec o) w).trans (bind_of_error hg)
    rw [hg] at hquiet
    rw [run_of_error hread hact]
    exact ⟨[], by rw [hquiet.2, List.append_nil], fun hok => absurd hok Nat.one_ne_zero, by simp [headers]⟩
  rw [hg] at hquiet
  obtain ⟨n, hmem, hkind, htarget⟩ := shown_link hs hlink hf (Host.directory_of_openDirectory hopen hf) hp
  have htold := told_of_gather hs hopen hf hg
  obtain ⟨made, hl, hgiven, hwhole⟩ := exchanges_run A codec hread hg
  rw [hquiet.2] at hl
  refine ⟨made, hl, fun hok => ?_, fun hd hhd hname => ?_⟩
  · have hother : (w.host.shown root dir (p, n)).kind ≠ .other := by rw [hkind]; decide
    obtain ⟨e, he, ht⟩ := htold.every _ (List.mem_map_of_mem hmem) hother
    rw [hwhole hok]
    exact ⟨e.header, List.mem_map_of_mem he, ht.path⟩
  · obtain ⟨e, he, rfl⟩ := List.mem_map.mp (hgiven hd hhd)
    obtain ⟨d, hd, ht⟩ := htold.only e he
    have hsame : d = w.host.shown root dir (p, n) := Host.eq_shown hs.tree hmem hd (ht.path.symm.trans hname)
    rw [hsame] at ht
    exact ⟨ht.kind.trans hkind, ht.target.trans htarget⟩

end Links

/-- For every file system and every symlink in it, whatever its text is. Wherever the link is described,
    listed or packaged its text appears with single slashes: in the description by any path whose normal form
    leads to the link, in the listings of the directories above it that are not refused, and in every header
    that the inner container is given for it, whether or not the package is completed; a package that is
    completed has one.
    That is the text itself exactly if there are no two slashes in a row in it, and else another text
    for the same way from the same place. -/
theorem link_text_single_slashes (A : Archive σ) (codec : Stream.Codec) {w : World (Watched σ)} {p : Place}
    {target : String} (hs : w.host.Sound) (hlink : LinkAt w.host p target) :
    (generic target = target ↔ ∀ a b : String, target ≠ a ++ "//" ++ b) ∧
    (steps (generic target) = steps target ∧ ∀ here, Tree.origin here (generic target) = Tree.origin here target) ∧
    (∀ s n, s ≠ "" → w.host.find false (w.host.absolute s).text = .ok (p, n) →
      ∃ d, w.host.describe s = .ok d ∧ d.kind = .symlink ∧ d.target = generic target) ∧
    (∀ root dir m, w.host.find true root = .ok (dir, m) → m.content = .directory → dir <+: p → ∀ recursive : Bool,
      recursive = true ∨ p.length = dir.length + 1 → ∀ entries, Host.list root recursive w.host = .ok entries →
      (∃ e ∈ entries, e.relative = relative dir p) ∧
        ∀ e ∈ entries, e.relative = relative dir p → e.kind = .symlink ∧ e.target = generic target) ∧
    ∀ words o root dir m, read words = .ok (.act .create o) → openDirectory o.input w.host = .ok root →
      w.host.find true root = .ok (dir, m) → dir <+: p →
      ∃ made, (run A.watched codec words w).2.archive.exchanges = w.archive.exchanges ++ made ∧
        ((run A.watched codec words w).1 = 0 → ∃ hd ∈ headers made, hd.path = relative dir p) ∧
        ∀ hd ∈ headers made, hd.path = relative dir p → hd.kind = .symlink ∧ hd.target = generic target := by
  refine ⟨Path.generic_eq_self_iff target, ⟨Path.steps_generic target, fun here => ?_⟩,
    fun s n hne hf => describe_link hlink hne hf,
    fun root dir m hf hc hp recursive hr entries hlist => list_link hs hlink hf hc hp hr hlist,
    fun words o root dir m hread hopen hf hp => create_link hs hlink hread hopen hf hp⟩
  rw [Tree.origin, Tree.origin, Path.isRooted_generic]

/-- A host with a link in a directory, and a library that takes whatever it is given. -/
def knotted (target : String) : World (Watched Container.Rehearsal) :=
  ⟨((Host.bare ["here"] ⟨0, 7⟩).addDirectory "in" Host.newDirectory).addLink "in/l" target,
    ⟨Container.Rehearsal.prepare ⟨[], []⟩ ⟨[], []⟩ none, []⟩, "", ""⟩

/-- What becomes of packaging the directory. -/
def packaged (target : String) : Nat × World (Watched Container.Rehearsal) :=
  run Container.Rehearsal.archive.watched ⟨id, fun x => .ok x⟩ ["create", "-i", "in", "-o", "p.pkg"] (knotted target)

/-- A text that goes up, leads nowhere and ends in a slash is kept. -/
theorem a_text_with_dots :
    let target := "../no/./such/"
    (knotted target).host.Sound ∧ LinkAt (knotted target).host ["here", "in", "l"] target ∧
      (∃ d, (knotted target).host.describe "in/l" = .ok d ∧ d.target = target) ∧
      (∃ entries, Host.list "/here/in" false (knotted target).host = .ok entries ∧
        (∃ e ∈ entries, e.relative = "l") ∧ ∀ e ∈ entries, e.relative = "l" → e.target = target) ∧
      (packaged target).1 = 0 ∧ (∃ hd ∈ headers (packaged target).2.archive.exchanges, hd.path = "l") ∧
      ∀ hd ∈ headers (packaged target).2.archive.exchanges, hd.path = "l" → hd.target = target := by
  have hs : (knotted "../no/./such/").host.Sound := by decide +kernel
  have hlink : LinkAt (knotted "../no/./such/").host ["here", "in", "l"] "../no/./such/" :=
    ⟨⟨.symlink "../no/./such/", Host.newLink, 7⟩, by decide +kernel, rfl⟩
  have hkept : generic "../no/./such/" = "../no/./such/" := by decide
  have hfound : (knotted "../no/./such/").host.find false ((knotted "../no/./such/").host.absolute "in/l").text =
      .ok (["here", "in", "l"], ⟨.symlink "../no/./such/", Host.newLink, 7⟩) := by decide +kernel
  have hf : (knotted "../no/./such/").host.find true "/here/in" =
      .ok (["here", "in"], ⟨.directory, Host.newDirectory, 7⟩) := by decide +kernel
  have hopen : openDirectory "in" (knotted "../no/./such/").host = .ok "/here/in" := by decide +kernel
  have hread : read ["create", "-i", "in", "-o", "p.pkg"] =
      .ok (.act .create ⟨"in", "p.pkg", Stream.defaultChunkSize, false, false⟩) := by rfl
  have hok : (packaged "../no/./such/").1 = 0 := by decide +kernel
  have hp : ["here", "in"] <+: ["here", "in", "l"] := ⟨["l"], rfl⟩
  obtain ⟨-, -, hdescribed, hlisted, hpackaged⟩ :=
    link_text_single_slashes Container.Rehearsal.archive ⟨id, fun x => .ok x⟩ hs hlink
  obtain ⟨d, hd, -, htarget⟩ := hdescribed "in/l" _ (by decide) hfound
  have hlist : Host.list "/here/in" false (knotted "../no/./such/").host =
      .ok [⟨"/here/in/l", "l", .symlink, 0, 0o777, 0, "../no/./such/"⟩] := by decide +kernel
  obtain ⟨hin, honly⟩ := hlisted _ _ _ hf rfl hp false (.inr rfl) _ hlist
  obtain ⟨made, hmade, hone, hall⟩ := hpackaged _ _ _ _ _ hread hopen hf hp
  have hnone : (knotted "../no/./such/").archive.exchanges = [] := rfl
  have hrun : run Container.Rehearsal.archive.watched ⟨id, fun x => .ok x⟩ ["create", "-i", "in", "-o", "p.pkg"]
      (knotted "../no/./such/") = packaged "../no/./such/" := rfl
  rw [hnone, List.nil_append, hrun] at hmade
  rw [hrun, ← hmade] at hone
  rw [← hmade] at hall
  exact ⟨hs, hlink, ⟨d, hd, htarget.trans hkept⟩,
    ⟨_, hlist, hin, fun e he hname => (honly e he hname).2.trans hkept⟩, hok, hone hok,
    fun hd hhd hname => (hall hd hhd hname).2.trans hkept⟩

/-- Of two slashes in a row one is kept in all three ways, although a link that is added by its text keeps both. -/
theorem a_text_with_two_slashes :
    let e : Descriptor := ⟨"/here/in/l", "l", .symlink, 0, 0o777, 0, "a/b"⟩
    LinkAt (knotted "a//b").host ["here", "in", "l"] "a//b" ∧ (knotted "a//b").host.describe "in/l" = .ok e ∧
      Host.list "/here/in" false (knotted "a//b").host = .ok [e] ∧
      (headers (packaged "a//b").2.archive.exchanges).map Header.target = ["a/b"] ∧
      (Builder.empty.addSymlink 0 "l" "a//b").map (fun b => b.entries.map Entry.target) = .ok ["a//b"] :=
  ⟨⟨⟨.symlink "a//b", Host.newLink, 7⟩, by decide +kernel, rfl⟩, by decide +kernel, by decide +kernel, by decide +kernel,
    by decide +kernel⟩

end Command

end FlatPackage
