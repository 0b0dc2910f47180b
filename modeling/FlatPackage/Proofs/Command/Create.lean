/-
  FlatPackage.Proofs.Command.Create — a package is made of a whole tree.

  First the tree is gathered (`gather`), which looks at the host and prints; only then is a directory
  made for the output and the container library called. On a sound host a directory whose files
  can be read is gathered whole: one entry for each file, directory and symlink below it, in the
  order of their paths, and one line for each of the other nodes.

  Proved:
  (1) `quiet_gather`: gathering leaves the host and the library as they are, whatever comes of it.
  (2) `gather_eq`: what is gathered from a tree that can be read.
  (3) `packedAs_item`: what the inner container is given of a node, field by field.
  (4) `create_packs_the_tree`: what becomes of what was gathered.
  Trace: a directory with a file, a link and a fifo, and one that is not there (`a_directory_with_a_fifo`).
-/

import FlatPackage.Command.Run
import FlatPackage.Container.Rehearsal
import FlatPackage.Host.Setup
import FlatPackage.Proofs.Command.Performing
import FlatPackage.Proofs.Host.Listing
import FlatPackage.Proofs.Package.Serialization

namespace FlatPackage.Command

open Container (Archive EntryKind Exchange Header Item Watched)
open Container.Session (bind_of_error bind_of_ok)
open FlatPackage.Tree (Node)
open Host (Descriptor TooLong relative textBelow)
open Package (Builder Entry given)

variable {σ α β : Type} {A : Archive σ} {codec : Stream.Codec} {o : Options}

/-! ## (1) Gathering -/

/-- The builder with everything that is found below the input. -/
def gather (o : Options) : Run σ Builder := do
  let root ← Run.look (Host.openDirectory o.input)
  let found ← Run.look (Host.list root true)
  collect o.verbose found .empty

/-- What is done with what was gathered. -/
def pack (A : Archive σ) (codec : Stream.Codec) (o : Options) (b : Builder) : Run σ Unit := do
  Run.change (Host.ensureParent o.output)
  Run.calls (b.write A codec (← Run.now) o.output)
  Run.say ("Packaged " ++ toString b.size ++ " entries into " ++ o.output ++ "\n")

theorem create_eq (A : Archive σ) (codec : Stream.Codec) (o : Options) :
    create A codec o = gather o >>= pack A codec o := by
  simp only [create, gather, bind_assoc]
  rfl

theorem quiet_entryOf (d : Descriptor) : Quiet (σ := σ) (entryOf d) := by
  unfold entryOf
  dsimp only
  split
  · exact .bind (.look _) fun _ => .bind (.look _) fun _ => .except (.ok _)
  · exact .except (.ok _)

theorem quiet_collect (verbose : Bool) (l : List Descriptor) (b : Builder) : Quiet (σ := σ) (collect verbose l b) := by
  induction l generalizing b with
  | nil => exact .except (.ok _)
  | cons d l ih =>
    refine .bind (quiet_entryOf d) fun e => ?_
    split
    · exact .bind (.note _) fun _ => ih b
    · split
      · exact .bind (.say _) fun _ => .bind (.except _) fun b => ih b
      · exact .bind (.except _) fun b => ih b

theorem quiet_gather (o : Options) : Quiet (σ := σ) (gather o) :=
  .bind (.look _) fun _ => .bind (.look _) fun found => quiet_collect o.verbose found .empty

/-! ## (2) What is gathered -/

def fileData : Tree.Content → Bytes
  | .file data => data
  | _ => []

/-- The entry that a node is packaged as: what its description says, and what a file holds. -/
def entryFor (h : Host) (root : String) (dir : Place) (x : Place × Node) : Entry :=
  { path := relative dir x.1
    kind := x.2.content.kind
    data := fileData x.2.content
    permissions := x.2.permissions &&& 0o7777
    mtime := (h.shown root dir x).mtime
    target := (h.shown root dir x).target }

/-- What is packaged: a file, a directory or a symlink. -/
def packable (x : Place × Node) : Bool := x.2.content.kind ≠ .other

def skipLine (path : String) : String := "skipping " ++ path ++ ": not a regular file, directory or symlink\n"

def addLine (path : String) : String := "adding " ++ path ++ "\n"

/-- What is printed about the nodes that are packaged. -/
def addLines (verbose : Bool) (dir : Place) (xs : List (Place × Node)) : String :=
  if verbose then String.join ((xs.filter packable).map fun x => addLine (relative dir x.1)) else ""

/-- What is printed about the others, beside the output proper. -/
def skipLines (dir : Place) (xs : List (Place × Node)) : String :=
  String.join ((xs.filter fun x => !packable x).map fun x => skipLine (relative dir x.1))

section Collecting

variable {h : Host} {root : String} {dir : Place} {x : Place × Node} {xs : List (Place × Node)} {w : World σ}

/-- A node below a directory that has a path and can be read, if it is a file. -/
structure Legible (h : Host) (root : String) (dir : Place) (x : Place × Node) : Prop where
  path : relative dir x.1 ≠ ""
  data : ∀ {data : Bytes}, x.2.content = .file data →
    ∃ d, Host.openFile (textBelow root dir x.1) h = .ok d ∧ Host.readOpened d h = .ok data

theorem entryOf_eq (hx : Legible h root dir x) (hw : w.host = h) :
    entryOf (h.shown root dir x) w = (.ok (entryFor h root dir x), w) := by
  obtain ⟨p, n⟩ := x
  have hkind : (h.shown root dir (p, n)).kind = n.content.kind := rfl
  rw [entryOf]
  dsimp only
  by_cases hfile : ∃ data, n.content = .file data
  · obtain ⟨data, hc⟩ := hfile
    obtain ⟨d, hopen, hread⟩ := hx.data hc
    have hlook : Run.look (Host.openFile (h.shown root dir (p, n)).absolute) w = (.ok d, w) := by
      rw [Run.look, hw]
      exact congrArg (·, w) hopen
    have hdata : Run.look (Host.readOpened d) w = (.ok data, w) := by
      rw [Run.look, hw, hread]
    have hentry : entryFor h root dir (p, n) = { entryFor h root dir (p, n) with data := data } := by
      simp only [entryFor, hc, fileData]
    rw [if_pos (by rw [hkind, hc]; rfl), hentry]
    exact (bind_of_ok hlook).trans (bind_of_ok hdata)
  · have hnone : n.content.kind ≠ .file ∧ fileData n.content = [] := by
      cases hc : n.content with
      | file data => exact absurd ⟨data, hc⟩ hfile
      | _ => exact ⟨by simp [Tree.Content.kind], rfl⟩
    have hentry : entryFor h root dir (p, n) = { entryFor h root dir (p, n) with data := [] } := by
      simp only [entryFor, hnone.2]
    rw [if_neg (hkind ▸ hnone.1), hentry]
    rfl

/-- Only a file has data, so nothing is lost when the entry is added. -/
theorem add_entryFor (hx : Legible h root dir x) (b : Builder) :
    b.add (entryFor h root dir x) = .ok ⟨b.entries ++ [entryFor h root dir x]⟩ := by
  have hpath : (entryFor h root dir x).path.isEmpty = false := by simpa [entryFor] using hx.path
  have htrim : (entryFor h root dir x).trimmed = entryFor h root dir x := by
    rw [Entry.trimmed]
    split
    · rfl
    · rename_i hk
      have hdata : fileData x.2.content = [] := by
        cases hc : x.2.content with
        | file data => exact absurd (by rw [entryFor, hc]; rfl) hk
        | _ => rfl
      simp only [entryFor, hdata]
  rw [Builder.add, hpath, htrim]
  rfl

/-- One node more: an entry and a line about it, or a line about why there is none. -/
theorem collect_cons (hx : Legible h root dir x) (hw : w.host = h) (verbose : Bool) (l : List Descriptor) (b : Builder) :
    collect verbose (h.shown root dir x :: l) b w =
      collect verbose l ⟨b.entries ++ if packable x then [entryFor h root dir x] else []⟩
        { w with out := w.out ++ addLines verbose dir [x], err := w.err ++ skipLines dir [x] } := by
  have hentry := entryOf_eq (w := w) hx hw
  have hkind : (h.shown root dir x).kind = x.2.content.kind := rfl
  have hadd : ∀ v : World σ, (liftM (b.add (entryFor h root dir x)) : Run σ Builder) v =
      (.ok ⟨b.entries ++ [entryFor h root dir x]⟩, v) := by
    intro v
    rw [add_entryFor hx]
    rfl
  rw [collect]
  refine (bind_of_ok hentry).trans ?_
  by_cases hother : x.2.content.kind = .other
  · have hp : packable x = false := by simp [packable, hother]
    have hskip : skipLines dir [x] = skipLine (relative dir x.1) := by simp [skipLines, hp]
    have hadds : addLines verbose dir [x] = "" := by simp [addLines, hp]
    rw [if_pos (hkind ▸ hother), hp, hskip, hadds, String.append_empty, if_neg (by simp), List.append_nil]
    exact bind_of_ok rfl
  · have hp : packable x = true := by simp [packable, hother]
    have hskip : skipLines dir [x] = "" := by simp [skipLines, hp]
    rw [if_neg (hkind ▸ hother), hp, hskip, String.append_empty, if_pos rfl]
    cases verbose with
    | true =>
      have hadds : addLines true dir [x] = addLine (relative dir x.1) := by simp [addLines, hp]
      rw [hadds]
      exact (bind_of_ok rfl).trans (bind_of_ok (hadd _))
    | false =>
      have hadds : addLines false dir [x] = "" := by simp [addLines]
      rw [hadds, String.append_empty]
      exact bind_of_ok (hadd _)

theorem collect_eq (hxs : ∀ x ∈ xs, Legible h root dir x) (hw : w.host = h) (verbose : Bool) (b : Builder) :
    collect verbose (xs.map (h.shown root dir)) b w =
      (.ok ⟨b.entries ++ (xs.filter packable).map (entryFor h root dir)⟩,
        { w with out := w.out ++ addLines verbose dir xs, err := w.err ++ skipLines dir xs }) := by
  induction xs generalizing b w with
  | nil =>
    have hadds : addLines verbose dir [] = "" := by simp [addLines]
    have hskip : skipLines dir [] = "" := by simp [skipLines]
    rw [hadds, hskip, String.append_empty, String.append_empty]
    simp only [List.filter_nil, List.map_nil, List.append_nil]
    rfl
  | cons x xs ih =>
    have hadds : addLines verbose dir (x :: xs) = addLines verbose dir [x] ++ addLines verbose dir xs := by
      cases verbose <;> cases hp : packable x <;> simp [addLines, hp]
    have hskip : skipLines dir (x :: xs) = skipLines dir [x] ++ skipLines dir xs := by
      cases hp : packable x <;> simp [skipLines, hp]
    rw [List.map_cons, collect_cons (hxs x List.mem_cons_self) hw, ih (fun y hy => hxs y (List.mem_cons_of_mem _ hy)),
      hadds, hskip]
    · cases hp : packable x <;> simp [hp, String.append_assoc]
    · exact hw

end Collecting

/-- What the operating system lets be read below a directory that a path leads to: no node's text is too long,
    and no file is longer than a word can say. -/
structure Readable (h : Host) (s : String) (dir : Place) : Prop where
  root : (Host.textOf (h.way s)).utf8ByteSize < Tree.pathLimit
  nodes : ∀ x ∈ h.tree.nodes, dir <+: x.1 →
    (Host.textOf (h.way s ++ x.1.drop dir.length)).utf8ByteSize < Tree.pathLimit
  files : ∀ x ∈ h.tree.nodes, dir <+: x.1 → (fileData x.2.content).length < UInt64.size

section Gathering

variable {w : World σ} {dir : Place} {n : Node} (hs : w.host.Sound) (hf : w.host.find true o.input = .ok (dir, n))
  (hc : n.content = .directory) (hup : ".." ∉ Path.steps o.input) (hr : Readable w.host o.input dir)

include hs hf hc hup hr

/-- A node below the directory is looked up by its own names behind those that the path passes. -/
theorem textBelow_eq {x : Place × Node} (hx : x ∈ Host.nodesBelow w.host.tree dir) :
    textBelow (Host.textOf (w.host.way o.input)) dir x.1 = Host.textOf (w.host.way o.input ++ x.1.drop dir.length) := by
  have hreach := Host.reaches_way hs hf hc hup hr.root
  obtain ⟨-, hp, hne⟩ := (Host.mem_nodesBelow hs.tree).mp hx
  obtain ⟨rel, hrel, heq, hjoin⟩ := Host.exists_rel hp hne
  rw [textBelow, hjoin, heq, List.drop_left]
  exact Path.below_text hrel hreach.names

theorem not_tooLong {x : Place × Node} (hx : x ∈ Host.nodesBelow w.host.tree dir) :
    ¬TooLong (Host.textOf (w.host.way o.input)) dir x.1 := by
  obtain ⟨hat, hp, -⟩ := (Host.mem_nodesBelow hs.tree).mp hx
  rw [TooLong, textBelow_eq hs hf hc hup hr hx]
  exact Nat.not_le.mpr (hr.nodes x (Tree.mem_of_at? hat) hp)

theorem legible_of_mem {x : Place × Node} (hx : x ∈ Host.nodesBelow w.host.tree dir) :
    Legible w.host (Host.textOf (w.host.way o.input)) dir x := by
  have hreach := Host.reaches_way hs hf hc hup hr.root
  obtain ⟨hat, hp, hne⟩ := (Host.mem_nodesBelow hs.tree).mp hx
  have hshort := hr.nodes x (Tree.mem_of_at? hat) hp
  have htext := textBelow_eq hs hf hc hup hr hx
  obtain ⟨rel, hrel, heq, hjoin⟩ := Host.exists_rel hp hne
  rw [heq] at hat
  have hnames : ∀ y ∈ rel, Tree.IsName y := fun y hy => hs.tree.isName hat y (List.mem_append_right _ hy)
  refine ⟨by rw [hjoin]; exact Path.joined_ne_empty hrel hnames, fun {data} hfile => ?_⟩
  rw [heq, List.drop_left] at hshort
  rw [htext, heq, List.drop_left]
  exact hreach.openFile_below hs hat hrel hshort hfile

theorem list_eq : Host.list (Host.textOf (w.host.way o.input)) true w.host =
    .ok ((Host.nodesBelow w.host.tree dir).map (w.host.shown (Host.textOf (w.host.way o.input)) dir)) := by
  obtain ⟨m, hfind, hm⟩ := (Host.reaches_way hs hf hc hup hr.root).directory
  exact (Host.listed_true hs hfind hm).eq_ok fun x hx => not_tooLong hs hf hc hup hr hx

theorem gather_eq : gather o w =
    (.ok ⟨((Host.nodesBelow w.host.tree dir).filter packable).map
        (entryFor w.host (Host.textOf (w.host.way o.input)) dir)⟩,
      { w with
        out := w.out ++ addLines o.verbose dir (Host.nodesBelow w.host.tree dir)
        err := w.err ++ skipLines dir (Host.nodesBelow w.host.tree dir) }) := by
  have hopen : Run.look (Host.openDirectory o.input) w = (.ok (Host.textOf (w.host.way o.input)), w) := by
    rw [Run.look, Host.openDirectory_eq hs hf hc hup hr.root]
  have hlist : Run.look (Host.list (Host.textOf (w.host.way o.input)) true) w =
      (.ok ((Host.nodesBelow w.host.tree dir).map (w.host.shown (Host.textOf (w.host.way o.input)) dir)), w) := by
    rw [Run.look, list_eq hs hf hc hup hr]
  refine (bind_of_ok hopen).trans ((bind_of_ok hlist).trans ?_)
  exact collect_eq (fun x hx => legible_of_mem hs hf hc hup hr hx) rfl o.verbose .empty

end Gathering

/-! ## (3) What is given -/

/-- A node as the inner container is given it: every field of its header, and its body. -/
structure PackedAs (h : Host) (root : String) (dir : Place) (x : Place × Node) (i : Item) : Prop where
  path : i.header.path = relative dir x.1
  pathed : i.header.path ≠ ""
  kind : i.header.kind = x.2.content.kind
  permissions : i.header.permissions = x.2.permissions &&& 0o7777
  mtime : i.header.mtime = (h.shown root dir x).mtime
  target : i.header.target = (h.shown root dir x).target
  body : i.body = fileData x.2.content
  size : i.header.size.toNat = i.body.length

theorem packedAs_item {h : Host} {root : String} {dir : Place} {x : Place × Node} (hpath : relative dir x.1 ≠ "")
    (hlen : (fileData x.2.content).length < UInt64.size) :
    PackedAs h root dir x (entryFor h root dir x).item := by
  have hstands := (entryFor h root dir x).stands_item
  have hbody : (entryFor h root dir x).item.body = fileData x.2.content := by
    rw [hstands.body]
    show (if x.2.content.kind = .file then fileData x.2.content else []) = _
    cases hcon : x.2.content with
    | file data => rfl
    | _ => rfl
  refine ⟨hstands.path, ?_, hstands.kind, hstands.permissions, hstands.mtime, hstands.target, hbody, hstands.size ?_⟩
  · rw [hstands.path]
    exact hpath
  · rw [hbody]
    exact hlen

/-! ## (4) Packing -/

/-- The headers that the inner container was given. -/
def headers (made : List Exchange) : List Header :=
  made.filterMap fun x => match x.request with
    | .header .cpio h => some h
    | _ => none

/-- How a run ends by which these entries were gathered; if it goes well, the inner container was given
    `Given`. -/
inductive Packed (codec : Stream.Codec) (o : Options) (entries : List Entry) (Given : List Item → Prop)
    (w : World (Watched σ)) : Nat × World (Watched σ) → Prop
  /-- There is no directory for the output, and no call was made. -/
  | unplaced (f : Fault) (h : Host) : Host.ensureParent o.output w.host = (.error f, h) →
      Packed codec o entries Given w (1, { w with host := h, err := w.err ++ f.report })
  /-- A call was refused, which was the last. -/
  | refused (f : Fault) (h : Host) (s : Watched σ) (made : List Exchange) (q : Container.Request) :
      Host.ensureParent o.output w.host = (.ok (), h) → (∀ x ∈ made, x.Well) →
      s.exchanges = w.archive.exchanges ++ (made ++ [⟨q, .error f⟩]) →
      Packed codec o entries Given w (1, { w with host := h, archive := s, err := w.err ++ f.report })
  | packed (h : Host) (s : Watched σ) (made : List Exchange) (archive : Bytes) :
      Host.ensureParent o.output w.host = (.ok (), h) → s.exchanges = w.archive.exchanges ++ made →
      made = Package.innerCalls entries archive ++
        Package.outerCalls h.clocks.now o.output (Stream.compress codec archive) →
      Given (given .cpio made) → (given .cpio made).map Item.header = headers made →
      Packed codec o entries Given w (0, { w with
        host := h
        archive := s
        out := w.out ++ ("Packaged " ++ toString (headers made).length ++ " entries into " ++ o.output ++ "\n") })

theorem headers_append (l m : List Exchange) : headers (l ++ m) = headers l ++ headers m :=
  List.filterMap_append

theorem headers_requests (entries : List Entry) :
    headers ((entries.flatMap Entry.requests).map Package.done) = entries.map Entry.header := by
  induction entries with
  | nil => rfl
  | cons e es ih =>
    have hone : headers (e.requests.map Package.done) = [e.header] := by
      rw [Entry.requests]
      split <;> rfl
    rw [List.flatMap_cons, List.map_append, headers_append, hone, ih]
    rfl

/-- The inner container is given one header for each entry. -/
theorem headers_calls (entries : List Entry) (archive : Bytes) (now : Int) (path : String) (payload : Bytes) :
    headers (Package.innerCalls entries archive ++ Package.outerCalls now path payload) = entries.map Entry.header := by
  have hinner : Package.innerCalls entries archive = [Package.done (.createMemory .cpio)] ++
      ((entries.flatMap Entry.requests).map Package.done ++ [⟨.take .cpio, .ok (.bytes archive)⟩]) := rfl
  rw [hinner, headers_append, headers_append, headers_append, headers_requests]
  show [] ++ (entries.map Entry.header ++ []) ++ [] = _
  simp

theorem given_calls (entries : List Entry) (archive : Bytes) (now : Int) (path : String) (payload : Bytes) :
    given .cpio (Package.innerCalls entries archive ++ Package.outerCalls now path payload) = entries.map Entry.item :=
  Package.given_inner (by simp [Package.outerCalls, Package.done, Container.Request.format])

theorem packed_run {words : List String} {w w₁ : World (Watched σ)} {entries : List Entry} {Given : List Item → Prop}
    (hread : read words = .ok (.act .create o)) (hg : gather o w = (.ok ⟨entries⟩, w₁))
    (hgiven : Given (entries.map Entry.item)) :
    Packed codec o entries Given w₁ (run A.watched codec words w) := by
  have hcreate : create A.watched codec o w = pack A.watched codec o ⟨entries⟩ w₁ := by
    rw [create_eq]
    exact bind_of_ok hg
  rcases he : Host.ensureParent o.output w₁.host with ⟨f | _, h⟩
  · have hact : act A.watched codec o .create w = (.error f, { w₁ with host := h }) := by
      refine hcreate.trans (bind_of_error ?_)
      rw [Run.change, he]
    rw [run_of_error hread hact]
    exact .unplaced f h he
  · have hchange : Run.change (Host.ensureParent o.output) w₁ = (.ok (), { w₁ with host := h }) := by
      rw [Run.change, he]
    have htrace := Builder.traced_write (A := A) codec h.clocks.now o.output ⟨entries⟩
    rcases hwrite : Builder.write A.watched codec h.clocks.now o.output ⟨entries⟩ w₁.archive with ⟨f | _, s⟩
    · have hcalls : Run.calls (Builder.write A.watched codec h.clocks.now o.output ⟨entries⟩) { w₁ with host := h } =
          (.error f, { w₁ with host := h, archive := s }) := by
        rw [Run.calls, hwrite]
      have hact : act A.watched codec o .create w = (.error f, { w₁ with host := h, archive := s }) :=
        hcreate.trans ((bind_of_ok hchange).trans ((bind_of_ok rfl).trans (bind_of_error hcalls)))
      obtain ⟨made, q, hl, hwell⟩ := htrace.error hwrite
      rw [run_of_error hread hact]
      exact .refused f h s made q he hwell hl
    · have hcalls : Run.calls (Builder.write A.watched codec h.clocks.now o.output ⟨entries⟩) { w₁ with host := h } =
          (.ok (), { w₁ with host := h, archive := s }) := by
        rw [Run.calls, hwrite]
      obtain ⟨made, hl, -, archive, hmade⟩ := htrace.ok hwrite
      have hheaders : headers made = entries.map Entry.header := by rw [hmade, headers_calls]
      have hitems : given .cpio made = entries.map Entry.item := by rw [hmade, given_calls]
      have hact : act A.watched codec o .create w = (.ok (), { w₁ with
          host := h
          archive := s
          out := w₁.out ++ ("Packaged " ++ toString (headers made).length ++ " entries into " ++ o.output ++ "\n") }) := by
        rw [hheaders, List.length_map]
        exact hcreate.trans ((bind_of_ok hchange).trans ((bind_of_ok rfl).trans (bind_of_ok hcalls)))
      rw [run_of_ok hread hact]
      refine .packed h s made archive he hl hmade (hitems ▸ hgiven) ?_
      rw [hitems, hheaders, List.map_map]
      rfl

/-- For every command line for `create`, every library, codec and world. If listing or reading the tree
    fails, so does the run, with the host as it was and no call made. If the input has no `..` and leads
    to a directory of a sound host whose nodes can be read, the tree is gathered whole: every node
    strictly below it, once, in the order of the octets of the relative paths, and described as it is listed.
    Each node that is no file, directory or symlink is named in a line. The run then fails over the
    output's directory or a call, or gives the inner container each of the others, field by field, and
    says how many headers it wrote. -/
theorem create_packs_the_tree (A : Archive σ) (codec : Stream.Codec) {words : List String} {o : Options}
    (hread : read words = .ok (.act .create o)) (w : World (Watched σ)) :
    (∀ f w', gather o w = (.error f, w') →
      run A.watched codec words w = (1, { w' with err := w'.err ++ f.report }) ∧
        w'.host = w.host ∧ w'.archive = w.archive) ∧
    (∀ dir n, w.host.Sound → w.host.find true o.input = .ok (dir, n) → n.content = .directory →
      ".." ∉ Path.steps o.input → Readable w.host o.input dir →
      ∃ (nodes : List (Place × Node)) (entries : List Entry),
        (∀ x, x ∈ nodes ↔ w.host.tree.at? x.1 = some x.2 ∧ dir <+: x.1 ∧ x.1 ≠ dir) ∧
        nodes.Pairwise (fun x y => Path.octets (relative dir x.1) < Path.octets (relative dir y.1)) ∧
        Host.list (Host.textOf (w.host.way o.input)) true w.host =
          .ok (nodes.map (w.host.shown (Host.textOf (w.host.way o.input)) dir)) ∧
        Packed codec o entries
          (List.Forall₂ (PackedAs w.host (Host.textOf (w.host.way o.input)) dir) (nodes.filter packable))
          { w with out := w.out ++ addLines o.verbose dir nodes, err := w.err ++ skipLines dir nodes }
          (run A.watched codec words w)) := by
  refine ⟨fun f w' hg => ?_, fun dir n hs hf hc hup hr => ?_⟩
  · have hquiet := quiet_gather o w
    rw [hg] at hquiet
    have hact : act A.watched codec o .create w = (.error f, w') := by
      show create A.watched codec o w = _
      rw [create_eq]
      exact bind_of_error hg
    exact ⟨run_of_error hread hact, hquiet⟩
  · refine ⟨Host.nodesBelow w.host.tree dir, _, fun x => Host.mem_nodesBelow hs.tree, Host.pairwise_nodesBelow hs.tree,
      list_eq hs hf hc hup hr, packed_run hread (gather_eq hs hf hc hup hr) ?_⟩
    rw [List.map_map, List.forall₂_map_right_iff, List.forall₂_same]
    intro x hx
    have hx := (List.mem_filter.mp hx).1
    obtain ⟨hat, hp, -⟩ := (Host.mem_nodesBelow hs.tree).mp hx
    exact packedAs_item (legible_of_mem hs hf hc hup hr hx).path (hr.files x (Tree.mem_of_at? hat) hp)

/-- A host with a directory that holds a file in a directory, a link and a fifo. -/
def piped : Host :=
  Host.bare ["here"] ⟨0, 7⟩ |>.addDirectory "in/a" Host.newDirectory |>.addFile "in/a/x" [1, 2] 0o640
    |>.addLink "in/l" "a/x" |>.addSpecial "in/p" 0o600

/-- The directory with the fifo is packaged, by a path with detours; a directory that is not there is not. -/
theorem a_directory_with_a_fifo :
    let codec : Stream.Codec := ⟨id, fun x => .ok x⟩
    let A := Container.Rehearsal.archive
    let w : World (Watched Container.Rehearsal) :=
      ⟨piped, ⟨Container.Rehearsal.prepare ⟨[], []⟩ ⟨[], []⟩ none, []⟩, "", ""⟩
    let o : Options := ⟨"in/.//", "out/p.pkg", Stream.defaultChunkSize, false, false⟩
    let o' : Options := { o with input := "an" }
    let words := ["create", "-i", "in/.//", "-o", "out/p.pkg"]
    let words' := ["create", "-i", "an", "-o", "out/p.pkg"]
    let dir := ["here", "in"]
    read words = .ok (.act .create o) ∧ piped.Sound ∧
      piped.find true o.input = .ok (dir, ⟨.directory, Host.newDirectory, 7⟩) ∧ ".." ∉ Path.steps o.input ∧
      Readable piped o.input dir ∧
      (∃ nodes entries, (dir ++ ["p"], ⟨.special, 0o600, 7⟩) ∈ nodes ∧
        Packed codec o entries (List.Forall₂ (PackedAs piped (Host.textOf (piped.way o.input)) dir) (nodes.filter packable))
          { w with out := addLines false dir nodes, err := skipLines dir nodes } (run A.watched codec words w)) ∧
      read words' = .ok (.act .create o') ∧ gather o' w = (.error .notAnExistingDirectory, w) ∧
      run A.watched codec words' w = (1, { w with err := Fault.notAnExistingDirectory.report }) := by
  intro codec A w o o' words words' dir
  have hread : read words = .ok (.act .create o) := by rfl
  have hread' : read words' = .ok (.act .create o') := by rfl
  have hs : piped.Sound := by decide +kernel
  have hf : piped.find true "in/.//" = .ok (["here", "in"], ⟨.directory, Host.newDirectory, 7⟩) := by decide +kernel
  have hup : ".." ∉ Path.steps o.input := by decide
  have hr : Readable piped o.input dir := ⟨by decide +kernel, by decide +kernel, by decide +kernel⟩
  have hopen : Host.openDirectory "an" piped = .error .notAnExistingDirectory := by decide +kernel
  have hg : gather o' w = (.error .notAnExistingDirectory, w) :=
    bind_of_error (by rw [Run.look]; exact congrArg (·, w) hopen)
  have hat : piped.tree.at? ["here", "in", "p"] = some ⟨.special, 0o600, 7⟩ := by decide +kernel
  obtain ⟨-, hpack⟩ := create_packs_the_tree A codec hread w
  obtain ⟨nodes, entries, hmem, -, -, hpacked⟩ := hpack dir _ hs hf rfl hup hr
  obtain ⟨hfail, -⟩ := create_packs_the_tree A codec hread' w
  have hfifo : (dir ++ ["p"], ⟨.special, 0o600, 7⟩) ∈ nodes := (hmem _).mpr ⟨hat, ⟨_, rfl⟩, by decide⟩
  exact ⟨hread, hs, hf, hup, hr, ⟨nodes, entries, hfifo, hpacked⟩, hread', hg, (hfail _ _ hg).1⟩

end FlatPackage.Command
