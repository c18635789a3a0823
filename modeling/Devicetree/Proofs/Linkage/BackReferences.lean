import Devicetree.Proofs.Linkage.Notes

/-!
# Links and notes agree

Before the end of a pass every reference has the notes that are due to its link. At the end the
paths that wait are tried once more, and only then are leading segments noted of a path without a
link. The main result tells where each reference is noted, from what it is linked to in the end.
-/

namespace Devicetree

/-- A path is noted at some nodes, once for each of its segments in turn, and at no others. -/
structure PathRef.NotedAlong (t : Tree) (path : PathRef) (nodes : List NodeId) : Prop where
  once : ∀ pair ∈ path.segments.zip nodes,
    (t.node pair.2).linkedPaths.filter (·.id = path.id) = [⟨path.id, pair.1.span⟩]
  only : ∀ id ∉ nodes, (t.node id).linkedPaths.filter (·.id = path.id) = []

theorem PathRef.notedAlong_of_notes {t : Tree} {path : PathRef} {nodes : List NodeId}
    (hnodup : nodes.Nodup) (hlength : nodes.length ≤ path.segments.length)
    (h : ∀ id, (t.node id).notes (.path path) = path.notesAt nodes id) :
    path.NotedAlong t nodes := by
  have hzip : (path.segments.zip nodes).map Prod.snd = nodes := List.map_snd_zip hlength
  refine ⟨fun pair hpair => (h pair.2).trans ?_, fun id hid => (h id).trans ?_⟩
  · rw [PathRef.notesAt, filter_key_eq Prod.snd (hzip.symm ▸ hnodup) hpair]
    rfl
  · rw [PathRef.notesAt, List.filter_eq_nil_iff.mpr, List.map_nil]
    intro pair hpair heq
    exact hid (of_decide_eq_true heq ▸ (List.of_mem_zip hpair).2)

namespace Tree

/-- Going down a path comes upon the nodes that its leading parts name. -/
theorem getElem?_descend (t : Tree) (start : NodeId) {segments : List UnitName} {count : Nat}
    (h : count < segments.length) :
    (t.descend start segments)[count]? = t.reach? start (segments.take (count + 1)) := by
  induction segments generalizing start count with
  | nil => cases h
  | cons segment rest ih =>
      rw [descend, List.take_succ_cons, reach?]
      cases t.lookup? start segment with
      | none => rfl
      | some next =>
          cases count with
          | zero => rfl
          | succ count => exact ih next (Nat.lt_of_succ_lt_succ h)

theorem length_descend_le (t : Tree) (start : NodeId) (segments : List UnitName) :
    (t.descend start segments).length ≤ segments.length := by
  induction segments generalizing start with
  | nil => exact Nat.le_refl _
  | cons segment rest ih =>
      rw [descend]
      cases t.lookup? start segment with
      | none => exact Nat.zero_le _
      | some next => exact Nat.succ_le_succ (ih next)

end Tree

namespace Reference.Noted

variable {t : Tree}

theorem of_none {ref : Reference} (h : ref.Noted t none) (id : NodeId) :
    (t.node id).notes ref = [] := by
  obtain ⟨notes, hdue, hnotes⟩ := h
  cases hdue
  exact hnotes id

theorem of_label {ref : LabelRef} {link : Option NodeId} (h : (Reference.label ref).Noted t link)
    (id : NodeId) :
    (t.node id).linkedLabels.filter (·.id = ref.id) =
      if link = some id then [⟨ref.id, ref.span⟩] else [] := by
  obtain ⟨notes, hdue, hnotes⟩ := h
  refine (hnotes id).trans ?_
  cases hdue with
  | unlinked => rfl
  | label ref target => simp only [Option.some.injEq, eq_comm]

theorem of_path (ht : t.WellFormed) {ref : PathRef} {target : NodeId}
    (h : (Reference.path ref).Noted t (some target)) :
    ∃ nodes, nodes.length = ref.segments.length ∧ t.Leads nodes target ∧
      ref.NotedAlong t nodes := by
  obtain ⟨notes, hdue, hnotes⟩ := h
  cases hdue with
  | path ref hlength hleads =>
      exact ⟨_, hlength, hleads,
        PathRef.notedAlong_of_notes (hleads.nodup ht) (Nat.le_of_eq hlength) hnotes⟩

end Reference.Noted

namespace Pass

/-! ### The last try -/

theorem walkPath_of_outline {p q : Pass} (h : q.outline = p.outline) (path : PathRef) :
    q.walkPath path = p.walkPath path := by
  have htree : q.tree.bare = p.tree.bare := congrArg Outline.tree h
  rw [walkPath, walkPath, q.tree.sameShape_bare.descend, p.tree.sameShape_bare.descend, htree]

theorem tree_retryPath (reportUnresolved : Bool) (p : Pass) (path : PathRef) :
    (retryPath reportUnresolved p path).tree = (p.linkSegments path (p.walkPath path)).tree := by
  unfold retryPath
  cases h : p.linkPath? path with
  | some found =>
      rw [linkPath?] at h
      split at h <;> cases h
      rfl
  | none => cases reportUnresolved <;> rfl

theorem links_retryPath (reportUnresolved : Bool) (p : Pass) (path : PathRef) :
    (retryPath reportUnresolved p path).links =
      (p.ledger.attach p.outline (.path path)).links := by
  rw [← Ledger.links_retry p.outline reportUnresolved, ← ledger_retryPath]
  rfl

/-- The tree and the links that trying some paths makes of those of a pass: as much of each path is
noted as names nodes, and it is linked if that is all of it. -/
structure Retried (paths : List PathRef) (p : Pass) (tree : Tree) (links : Table AstId NodeId) :
    Prop where
  parent : ∀ id, (tree.node id).parent = (p.tree.node id).parent
  notes : ∀ path ∈ paths, ∀ id, (tree.node id).notes (.path path) =
    (p.tree.node id).notes (.path path) ++ path.notesAt (p.walkPath path) id
  linked : ∀ path ∈ paths, p.links.get? path.id = none →
    links.get? path.id = p.outline.target? (.path path)
  others : ∀ ref : Reference, (∀ path ∈ paths, ref.id ≠ path.id) →
    links.get? ref.id = p.links.get? ref.id ∧
      ∀ id, (tree.node id).notes ref = (p.tree.node id).notes ref

theorem retried_foldl (reportUnresolved : Bool) {p : Pass} (hs : p.outline.Sound)
    {paths : List PathRef} (hdistinct : (paths.map (·.id)).Nodup) :
    let q := paths.foldl (retryPath reportUnresolved) p
    p.Retried paths q.tree q.links := by
  induction paths generalizing p with
  | nil =>
      exact ⟨fun _ => rfl, fun _ h => absurd h List.not_mem_nil,
        fun _ h => absurd h List.not_mem_nil, fun _ _ => ⟨rfl, fun _ => rfl⟩⟩
  | cons path paths ih =>
      obtain ⟨hfirst, hdistinct⟩ := List.nodup_cons.mp hdistinct
      let q := retryPath reportUnresolved p path
      have hsame : q.outline = p.outline := outline_retryPath reportUnresolved p path
      have hrest := ih (p := q) (hsame.symm ▸ hs) hdistinct
      have hnotes : Notes (.path path) (path.notesAt (p.walkPath path)) p.tree q.tree := by
        rw [tree_retryPath]
        exact p.notes_linkSegments path fun _ =>
          lt_size_of_mem_walkPath (wellFormed_of_outline hs)
      have hlinks : ∀ id, id ≠ path.id → q.links.get? id = p.links.get? id := by
        intro id hid
        rw [links_retryPath]
        exact Ledger.Balanced.get?_attach_ne hid
      have hne : ∀ other ∈ paths, path.id ≠ other.id :=
        fun other hother heq => hfirst (List.mem_map.mpr ⟨other, hother, heq.symm⟩)
      refine ⟨fun id => (hrest.parent id).trans (hnotes.parent id), ?_, ?_, ?_⟩
      · intro other hother id
        rcases List.mem_cons.mp hother with rfl | hother
        · rw [← hnotes.self]
          exact (hrest.others (.path other) hne).2 id
        · have hapart : (Reference.path other).id ≠ (Reference.path path).id :=
            Ne.symm (hne other hother)
          rw [← walkPath_of_outline hsame, ← hnotes.others hapart]
          exact hrest.notes other hother id
      · intro other hother hnone
        rcases List.mem_cons.mp hother with rfl | hother
        · refine ((hrest.others (.path other) hne).1.trans ?_)
          rw [links_retryPath, Ledger.attach]
          cases p.outline.target? (.path other) with
          | none => exact hnone
          | some node => exact (Table.get?_insert ..).trans (if_pos rfl)
        · rw [← hsame]
          exact hrest.linked other hother ((hlinks _ (Ne.symm (hne other hother))).trans hnone)
      · intro ref href
        obtain ⟨hhead, htail⟩ := List.forall_mem_cons.mp href
        obtain ⟨hlink, hsaved⟩ := hrest.others ref htail
        exact ⟨hlink.trans (hlinks _ hhead),
          fun id => (hsaved id).trans (hnotes.others hhead id)⟩

theorem tree_reportLabels (p : Pass) (reportUnresolved : Bool) :
    (p.reportLabels reportUnresolved).tree = p.tree := by
  cases reportUnresolved with
  | false => rfl
  | true => rw [reportLabels_true]

end Pass

namespace Linkage

section Distinct

variable {files : List SourceFile} (hn : ((mentionsOf files).map (·.ref.id)).Nodup)
include hn

/-- Before the last try, every reference has the notes that are due to its link. -/
theorem noted_actionsOf :
    (Pass.start.run (actionsOf files)).Noted
      (((actionsOf files).flatMap Action.mentions).map (·.ref)) := by
  have hids := nodup_actionsOf hn
  refine Pass.Noted.start.run ?_ ?_ ?_ Ledger.Balanced.start hids fun m hm =>
    List.mem_map_of_mem hm
  · rwa [List.map_map]
  · exact Pass.outline_start.symm ▸ .start
  · exact Pass.outline_start.symm ▸ Outline.rooted_start

/-- The result of linking is what the last try makes of the pass. -/
theorem retried_link (reportUnresolved : Bool) (generation : Nat) :
    let l := link files reportUnresolved generation
    (Pass.start.run (actionsOf files)).Retried (ledgerOf files).pendingPaths l.tree l.links := by
  intro l
  let p := Pass.start.run (actionsOf files)
  have houtline : p.outline = outlineOf files := outline_actionsOf files
  have hledger : p.ledger = ledgerOf files := ledger_actionsOf files
  have hs : p.outline.Sound := houtline ▸ sound_outlineOf files
  have hdistinct : (p.pendingPaths.map (·.id)).Nodup := by
    have hb : p.ledger.Balanced _ := hledger ▸ balanced_ledgerOf hn
    exact hb.nodup_pendingPaths (nodup_actionsOf hn)
  have htree : l.tree = (p.retryPaths reportUnresolved).tree := Pass.tree_reportLabels _ _
  have hlinks : l.links = (p.retryPaths reportUnresolved).links := by
    rw [link_links, closingOf, Ledger.links_close, ← hledger, ← houtline, ← p.ledger_retryPaths]
    rfl
  have htried := Pass.retried_foldl reportUnresolved (p := { p with pendingPaths := [] }) hs
    hdistinct
  rw [htree, hlinks, ← hledger]
  exact ⟨htried.parent, htried.notes, htried.linked, htried.others⟩

section Mention

variable (reportUnresolved : Bool) (generation : Nat) {m : Mention} (hm : m ∈ mentionsOf files)
include hm

theorem noted_mention :
    m.ref.Noted (Pass.start.run (actionsOf files)).tree ((ledgerOf files).links.get? m.ref.id) := by
  have hmem := (mentionsOf_perm files).mem_iff.mpr hm
  rw [← ledger_actionsOf]
  exact noted_actionsOf hn m.ref (List.mem_map_of_mem hmem)

/-- What does not wait for the last try is as it was before. -/
theorem noted_of_settled (hw : m.waitingPath? (ledgerOf files).links = none) :
    let l := link files reportUnresolved generation
    l.linked? m.ref.id = (ledgerOf files).links.get? m.ref.id ∧
      m.ref.Noted l.tree (l.linked? m.ref.id) := by
  intro l
  have htried := retried_link hn reportUnresolved generation
  have hother : ∀ path ∈ (ledgerOf files).pendingPaths, m.ref.id ≠ path.id := by
    intro path hpath heq
    have hmem := (mentionsOf_perm files).mem_iff.mpr hm
    cases hw.symm.trans ((balanced_ledgerOf hn).waitingPath?_of_mem (nodup_actionsOf hn) hpath hmem
      heq.symm)
  obtain ⟨hlink, hsaved⟩ := htried.others m.ref hother
  have hsame : l.linked? m.ref.id = (ledgerOf files).links.get? m.ref.id := by
    rw [← ledger_actionsOf]
    exact hlink
  obtain ⟨notes, hdue, hnotes⟩ := noted_mention hn hm
  refine ⟨hsame, notes, hsame ▸ hdue.of_parent fun id _ => htried.parent id, fun id => ?_⟩
  exact (hsaved id).trans (hnotes id)

/-- A path that waits for the last try is noted as far as it names nodes in the result, and linked
if that is all of it. -/
theorem noted_of_waiting {path : PathRef}
    (hw : m.waitingPath? (ledgerOf files).links = some path) :
    let l := link files reportUnresolved generation
    let nodes := l.tree.descend Tree.root (path.segments.map (·.value))
    l.linked? path.id = (if nodes.length = path.segments.length then
      some (nodes.getLast?.getD Tree.root) else none) ∧ path.NotedAlong l.tree nodes := by
  intro l nodes
  let p := Pass.start.run (actionsOf files)
  have htried := retried_link hn reportUnresolved generation
  have hpath : path ∈ (ledgerOf files).pendingPaths := by
    rw [(balanced_ledgerOf hn).pendingPaths_eq]
    exact List.mem_filterMap.mpr ⟨m, (mentionsOf_perm files).mem_iff.mpr hm, hw⟩
  obtain ⟨-, href, hnone⟩ := Mention.waitingPath?_eq_some.mp hw
  have hdescend : p.outline.tree.descend Tree.root (path.segments.map (·.value)) = nodes := by
    rw [outline_actionsOf, ← link_tree_bare files reportUnresolved generation,
      ← l.tree.sameShape_bare.descend]
  have hwalk : p.walkPath path = nodes :=
    (p.tree.sameShape_bare.descend ..).trans hdescend
  constructor
  · have hopen : p.links.get? path.id = none := by
      rw [href, ← ledger_actionsOf] at hnone
      exact hnone
    rw [← hdescend]
    exact htried.linked path hpath hopen
  · have hnodup := ((wellFormed_link files reportUnresolved generation).leads_descend
      (path.segments.map (·.value))).nodup (wellFormed_link ..)
    refine PathRef.notedAlong_of_notes hnodup ?_ fun id => ?_
    · simpa using l.tree.length_descend_le Tree.root (path.segments.map (·.value))
    · have hbefore := noted_mention hn hm
      rw [hnone, href] at hbefore
      rw [htried.notes path hpath, hbefore.of_none, List.nil_append, hwalk]

end Mention

end Distinct

/-- In files as read, links and notes agree. A label reference is noted once at the node it is
linked to, and nowhere else. A path that is linked to a node is noted at the nodes that lead there
from the root, once for each segment. A path of a value that is left without a link is noted
likewise at the nodes that its leading segments name in the result, as far as they name any. That
of a block or a delete is not noted then. -/
theorem links_agree_with_notes (files : List SourceFile) (reportUnresolved : Bool)
    (generation : Nat) (hparsed : ∀ f ∈ files, f.Parsed) (hnodup : (files.map (·.file)).Nodup) :
    let l := link files reportUnresolved generation
    ∀ m ∈ mentionsOf files,
      (∀ r, m.ref = .label r → ∀ id,
        (l.node id).linkedLabels.filter (·.id = r.id) =
          if l.linked? r.id = some id then [⟨r.id, r.span⟩] else []) ∧
      ∀ r, m.ref = .path r →
        (∀ target, l.linked? r.id = some target →
          ∃ nodes, nodes.length = r.segments.length ∧ l.tree.Leads nodes target ∧
            r.NotedAlong l.tree nodes) ∧
        (l.linked? r.id = none →
          (m.role = .value →
            ∃ nodes, nodes.length < r.segments.length ∧
              (∀ count < r.segments.length, nodes[count]? =
                l.tree.reach? Tree.root ((r.segments.map (·.value)).take (count + 1))) ∧
              r.NotedAlong l.tree nodes) ∧
          (m.role ≠ .value → r.NotedAlong l.tree [])) := by
  intro l m hm
  have hn := nodup_mention_ids hparsed hnodup
  have hwf : l.tree.WellFormed := wellFormed_link files reportUnresolved generation
  cases hw : m.waitingPath? (ledgerOf files).links with
  | some path =>
      obtain ⟨hv, href, -⟩ := Mention.waitingPath?_eq_some.mp hw
      obtain ⟨hlink, halong⟩ := noted_of_waiting hn reportUnresolved generation hm hw
      refine ⟨fun r hr => (by cases href.symm.trans hr), fun r hr => ?_⟩
      obtain rfl : path = r := Reference.path.inj (href.symm.trans hr)
      refine ⟨fun target htarget => ?_, fun hnone => ⟨fun _ => ?_, fun hv' => absurd hv hv'⟩⟩
      · rw [htarget] at hlink
        split at hlink
        · rename_i hlength
          cases hlink
          exact ⟨_, hlength, hwf.leads_descend _, halong⟩
        · cases hlink
      · rw [hnone] at hlink
        split at hlink
        · cases hlink
        · rename_i hlength
          have hle := l.tree.length_descend_le Tree.root (path.segments.map (·.value))
          rw [List.length_map] at hle
          refine ⟨_, Nat.lt_of_le_of_ne hle hlength, fun count hcount => ?_, halong⟩
          exact l.tree.getElem?_descend Tree.root (by rwa [List.length_map])
  | none =>
      obtain ⟨hlink, hnoted⟩ := noted_of_settled hn reportUnresolved generation hm hw
      refine ⟨fun r hr => ?_, fun r hr =>
        ⟨fun target htarget => ?_, fun hnone => ⟨fun hv => ?_, fun _ => ?_⟩⟩⟩
      · rw [hr] at hnoted
        exact hnoted.of_label
      · rw [hr] at hnoted
        exact Reference.Noted.of_path hwf (htarget ▸ hnoted)
      · -- A value without a link would have waited.
        rw [hr] at hlink
        have hwaits := Mention.waitingPath?_eq_some.mpr ⟨hv, hr, hr ▸ hlink.symm.trans hnone⟩
        cases hw.symm.trans hwaits
      · rw [hr] at hnoted
        have hempty := Reference.Noted.of_none (hnone ▸ hnoted)
        exact ⟨fun pair hpair => by simp at hpair, fun id _ => hempty id⟩

/-- References that wait for a label and for paths, of which the last is deleted before the end,
read from `/{m{p=<&a &{/n} &{/n/k}>;};a:n{k{};};};&{/n/k}{};&{/n/y}{};/delete-node/&{/n/k};`. -/
def crossedFile : SourceFile :=
  .read ⟨0⟩ ("/\x7bm\x7bp=<&a &\x7b/n\x7d &\x7b/n/k\x7d>;\x7d;a:n\x7bk\x7b\x7d;\x7d;\x7d;" ++
    "&\x7b/n/k\x7d\x7b\x7d;&\x7b/n/y\x7d\x7b\x7d;/delete-node/&\x7b/n/k\x7d;").toList

/-- The last path of its value. -/
def crossedPath : PathRef :=
  ⟨⟨⟨0⟩, 5⟩,
    [⟨⟨"n", none⟩, ⟨⟨0⟩, 19, 20, ⟨0, 19⟩, ⟨0, 20⟩⟩⟩,
      ⟨⟨"k", none⟩, ⟨⟨0⟩, 21, 22, ⟨0, 21⟩, ⟨0, 22⟩⟩⟩],
    ⟨⟨0⟩, 16, 23, ⟨0, 16⟩, ⟨0, 23⟩⟩⟩

/-- The paths to the deleted node are noted at both nodes on their way, but the path that was tried
after the delete at the first alone. -/
theorem crossedFile_agrees :
    let l := link [crossedFile] true 0
    ((mentionsOf [crossedFile]).map fun m => (m.role, l.linked? m.ref.id)) =
      [(.value, some ⟨2⟩), (.value, some ⟨2⟩), (.value, none), (.block, some ⟨3⟩), (.block, none),
        (.delete, some ⟨3⟩)] ∧
    (∀ m ∈ mentionsOf [crossedFile], ∀ r, m.ref = .path r → l.linked? r.id = some ⟨3⟩ →
      ∃ nodes, nodes.length = r.segments.length ∧ l.tree.Leads nodes ⟨3⟩ ∧
        r.NotedAlong l.tree nodes) ∧
    (∃ m ∈ mentionsOf [crossedFile], m.role = .value ∧ m.ref = .path crossedPath) ∧
    crossedPath.NotedAlong l.tree [⟨2⟩] := by
  intro l
  have hparsed : ∀ f ∈ [crossedFile], f.Parsed := by
    intro f hf
    rw [List.mem_singleton.mp hf]
    exact ⟨_, rfl⟩
  have h := links_agree_with_notes [crossedFile] true 0 hparsed (by decide)
  have hvalue : ∃ m ∈ mentionsOf [crossedFile], m.role = .value ∧ m.ref = .path crossedPath := by
    decide +kernel
  refine ⟨by decide +kernel, fun m hm r hr => ((h m hm).2 r hr).1 ⟨3⟩, hvalue, ?_⟩
  obtain ⟨m, hm, hv, hr⟩ := hvalue
  obtain ⟨nodes, -, hnodes, halong⟩ :=
    (((h m hm).2 crossedPath hr).2 (by decide +kernel)).1 hv
  have hfirst : nodes[0]? = some ⟨2⟩ := (hnodes 0 (by decide)).trans (by decide +kernel)
  have hsecond : nodes[1]? = none := (hnodes 1 (by decide)).trans (by decide +kernel)
  have hlength : nodes.length ≤ 1 := List.getElem?_eq_none_iff.mp hsecond
  obtain ⟨node, rfl⟩ : ∃ node, nodes = [node] := by
    cases nodes with
    | nil => cases hfirst
    | cons node rest => exact ⟨node, by simpa using hlength⟩
  cases hfirst
  exact halong

end Linkage

end Devicetree
