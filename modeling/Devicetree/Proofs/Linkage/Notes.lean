import Devicetree.Proofs.Linkage.Accounts
import Devicetree.Proofs.Linkage.Continuity

/-!
# The notes of references

A reference that finds its target is entered twice: in the table of links, and as a note at the
node it names; a path is noted at every node on its way. Both are done by blocks, by deletes, by
values and by labels that values waited for. The invariant is that each reference has the notes
that are due to its link, and none if it has no link: what is entered is a reference met for the
first time or one that waited, so it had neither. The main results are that an action and a run
keep the invariant.
-/

namespace Devicetree

/-! ### The notes that are due -/

/-- The notes of a reference at a node. -/
def Node.notes (n : Node) : Reference → List AstRef
  | .label ref => n.linkedLabels.filter (·.id = ref.id)
  | .path ref => n.linkedPaths.filter (·.id = ref.id)

/-- The notes that the segments of a path leave at a node, given the nodes they name. -/
def PathRef.notesAt (path : PathRef) (nodes : List NodeId) (id : NodeId) : List AstRef :=
  ((path.segments.zip nodes).filter (·.2 = id)).map fun pair => ⟨path.id, pair.1.span⟩

/-- Nodes that lead from the root down to a node, each the parent of the next. -/
structure Tree.Leads (t : Tree) (nodes : List NodeId) (target : NodeId) : Prop where
  chain : (Tree.root :: nodes).IsChain fun a b => (t.node b).parent = some a
  last : nodes.getLast?.getD Tree.root = target

/-- The notes at all nodes that are due to a reference, given what it is linked to. -/
inductive Reference.Due (t : Tree) : Reference → Option NodeId → (NodeId → List AstRef) → Prop
  | unlinked (ref : Reference) : Due t ref none fun _ => []
  | label (ref : LabelRef) (target : NodeId) :
      Due t (.label ref) (some target) fun id => if id = target then [⟨ref.id, ref.span⟩] else []
  | path (ref : PathRef) {nodes : List NodeId} {target : NodeId}
      (hlength : nodes.length = ref.segments.length) (hleads : t.Leads nodes target) :
      Due t (.path ref) (some target) (ref.notesAt nodes)

/-- A reference has the notes that are due to its link. -/
def Reference.Noted (t : Tree) (ref : Reference) (link : Option NodeId) : Prop :=
  ∃ notes, ref.Due t link notes ∧ ∀ id, (t.node id).notes ref = notes id

theorem PathRef.filter_notesAt (path : PathRef) (nodes : List NodeId) (id : NodeId) :
    (path.notesAt nodes id).filter (·.id = path.id) = path.notesAt nodes id := by
  refine List.filter_eq_self.mpr fun note hnote => ?_
  obtain ⟨pair, -, rfl⟩ := List.mem_map.mp hnote
  exact decide_eq_true rfl

theorem PathRef.filter_notesAt_ne (path : PathRef) (nodes : List NodeId) (id : NodeId)
    {other : AstId} (h : other ≠ path.id) :
    (path.notesAt nodes id).filter (·.id = other) = [] := by
  refine List.filter_eq_nil_iff.mpr fun note hnote => ?_
  obtain ⟨pair, -, rfl⟩ := List.mem_map.mp hnote
  simpa using h.symm

namespace Tree

/-- A tree in which every node there was has its parent and its notes still. -/
structure SameNotes (t u : Tree) : Prop where
  parent : ∀ id, id.index < t.size → (u.node id).parent = (t.node id).parent
  notes : ∀ id ref, (u.node id).notes ref = (t.node id).notes ref

namespace SameNotes

variable {t u : Tree}

theorem refl (t : Tree) : t.SameNotes t :=
  ⟨fun _ _ => rfl, fun _ _ => rfl⟩

theorem modify {id : NodeId} {f : Node → Node}
    (hparent : (f (t.node id)).parent = (t.node id).parent)
    (hlabels : (f (t.node id)).linkedLabels = (t.node id).linkedLabels)
    (hpaths : (f (t.node id)).linkedPaths = (t.node id).linkedPaths) :
    t.SameNotes (t.modify id f) := by
  constructor
  · intro other _
    rw [node_modify]
    split
    · rename_i hid
      rw [← hid.1]
      exact hparent
    · rfl
  · intro other ref
    rw [node_modify]
    split
    · rename_i hid
      rw [← hid.1]
      cases ref with
      | label ref => rw [Node.notes, Node.notes, hlabels]
      | path ref => rw [Node.notes, Node.notes, hpaths]
    · rfl

theorem addChild {parent : NodeId} (hp : parent.index < t.size) (name : UnitName) :
    t.SameNotes (t.addChild parent name) where
  parent := fun id hid => by rw [addChild_parent hp, if_neg (ne_nextId hid)]
  notes := fun id ref => by
    rw [node_addChild hp]
    split
    · rename_i hid
      rw [hid, node_nextId]
      cases ref <;> rfl
    · split
      · cases ref <;> rfl
      · rfl

theorem addStandIn (t : Tree) : t.SameNotes t.addStandIn where
  parent := fun id _ => by rw [node_addStandIn]
  notes := fun id ref => by rw [node_addStandIn]

theorem deleteNode? (ht : t.WellFormed) {target : NodeId} {deletedBy : AstRef}
    (h : t.deleteNode? target deletedBy = some u) : t.SameNotes u := by
  obtain ⟨parent, hp, -⟩ := Option.map_eq_some_iff.mp h
  have hlt := ht.parent_lt hp
  refine ⟨fun id _ => deleteNode?_parent hp hlt h id, fun id ref => ?_⟩
  rw [node_of_deleteNode? hp hlt h]
  split
  · cases ref <;> rfl
  · split
    · cases ref <;> rfl
    · rfl

end SameNotes

/-- A way to a node stays one, since no node that is there changes its parent. -/
theorem Leads.of_parent {t u : Tree} {nodes : List NodeId} {target : NodeId}
    (h : t.Leads nodes target)
    (hparent : ∀ id, id.index < t.size → (u.node id).parent = (t.node id).parent) :
    u.Leads nodes target where
  chain := h.chain.imp fun _ b hab => (hparent b (lt_size_of_parent hab)).trans hab
  last := h.last

theorem WellFormed.isChain_descend {t : Tree} (ht : t.WellFormed) (start : NodeId)
    (segments : List UnitName) :
    (start :: t.descend start segments).IsChain fun a b => (t.node b).parent = some a := by
  induction segments generalizing start with
  | nil => exact .singleton _
  | cons segment rest ih =>
      rw [descend]
      cases hnext : t.lookup? start segment with
      | none => exact .singleton _
      | some next =>
          exact List.isChain_cons_cons.mpr
            ⟨(ht.mem_children.mp (mem_of_lookup? hnext)).1, ih next⟩

theorem WellFormed.leads_descend {t : Tree} (ht : t.WellFormed) (segments : List UnitName) :
    t.Leads (t.descend root segments) ((t.descend root segments).getLast?.getD root) :=
  ⟨ht.isChain_descend root segments, rfl⟩

/-- On the way down no node comes twice. -/
theorem Leads.nodup {t : Tree} (ht : t.WellFormed) {nodes : List NodeId} {target : NodeId}
    (h : t.Leads nodes target) : nodes.Nodup := by
  have : Trans (fun a b : NodeId => a.index < b.index) (fun a b : NodeId => a.index < b.index)
      fun a b : NodeId => a.index < b.index := ⟨Nat.lt_trans⟩
  have hup := List.isChain_iff_pairwise.mp (h.chain.imp fun _ _ hab => ht.parent_lt hab)
  exact (List.pairwise_cons.mp hup).2.imp fun {a b} hlt heq => by
    subst heq
    exact Nat.lt_irrefl _ hlt

end Tree

theorem Reference.Due.of_parent {t u : Tree} {ref : Reference} {link : Option NodeId}
    {notes : NodeId → List AstRef} (h : ref.Due t link notes)
    (hparent : ∀ id, id.index < t.size → (u.node id).parent = (t.node id).parent) :
    ref.Due u link notes := by
  cases h with
  | unlinked => exact .unlinked _
  | label ref target => exact .label ref target
  | path ref hlength hleads => exact .path ref hlength (hleads.of_parent hparent)

namespace Pass

/-! ### Entering a reference -/

/-- What is noted of a reference, and nothing of any other. -/
structure Notes (ref : Reference) (notes : NodeId → List AstRef) (t u : Tree) : Prop where
  parent : ∀ id, (u.node id).parent = (t.node id).parent
  self : ∀ id, (u.node id).notes ref = (t.node id).notes ref ++ notes id
  others : ∀ {other : Reference}, other.id ≠ ref.id →
    ∀ id, (u.node id).notes other = (t.node id).notes other

theorem notes_linkLabel (p : Pass) (ref : LabelRef) {node : NodeId}
    (hnode : node.index < p.tree.size) :
    Notes (.label ref) (fun id => if id = node then [⟨ref.id, ref.span⟩] else [])
      p.tree (p.linkLabel ref node).tree := by
  have hafter : ∀ id, (p.linkLabel ref node).tree.node id =
      if id = node then
        { p.tree.node id with
          linkedLabels := (p.tree.node id).linkedLabels ++ [⟨ref.id, ref.span⟩] }
      else p.tree.node id := by
    intro id
    by_cases hid : id = node
    · rw [if_pos hid, hid]
      exact Tree.node_modify_self _ hnode
    · rw [if_neg hid]
      exact Tree.node_modify_ne _ (Ne.symm hid)
  refine ⟨fun id => ?_, fun id => ?_, fun {other} hother id => ?_⟩
  · rw [hafter]
    split <;> rfl
  · rw [hafter]
    split
    · simp [Node.notes, List.filter_append]
    · simp
  · rw [hafter]
    split
    · cases other with
      | label other =>
          have hne : ref.id ≠ other.id := Ne.symm hother
          simp [Node.notes, List.filter_append, hne]
      | path other => rfl
    · rfl

theorem node_linkSegments (p : Pass) (path : PathRef) {nodes : List NodeId}
    (hnodes : ∀ node ∈ nodes, node.index < p.tree.size) (id : NodeId) :
    (p.linkSegments path nodes).tree.node id =
      { p.tree.node id with
        linkedPaths := (p.tree.node id).linkedPaths ++ path.notesAt nodes id } := by
  have hpairs : ∀ pair ∈ path.segments.zip nodes, pair.2.index < p.tree.size :=
    fun pair hpair => hnodes pair.2 (List.of_mem_zip hpair).2
  unfold linkSegments PathRef.notesAt
  generalize path.segments.zip nodes = pairs at hpairs
  clear hnodes
  induction pairs generalizing p with
  | nil => simp
  | cons pair pairs ih =>
      obtain ⟨hfirst, hrest⟩ := List.forall_mem_cons.mp hpairs
      rw [List.foldl_cons, ih _ (by simpa [modifyNode] using hrest)]
      by_cases hid : pair.2 = id
      · subst hid
        simp only [modifyNode, Tree.node_modify_self _ hfirst]
        simp
      · simp only [modifyNode, Tree.node_modify_ne _ hid]
        simp [hid]

theorem notes_linkSegments (p : Pass) (path : PathRef) {nodes : List NodeId}
    (hnodes : ∀ node ∈ nodes, node.index < p.tree.size) :
    Notes (.path path) (path.notesAt nodes) p.tree (p.linkSegments path nodes).tree := by
  refine ⟨fun id => ?_, fun id => ?_, fun {other} hother id => ?_⟩
  · rw [p.node_linkSegments path hnodes]
  · rw [p.node_linkSegments path hnodes, Node.notes, Node.notes, List.filter_append,
      path.filter_notesAt]
  · rw [p.node_linkSegments path hnodes]
    cases other with
    | label other => rfl
    | path other =>
        have hne : other.id ≠ path.id := hother
        rw [Node.notes, Node.notes, List.filter_append, path.filter_notesAt_ne nodes id hne,
          List.append_nil]

theorem lt_size_of_mem_walkPath {p : Pass} (hw : p.tree.WellFormed) {path : PathRef}
    {node : NodeId} (h : node ∈ p.walkPath path) : node.index < p.tree.size :=
  (Tree.under_of_mem_descend h).lt_size hw hw.size_pos

/-- A reference that finds its target is linked to it, and gets the notes that are due. -/
theorem notes_linkReference? {p q : Pass} (hs : p.outline.Sound) {ref : Reference} {node : NodeId}
    (h : p.linkReference? ref = some (q, node)) :
    q.links = p.links.insert ref.id node ∧
      ∃ notes, ref.Due p.tree (some node) notes ∧ Notes ref notes p.tree q.tree := by
  have hw := wellFormed_of_outline hs
  refine ⟨congrArg Ledger.links (ledger_of_linkReference? h), ?_⟩
  cases ref with
  | label ref =>
      obtain ⟨hlt, -⟩ := hs.of_target? (linkReference?_some h).2
      rw [size_outline] at hlt
      obtain ⟨found, -, he⟩ := Option.map_eq_some_iff.mp h
      cases he
      exact ⟨_, .label ref node, p.notes_linkLabel ref hlt⟩
  | path ref =>
      rw [linkReference?, linkPath?] at h
      split at h
      · rename_i hlength
        cases h
        exact ⟨_, .path ref hlength (hw.leads_descend _),
          p.notes_linkSegments ref fun _ => lt_size_of_mem_walkPath hw⟩
      · cases h

theorem get?_linkValue_ne (p : Pass) {ref : Reference} {id : AstId} (h : id ≠ ref.id) :
    (p.linkValue ref).links.get? id = p.links.get? id := by
  unfold linkValue
  cases hlink : p.linkReference? ref with
  | some found =>
      have hlinks := congrArg Ledger.links (ledger_of_linkReference? hlink)
      exact (congrArg (·.get? id) hlinks).trans ((Table.get?_insert ..).trans (if_neg h.symm))
  | none => cases ref <;> rfl

/-! ### References have the notes that are due -/

/-- Some references have the notes that are due to their links. -/
def Noted (refs : List Reference) (p : Pass) : Prop :=
  ∀ ref ∈ refs, ref.Noted p.tree (p.links.get? ref.id)

namespace Noted

variable {refs : List Reference} {p q : Pass}

theorem start : Pass.start.Noted refs := by
  intro ref _
  refine ⟨_, .unlinked ref, fun id => ?_⟩
  rw [Pass.start, Tree.node_start]
  split <;> cases ref <;> rfl

/-- What neither links nor notes anything. -/
theorem quiet (h : p.Noted refs) (ht : p.tree.SameNotes q.tree) (hl : q.links = p.links) :
    q.Noted refs := by
  intro ref href
  obtain ⟨notes, hdue, hnotes⟩ := h ref href
  rw [hl]
  exact ⟨notes, hdue.of_parent ht.parent, fun id => (ht.notes id ref).trans (hnotes id)⟩

theorem removeNode? (h : p.Noted refs) (hw : p.tree.WellFormed) {target : NodeId}
    {deletedBy : AstRef} (hq : p.removeNode? target deletedBy = some q) : q.Noted refs := by
  obtain ⟨tree, htree, rfl⟩ := Option.map_eq_some_iff.mp hq
  exact h.quiet (.deleteNode? hw htree) rfl

theorem removeGlobal (h : p.Noted refs) (hw : p.tree.WellFormed) (target : Option NodeId)
    (deletedBy : AstRef) (ref : Reference) : (p.removeGlobal target deletedBy ref).Noted refs := by
  unfold Pass.removeGlobal
  split
  · rename_i q hq
    obtain ⟨node, -, hq⟩ := Option.bind_eq_some_iff.mp hq
    exact (h.removeNode? hw hq).quiet (.refl _) rfl
  · exact h.quiet (.refl _) rfl

theorem deleteProperty (h : p.Noted refs) (delete : DeleteProperty) :
    (p.deleteProperty delete).Noted refs := by
  let q := p.own delete.id p.scope.node
  have hq : q.Noted refs := h.quiet (.refl _) rfl
  simp only [Pass.deleteProperty]
  split
  · rename_i changed hchanged
    obtain ⟨property, -, rfl⟩ := Option.map_eq_some_iff.mp hchanged
    exact hq.quiet (.modify rfl rfl rfl) rfl
  · exact hq.quiet (.refl _) rfl

section Distinct

variable (hrefs : (refs.map (·.id)).Nodup)
include hrefs

/-- A reference without a link is linked and noted. -/
theorem enter (h : p.Noted refs) {ref : Reference} (href : ref ∈ refs)
    (hopen : p.links.get? ref.id = none) {node : NodeId}
    (hlinks : q.links = p.links.insert ref.id node) {notes : NodeId → List AstRef}
    (hdue : ref.Due p.tree (some node) notes) (hnotes : Notes ref notes p.tree q.tree) :
    q.Noted refs := by
  have hparent : ∀ id, id.index < p.tree.size →
      (q.tree.node id).parent = (p.tree.node id).parent := fun id _ => hnotes.parent id
  intro other hother
  rw [hlinks, Table.get?_insert]
  by_cases hid : ref.id = other.id
  · obtain rfl : ref = other := List.inj_on_of_nodup_map hrefs href hother hid
    obtain ⟨old, hold, hbefore⟩ := h ref href
    rw [hopen] at hold
    cases hold
    rw [if_pos rfl]
    refine ⟨notes, hdue.of_parent hparent, fun id => ?_⟩
    rw [hnotes.self, hbefore, List.nil_append]
  · obtain ⟨old, hold, hbefore⟩ := h other hother
    rw [if_neg hid]
    exact ⟨old, hold.of_parent hparent,
      fun id => (hnotes.others (Ne.symm hid) id).trans (hbefore id)⟩

theorem linkReference? (h : p.Noted refs) (hs : p.outline.Sound) {ref : Reference}
    (href : ref ∈ refs) (hopen : p.links.get? ref.id = none) {node : NodeId}
    (hlink : p.linkReference? ref = some (q, node)) : q.Noted refs := by
  obtain ⟨hlinks, notes, hdue, hnotes⟩ := notes_linkReference? hs hlink
  exact h.enter hrefs href hopen hlinks hdue hnotes

/-! ### Labels -/

theorem linkLabels (h : p.Noted refs) {node : NodeId} (hnode : node.index < p.tree.size)
    {waiting : List LabelRef} (hdistinct : (waiting.map (·.id)).Nodup)
    (hopen : ∀ ref ∈ waiting, .label ref ∈ refs ∧ p.links.get? ref.id = none) :
    (waiting.foldl (fun p ref => p.linkLabel ref node) p).Noted refs := by
  induction waiting generalizing p with
  | nil => exact h
  | cons ref waiting ih =>
      obtain ⟨hfirst, hdistinct⟩ := List.nodup_cons.mp hdistinct
      obtain ⟨⟨href, hnone⟩, hopen⟩ := List.forall_mem_cons.mp hopen
      refine ih (h.enter hrefs href hnone rfl (.label ref node) (p.notes_linkLabel ref hnode)) ?_
        hdistinct fun other hother => ⟨(hopen other hother).1, ?_⟩
      · exact (Tree.size_modify ..).symm ▸ hnode
      · have hne : ref.id ≠ other.id :=
          fun heq => hfirst (List.mem_map.mpr ⟨other, hother, heq.symm⟩)
        exact (Table.get?_insert ..).trans ((if_neg hne).trans (hopen other hother).2)

section Known

variable {ms : List Mention} (hms : (ms.map (·.ref.id)).Nodup) (hknown : ∀ m ∈ ms, m.ref ∈ refs)
include hms hknown

theorem bindLabel (h : p.Noted refs) (hb : p.ledger.Balanced ms) {node : NodeId}
    (hnode : node.index < p.tree.size) (detached : Bool) (label : Label) :
    (p.bindLabel node detached label).Noted refs := by
  have hcarry : (p.modifyNode node fun n => { n with labels := n.labels ++ [label] }).Noted refs :=
    h.quiet (.modify rfl rfl rfl) rfl
  cases detached with
  | true => exact hcarry
  | false =>
      let bound : Pass :=
        { p.modifyNode node fun n => { n with labels := n.labels ++ [label] } with
          labels := p.labels.insert label.value node
          pendingLabels := p.pendingLabels.filter (·.label ≠ label.value) }
      have hbound : bound.Noted refs := hcarry.quiet (.refl _) rfl
      refine hbound.linkLabels hrefs ((Tree.size_modify ..).symm ▸ hnode)
        ((List.filter_sublist.map _).nodup (hb.nodup_pendingLabels hms)) fun ref href => ?_
      have hwaits : p.ledger.Waits (.label ref) := List.mem_of_mem_filter href
      obtain ⟨m, hm, -, heq, hnone⟩ := hb.exists_of_waits hwaits
      rw [heq] at hnone
      exact ⟨heq ▸ hknown m hm, hnone⟩

theorem bindLabels (h : p.Noted refs) (hb : p.ledger.Balanced ms) {node : NodeId}
    (hnode : node.index < p.tree.size) (detached : Bool) (bound : List Label) :
    (bound.foldl (fun p label => p.bindLabel node detached label) p).Noted refs := by
  induction bound generalizing p with
  | nil => exact h
  | cons label bound ih =>
      refine ih (h.bindLabel hrefs hms hknown hb hnode detached label) ?_ ?_
      · rw [ledger_bindLabel]
        cases detached with
        | true => exact hb
        | false => exact hb.bind hms _
      · have hsize := congrArg (·.tree.size) (p.outline_bindLabel node detached label)
        rw [size_outline] at hsize
        rwa [hsize, Tree.size_modify, size_outline]

theorem define (h : p.Noted refs) (hb : p.ledger.Balanced ms) {node : NodeId}
    (hnode : node.index < p.tree.size) (head : BlockHead) (detached : Bool) :
    (p.define head node detached).Noted refs := by
  let q := p.modifyNode node fun n => { n with definitions := n.definitions ++ [head.ref] }
  have hq : q.Noted refs := h.quiet (.modify rfl rfl rfl) rfl
  have hown : (q.own head.id node).Noted refs := hq.quiet (.refl _) rfl
  have hsize : node.index < (q.own head.id node).tree.size := (Tree.size_modify ..).symm ▸ hnode
  exact (hown.bindLabels hrefs hms hknown hb hsize detached head.labels).quiet (.refl _) rfl

end Known

/-! ### Actions -/

section Action

variable {ms : List Mention} (h : p.Noted refs) (hs : p.outline.Sound) (hr : p.outline.Rooted)
  (hb : p.ledger.Balanced ms)
include h hs hb

theorem enterChild {head : BlockHead} {name : NodeName} (htarget : head.target = .child name)
    (hn : (ms.map (·.ref.id)).Nodup) (hknown : ∀ m ∈ ms, m.ref ∈ refs) :
    (p.enter head).Noted refs := by
  have hw := wellFormed_of_outline hs
  rw [Pass.enter, htarget]
  dsimp only [childFor]
  cases hfind : p.tree.findChild? p.scope.node name.value with
  | some child =>
      have hlt := hw.lt_size_of_mem_children (Tree.mem_of_findChild? hfind).1
      exact h.define hrefs hn hknown hb hlt head _
  | none =>
      let q : Pass := { p with tree := p.tree.addChild p.scope.node name.value }
      have hq : q.Noted refs := h.quiet (.addChild (scope_lt_size hs) _) rfl
      exact hq.define hrefs hn hknown hb (by simp [q]) head _

include hr

theorem enterReference {head : BlockHead} {ref : Reference} (htarget : head.target = .reference ref)
    (hn : ((ms ++ [Mention.mk head.ref ref .block]).map (·.ref.id)).Nodup)
    (hknown : ∀ m ∈ ms ++ [Mention.mk head.ref ref .block], m.ref ∈ refs) :
    (p.enter head).Noted refs := by
  have hmet := List.mem_singleton_self (Mention.mk head.ref ref .block)
  have hfresh : p.links.get? ref.id = none := hb.fresh hn hmet
  have href : ref ∈ refs := hknown _ (List.mem_append_right _ hmet)
  have hmeet := hb.meets hs hr hn
  rw [List.foldl_cons, List.foldl_nil] at hmeet
  cases hlink : p.linkReference? ref with
  | some found =>
      obtain ⟨q, node⟩ := found
      obtain ⟨hsame, hnode⟩ := linkReference?_some hlink
      have hlt : node.index < q.tree.size :=
        q.size_outline ▸ hsame ▸ (hs.of_target? hnode).1
      rw [Ledger.meet_of_some hnode, ← ledger_of_linkReference? hlink] at hmeet
      have hq := h.linkReference? hrefs hs href hfresh hlink
      let r : Pass := { q with referenceBlocks := q.referenceBlocks ++ [head.ref] }
      have hr : r.Noted refs := hq.quiet (.refl _) rfl
      have hnoted : (r.modifyNode node fun n =>
          { n with referencedBy := n.referencedBy ++ [head.ref] }).Noted refs :=
        hr.quiet (.modify rfl rfl rfl) rfl
      rw [enter_of_linked htarget hlink]
      exact hnoted.define hrefs hn hknown hmeet ((Tree.size_modify ..).symm ▸ hlt) head false
  | none =>
      rw [Ledger.meet_of_none (linkReference?_none hlink)] at hmeet
      let q : Pass :=
        { p with unlinkedReferenceBlocks := p.unlinkedReferenceBlocks ++ [head.ref] }
      let r : Pass :=
        { q.report .unresolvedReference ref.span ref.subject [] with tree := p.tree.addStandIn }
      have hr : r.Noted refs := h.quiet (.addStandIn _) rfl
      have hledger : r.ledger = p.ledger.miss ⟨head.ref, ref, .block⟩ :=
        ledger_report_unresolved q ref
      rw [enter_of_unlinked htarget hlink]
      exact hr.define hrefs hn hknown (hledger ▸ hmeet) (by simp [r]) head true

theorem enterBlock {head : BlockHead}
    (hn : ((ms ++ (Action.enter head).mentions).map (·.ref.id)).Nodup)
    (hknown : ∀ m ∈ ms ++ (Action.enter head).mentions, m.ref ∈ refs) :
    (p.enter head).Noted refs := by
  obtain ⟨id, labels, target, span⟩ := head
  cases target with
  | root slash =>
      simp only [Action.mentions, List.append_nil] at hn hknown
      let q : Pass := { p with roots := p.roots ++ [⟨id, span⟩] }
      have hq : q.Noted refs := h.quiet (.refl _) rfl
      exact hq.define hrefs hn hknown hb (wellFormed_of_outline hs).size_pos _ _
  | child name =>
      simp only [Action.mentions, List.append_nil] at hn hknown
      exact h.enterChild hrefs hs hb rfl hn hknown
  | reference ref => exact h.enterReference hrefs hs hr hb rfl hn hknown

end Action

theorem linkValue (h : p.Noted refs) (hs : p.outline.Sound) {ref : Reference} (href : ref ∈ refs)
    (hopen : p.links.get? ref.id = none) : (p.linkValue ref).Noted refs := by
  unfold Pass.linkValue
  cases hlink : p.linkReference? ref with
  | some found => exact h.linkReference? hrefs hs href hopen hlink
  | none => cases ref <;> exact h.quiet (.refl _) rfl

theorem linkValues (h : p.Noted refs) (hs : p.outline.Sound) {values : List Reference}
    (hdistinct : (values.map (·.id)).Nodup)
    (hopen : ∀ ref ∈ values, ref ∈ refs ∧ p.links.get? ref.id = none) :
    (values.foldl Pass.linkValue p).Noted refs := by
  induction values generalizing p with
  | nil => exact h
  | cons ref values ih =>
      obtain ⟨hfirst, hdistinct⟩ := List.nodup_cons.mp hdistinct
      obtain ⟨⟨href, hnone⟩, hopen⟩ := List.forall_mem_cons.mp hopen
      refine ih (h.linkValue hrefs hs href hnone) ((p.outline_linkValue ref).symm ▸ hs) hdistinct
        fun other hother => ⟨(hopen other hother).1, ?_⟩
      have hne : other.id ≠ ref.id := fun heq => hfirst (List.mem_map.mpr ⟨other, hother, heq⟩)
      exact (get?_linkValue_ne p hne).trans (hopen other hother).2

theorem setProperty (h : p.Noted refs) (hs : p.outline.Sound) {ms : List Mention}
    (hb : p.ledger.Balanced ms) {definition : PropertyDef}
    (hn : ((ms ++ (Action.property definition).mentions).map (·.ref.id)).Nodup)
    (hknown : ∀ m ∈ ms ++ (Action.property definition).mentions, m.ref ∈ refs) :
    (p.setProperty definition).Noted refs := by
  let q := (p.own definition.id p.scope.node).modifyNode p.scope.node fun n => n.define definition
  have hq : q.Noted refs := h.quiet (.modify rfl rfl rfl) rfl
  have hsound : q.outline.Sound := by
    rw [← outline_linkValues q definition.references]
    exact p.outline_step (.property definition) ▸ hs.step (.property definition)
  have hmem : ∀ ref ∈ definition.references,
      ⟨definition.ref, ref, .value⟩ ∈ (Action.property definition).mentions :=
    fun ref href => List.mem_map_of_mem href
  refine hq.linkValues hrefs hsound ?_ fun ref href =>
    ⟨hknown _ (List.mem_append_right _ (hmem ref href)), hb.fresh hn (hmem ref href)⟩
  rw [List.map_append] at hn
  simpa [Action.mentions, Function.comp_def] using hn.of_append_right

theorem deleteNode (h : p.Noted refs) (hs : p.outline.Sound) {ms : List Mention}
    (hb : p.ledger.Balanced ms) {delete : DeleteNode}
    (hn : ((ms ++ (Action.deleteNode delete).mentions).map (·.ref.id)).Nodup)
    (hknown : ∀ m ∈ ms ++ (Action.deleteNode delete).mentions, m.ref ∈ refs) :
    (p.deleteNode delete).Noted refs := by
  obtain ⟨id, keyword, target, span⟩ := delete
  let q := p.own id p.scope.node
  have hq : q.Noted refs := h.quiet (.refl _) rfl
  cases target with
  | name name =>
      simp only [Pass.deleteNode]
      split
      · rename_i r hr
        obtain ⟨child, -, hr⟩ := Option.bind_eq_some_iff.mp hr
        exact hq.removeNode? (wellFormed_of_outline hs) hr
      · exact hq.quiet (.refl _) rfl
  | reference ref =>
      let m : Mention := ⟨⟨id, span⟩, ref, .delete⟩
      have hmem : m ∈ (Action.deleteNode ⟨id, keyword, .reference ref, span⟩).mentions :=
        List.mem_singleton_self m
      simp only [Pass.deleteNode]
      cases hlink : q.linkReference? ref with
      | some found =>
          obtain ⟨r, node⟩ := found
          have hr := hq.linkReference? hrefs hs (hknown m (List.mem_append_right _ hmem))
            (hb.fresh hn hmem) hlink
          have hsound : r.outline.Sound := (linkReference?_some hlink).1.symm ▸ hs
          exact hr.removeGlobal (wellFormed_of_outline hsound) _ _ _
      | none => exact hq.removeGlobal (wellFormed_of_outline hs) _ _ _

theorem step (h : p.Noted refs) (hs : p.outline.Sound) (hr : p.outline.Rooted)
    {ms : List Mention} (hb : p.ledger.Balanced ms) {a : Action}
    (hn : ((ms ++ a.mentions).map (·.ref.id)).Nodup)
    (hknown : ∀ m ∈ ms ++ a.mentions, m.ref ∈ refs) : (p.step a).Noted refs := by
  cases a with
  | clash name first => exact h.quiet (.refl _) rfl
  | enter head => exact h.enterBlock hrefs hs hr hb hn hknown
  | leave => exact h.quiet (.refl _) rfl
  | property definition => exact h.setProperty hrefs hs hb hn hknown
  | deleteNode delete => exact h.deleteNode hrefs hs hb hn hknown
  | deleteProperty delete => exact h.deleteProperty delete

theorem run (h : p.Noted refs) (hs : p.outline.Sound) (hr : p.outline.Rooted)
    {ms : List Mention} (hb : p.ledger.Balanced ms) {as : List Action}
    (hn : ((ms ++ as.flatMap Action.mentions).map (·.ref.id)).Nodup)
    (hknown : ∀ m ∈ ms ++ as.flatMap Action.mentions, m.ref ∈ refs) : (p.run as).Noted refs := by
  induction as generalizing p ms with
  | nil => exact h
  | cons a as ih =>
      rw [List.flatMap_cons, ← List.append_assoc] at hn hknown
      have hfirst : ((ms ++ a.mentions).map (·.ref.id)).Nodup := by
        rw [List.map_append] at hn
        exact hn.of_append_left
      rw [run_cons]
      refine ih (h.step hrefs hs hr hb hfirst fun m hm => hknown m (List.mem_append_left _ hm))
        ?_ ?_ ?_ hn hknown
      · exact (p.outline_step a).symm ▸ hs.step a
      · exact (p.outline_step a).symm ▸ hr.step hs a
      · exact (p.ledger_step a).symm ▸ hb.step hs hr hfirst

end Distinct

end Noted

end Pass

end Devicetree
