import Devicetree.Proofs.Linkage.Journal

/-!
# A record goes on where it stopped

What a pass has recorded it does not take back: nodes stay where they are, lists are added to at
their ends, and of a deleted node everything that blocks and references could add is closed. Each
action goes on in this way, because what a block or a reference finds is never deleted. Along the
way it is seen which statement gets which owner.
-/

namespace Devicetree

open List (prefix_rfl prefix_append)

/-- The record of a node goes on: its place stays, its lists get longer at the end if at all, and
once it is deleted blocks and references add nothing to it. -/
structure Node.Continues (m n : Node) : Prop where
  name : n.name = m.name
  parent : n.parent = m.parent
  definitions : m.definitions <+: n.definitions
  labels : m.labels <+: n.labels
  referencedBy : m.referencedBy <+: n.referencedBy
  linkedLabels : m.linkedLabels <+: n.linkedLabels
  linkedPaths : m.linkedPaths <+: n.linkedPaths
  deletedNodes : m.deletedNodes <+: n.deletedNodes
  deletedProperties : m.deletedProperties <+: n.deletedProperties
  closed : m.deleted = true → n.deleted = true ∧ n.definitions = m.definitions ∧
    n.labels = m.labels ∧ n.referencedBy = m.referencedBy ∧ n.linkedLabels = m.linkedLabels ∧
    n.linkedPaths = m.linkedPaths

/-- All nodes of a tree are still there, and the record of each goes on. -/
structure Tree.Continues (t u : Tree) : Prop where
  size_le : t.size ≤ u.size
  node : ∀ id, id.index < t.size → (t.node id).Continues (u.node id)

/-- The record of a pass goes on. -/
structure Record.Continues (r s : Record) : Prop where
  tree : r.tree.Continues s.tree
  roots : r.roots <+: s.roots
  referenceBlocks : r.referenceBlocks <+: s.referenceBlocks
  unlinkedReferenceBlocks : r.unlinkedReferenceBlocks <+: s.unlinkedReferenceBlocks
  globalDeletes : r.globalDeletes <+: s.globalDeletes
  unlinkedDeletes : r.unlinkedDeletes <+: s.unlinkedDeletes
  issues : r.issues <+: s.issues

namespace Node.Continues

variable {m n k : Node}

theorem refl (n : Node) : n.Continues n :=
  ⟨rfl, rfl, prefix_rfl, prefix_rfl, prefix_rfl, prefix_rfl, prefix_rfl, prefix_rfl, prefix_rfl,
    fun h => ⟨h, rfl, rfl, rfl, rfl, rfl⟩⟩

theorem trans (h : m.Continues n) (h' : n.Continues k) : m.Continues k where
  name := h'.name.trans h.name
  parent := h'.parent.trans h.parent
  definitions := h.definitions.trans h'.definitions
  labels := h.labels.trans h'.labels
  referencedBy := h.referencedBy.trans h'.referencedBy
  linkedLabels := h.linkedLabels.trans h'.linkedLabels
  linkedPaths := h.linkedPaths.trans h'.linkedPaths
  deletedNodes := h.deletedNodes.trans h'.deletedNodes
  deletedProperties := h.deletedProperties.trans h'.deletedProperties
  closed := fun hd => by
    obtain ⟨hn, hdefinitions, hlabels, hblocks, hlinks, hpaths⟩ := h.closed hd
    obtain ⟨hk, hdefinitions', hlabels', hblocks', hlinks', hpaths'⟩ := h'.closed hn
    exact ⟨hk, hdefinitions'.trans hdefinitions, hlabels'.trans hlabels, hblocks'.trans hblocks,
      hlinks'.trans hlinks, hpaths'.trans hpaths⟩

/-- What changes properties alone is open to every node. -/
theorem of_properties (n : Node) {properties : Table String Property}
    {deletedProperties : List (Tombstone Property)}
    (h : n.deletedProperties <+: deletedProperties) :
    n.Continues { n with properties := properties, deletedProperties := deletedProperties } :=
  { refl n with deletedProperties := h }

theorem define (n : Node) (definition : PropertyDef) : n.Continues (n.define definition) :=
  of_properties n prefix_rfl

theorem undefine {name : String} {deletedBy : AstRef} (h : m.undefine? name deletedBy = some n) :
    m.Continues n := by
  obtain ⟨p, -, rfl⟩ := Option.map_eq_some_iff.mp h
  exact of_properties m (prefix_append _ _)

section Kept

variable (hk : n.deleted = false)
include hk

theorem closed_of_kept {P : Prop} (hd : n.deleted = true) : P := by
  rw [hk] at hd
  cases hd

theorem addDefinition (ref : AstRef) :
    n.Continues { n with definitions := n.definitions ++ [ref] } :=
  { refl n with definitions := prefix_append _ _, closed := closed_of_kept hk }

theorem addLabel (label : Label) : n.Continues { n with labels := n.labels ++ [label] } :=
  { refl n with labels := prefix_append _ _, closed := closed_of_kept hk }

theorem addReferencedBy (ref : AstRef) :
    n.Continues { n with referencedBy := n.referencedBy ++ [ref] } :=
  { refl n with referencedBy := prefix_append _ _, closed := closed_of_kept hk }

theorem addLinkedLabel (ref : AstRef) :
    n.Continues { n with linkedLabels := n.linkedLabels ++ [ref] } :=
  { refl n with linkedLabels := prefix_append _ _, closed := closed_of_kept hk }

theorem addLinkedPath (ref : AstRef) :
    n.Continues { n with linkedPaths := n.linkedPaths ++ [ref] } :=
  { refl n with linkedPaths := prefix_append _ _, closed := closed_of_kept hk }

end Kept

end Node.Continues

namespace Tree.Continues

variable {t u v : Tree}

theorem refl (t : Tree) : t.Continues t :=
  ⟨Nat.le_refl _, fun _ _ => .refl _⟩

theorem trans (h : t.Continues u) (h' : u.Continues v) : t.Continues v where
  size_le := Nat.le_trans h.size_le h'.size_le
  node := fun id hid =>
    (h.node id hid).trans (h'.node id (Nat.lt_of_lt_of_le hid h.size_le))

theorem modify {id : NodeId} {f : Node → Node} (h : (t.node id).Continues (f (t.node id))) :
    t.Continues (t.modify id f) where
  size_le := Nat.le_of_eq (size_modify t id f).symm
  node := fun other hother => by
    by_cases hid : id = other
    · subst hid
      rwa [node_modify_self f hother]
    · rw [node_modify_ne f hid]
      exact .refl _

theorem addChild {parent : NodeId} (hp : parent.index < t.size) (name : UnitName) :
    t.Continues (t.addChild parent name) where
  size_le := by simp
  node := fun id hid => by
    rw [node_addChild hp, if_neg (ne_nextId hid)]
    split
    · exact { Node.Continues.refl (t.node id) with }
    · exact .refl _

theorem addStandIn (t : Tree) : t.Continues t.addStandIn where
  size_le := by simp
  node := fun id _ => by
    rw [node_addStandIn]
    exact .refl _

theorem deleteNode? (ht : t.WellFormed) {target : NodeId} {deletedBy : AstRef}
    (h : t.deleteNode? target deletedBy = some u) : t.Continues u where
  size_le := Nat.le_of_eq (size_of_deleteNode? h).symm
  node := fun id _ => by
    obtain ⟨parent, hp, -⟩ := Option.map_eq_some_iff.mp h
    rw [node_of_deleteNode? hp (ht.parent_lt hp) h]
    split
    · exact { Node.Continues.refl (t.node id) with
        closed := fun _ => ⟨rfl, rfl, rfl, rfl, rfl, rfl⟩ }
    · split
      · exact { Node.Continues.refl (t.node id) with deletedNodes := prefix_append _ _ }
      · exact .refl _

end Tree.Continues

namespace Record.Continues

variable {r s q : Record}

theorem of_tree (r : Record) {tree : Tree} (h : r.tree.Continues tree) :
    r.Continues { r with tree := tree } :=
  ⟨h, prefix_rfl, prefix_rfl, prefix_rfl, prefix_rfl, prefix_rfl, prefix_rfl⟩

theorem refl (r : Record) : r.Continues r :=
  of_tree r (.refl _)

theorem trans (h : r.Continues s) (h' : s.Continues q) : r.Continues q where
  tree := h.tree.trans h'.tree
  roots := h.roots.trans h'.roots
  referenceBlocks := h.referenceBlocks.trans h'.referenceBlocks
  unlinkedReferenceBlocks := h.unlinkedReferenceBlocks.trans h'.unlinkedReferenceBlocks
  globalDeletes := h.globalDeletes.trans h'.globalDeletes
  unlinkedDeletes := h.unlinkedDeletes.trans h'.unlinkedDeletes
  issues := h.issues.trans h'.issues

end Record.Continues

/-- The statement that an action carries out. -/
def Action.id? : Action → Option AstId
  | .clash _ _ | .leave => none
  | .enter head => some head.id
  | .property definition => some definition.id
  | .deleteNode delete => some delete.id
  | .deleteProperty delete => some delete.id

/-- The statements of a journal, each with its owner. -/
def Journal.owned (j : Journal) : List (AstId × NodeId) :=
  j.flatMap fun entry => entry.1.id?.toList.map (·, entry.2)

theorem Journal.owned_cons (entry : Action × NodeId) (j : Journal) :
    Journal.owned (entry :: j) = Journal.owned [entry] ++ j.owned := by
  simp [owned]

theorem Journal.map_fst_owned (j : Journal) :
    j.owned.map (·.1) = (j.map (·.1)).flatMap fun a => a.id?.toList := by
  rw [owned, List.map_flatMap, List.flatMap_map]
  refine List.flatMap_congr fun entry _ => ?_
  rw [List.map_map]
  exact List.map_id _

theorem Journal.mem_owned {j : Journal} {id : AstId} {node : NodeId} :
    (id, node) ∈ j.owned ↔ ∃ a, a.id? = some id ∧ (a, node) ∈ j := by
  constructor
  · intro h
    obtain ⟨⟨a, other⟩, hmem, h⟩ := List.mem_flatMap.mp h
    obtain ⟨i, hi, he⟩ := List.mem_map.mp h
    cases he
    exact ⟨a, Option.mem_toList.mp hi, hmem⟩
  · rintro ⟨a, ha, hmem⟩
    exact List.mem_flatMap.mpr ⟨(a, node), hmem, by simp [ha]⟩

namespace Pass

theorem deleted_outline (p : Pass) (id : NodeId) :
    (p.outline.tree.node id).deleted = (p.tree.node id).deleted := by
  rw [outline, Tree.node_bare]
  rfl

theorem size_outline (p : Pass) : p.outline.tree.size = p.tree.size :=
  Tree.size_bare p.tree

theorem scope_lt_size {p : Pass} (hs : p.outline.Sound) : p.scope.node.index < p.tree.size :=
  p.size_outline ▸ hs.scope_node_lt

/-- The record goes on without a delete, and no statement gets an owner. -/
structure Adds (p q : Pass) : Prop where
  record : p.toRecord.Continues q.toRecord
  deleted : ∀ id, (q.tree.node id).deleted = (p.tree.node id).deleted
  owners : q.owners = p.owners

namespace Adds

variable {p q r : Pass}

theorem refl (p : Pass) : p.Adds p :=
  ⟨.refl _, fun _ => rfl, rfl⟩

theorem trans (h : p.Adds q) (h' : q.Adds r) : p.Adds r :=
  ⟨h.record.trans h'.record, fun id => (h'.deleted id).trans (h.deleted id),
    h'.owners.trans h.owners⟩

theorem kept (h : p.Adds q) {id : NodeId} (hk : (p.tree.node id).deleted = false) :
    (q.tree.node id).deleted = false :=
  (h.deleted id).trans hk

/-- What each of some steps adds, all of them add. -/
theorem foldl {α : Type} {f : Pass → α → Pass} {P : Pass → Prop} {xs : List α}
    (hkeep : ∀ {p q}, p.Adds q → P p → P q) (hf : ∀ x ∈ xs, ∀ p, P p → p.Adds (f p x)) (hp : P p) :
    p.Adds (xs.foldl f p) := by
  induction xs generalizing p with
  | nil => exact refl p
  | cons x xs ih =>
      have hfirst := hf x List.mem_cons_self p hp
      exact hfirst.trans (ih (fun y hy => hf y (List.mem_cons_of_mem _ hy)) (hkeep hfirst hp))

/-- What is pending, and which labels are bound, is no matter of the lists. -/
theorem of_record (h : q.toRecord = { p.toRecord with labels := q.labels }) : p.Adds q where
  record := by
    rw [h]
    exact { Record.Continues.refl p.toRecord with }
  deleted := fun id => by rw [h]
  owners := by rw [h]

theorem modifyNode {id : NodeId} {f : Node → Node}
    (h : (p.tree.node id).Continues (f (p.tree.node id)))
    (hd : (f (p.tree.node id)).deleted = (p.tree.node id).deleted) :
    p.Adds (p.modifyNode id f) where
  record := .of_tree p.toRecord (.modify h)
  deleted := fun other => by
    change ((p.tree.modify id f).node other).deleted = _
    rw [Tree.node_modify]
    split
    · rename_i hid
      exact hid.1 ▸ hd
    · rfl
  owners := rfl

theorem report (p : Pass) (kind : IssueKind) (span : Span) (subject : String)
    (related : List Span) : p.Adds (p.report kind span subject related) :=
  ⟨{ Record.Continues.refl p.toRecord with issues := prefix_append _ _ }, fun _ => rfl, rfl⟩

/-! ### References -/

theorem linkLabel {node : NodeId} (hk : (p.tree.node node).deleted = false) (ref : LabelRef) :
    p.Adds (p.linkLabel ref node) := by
  have hnote : p.Adds (p.modifyNode node fun n =>
      { n with linkedLabels := n.linkedLabels ++ [⟨ref.id, ref.span⟩] }) :=
    modifyNode (.addLinkedLabel hk _) rfl
  exact ⟨{ hnote.record with }, hnote.deleted, rfl⟩

theorem linkSegments (path : PathRef) {nodes : List NodeId}
    (hk : ∀ node ∈ nodes, (p.tree.node node).deleted = false) :
    p.Adds (p.linkSegments path nodes) := by
  apply foldl (P := fun q => ∀ node ∈ nodes, (q.tree.node node).deleted = false)
  · exact fun h hq node hnode => h.kept (hq node hnode)
  · rintro ⟨segment, node⟩ hpair q hq
    exact modifyNode (.addLinkedPath (hq node (List.of_mem_zip hpair).2) _) rfl
  · exact hk

/-- The nodes that a path leads through are in force. -/
theorem kept_of_mem_walkPath (hs : p.outline.Sound) {path : PathRef} {node : NodeId}
    (h : node ∈ p.walkPath path) : (p.tree.node node).deleted = false := by
  rw [walkPath_eq] at h
  have hlive := hs.tree.isLive_iff_under.mpr (Tree.under_of_mem_descend h)
  rw [← deleted_outline]
  exact hs.tree.kept_of_isLive hlive

theorem linkWalk (hs : p.outline.Sound) (path : PathRef) :
    p.Adds (p.linkSegments path (p.walkPath path)) :=
  linkSegments path fun _ hnode => kept_of_mem_walkPath hs hnode

theorem linkReference? (hs : p.outline.Sound) {ref : Reference} {node : NodeId}
    (h : p.linkReference? ref = some (q, node)) :
    p.Adds q ∧ (p.tree.node node).deleted = false := by
  have hkept : (p.tree.node node).deleted = false := by
    rw [← deleted_outline]
    exact (hs.of_target? (linkReference?_some h).2).2
  refine ⟨?_, hkept⟩
  cases ref with
  | label ref =>
      obtain ⟨found, -, he⟩ := Option.map_eq_some_iff.mp h
      cases he
      exact linkLabel hkept ref
  | path ref =>
      simp only [Pass.linkReference?, linkPath?] at h
      split at h
      · cases h
        have hnotes := linkWalk hs ref
        exact ⟨{ hnotes.record with }, hnotes.deleted, hnotes.owners⟩
      · cases h

theorem linkValue (hs : p.outline.Sound) (ref : Reference) : p.Adds (p.linkValue ref) := by
  unfold Pass.linkValue
  cases h : p.linkReference? ref with
  | some found => exact (linkReference? hs h).1
  | none =>
      cases ref with
      | label ref => exact of_record rfl
      | path ref => exact of_record rfl

theorem linkValues (hs : p.outline.Sound) (refs : List Reference) :
    p.Adds (refs.foldl Pass.linkValue p) := by
  induction refs generalizing p with
  | nil => exact refl p
  | cons ref refs ih =>
      exact (linkValue hs ref).trans (ih ((outline_linkValue p ref).symm ▸ hs))

/-! ### Labels -/

theorem linkPendingLabels {node : NodeId} (hk : (p.tree.node node).deleted = false)
    (label : String) : p.Adds (p.linkPendingLabels label node) := by
  refine trans (q := { p with pendingLabels := p.pendingLabels.filter (·.label ≠ label) })
    (of_record rfl) ?_
  exact foldl (P := fun q => (q.tree.node node).deleted = false) (fun h hq => h.kept hq)
    (fun ref _ _ hq => linkLabel hq ref) hk

theorem bindLabel {node : NodeId} (hk : (p.tree.node node).deleted = false) (detached : Bool)
    (label : Label) : p.Adds (p.bindLabel node detached label) := by
  let q := p.modifyNode node fun n => { n with labels := n.labels ++ [label] }
  have hcarry : p.Adds q := modifyNode (.addLabel hk label) rfl
  cases detached with
  | true => exact hcarry
  | false =>
      have hbind : q.Adds { q with labels := q.labels.insert label.value node } := of_record rfl
      have hbound := hcarry.trans hbind
      -- The references that waited for the label are noted at the node, which is in force.
      exact hbound.trans (linkPendingLabels (hbound.kept hk) label.value)

theorem bindLabels {node : NodeId} (hk : (p.tree.node node).deleted = false) (detached : Bool)
    (labels : List Label) :
    p.Adds (labels.foldl (fun p label => p.bindLabel node detached label) p) :=
  foldl (P := fun q => (q.tree.node node).deleted = false) (fun h hq => h.kept hq)
    (fun label _ _ hq => bindLabel hq detached label) hk

/-! ### The end of a pass -/

theorem retryPaths (hs : p.outline.Sound) (reportUnresolved : Bool) :
    p.Adds (p.retryPaths reportUnresolved) := by
  have hretry : ∀ (q : Pass) (path : PathRef), q.outline.Sound →
      q.Adds (retryPath reportUnresolved q path) := by
    intro q path hq
    unfold retryPath
    cases h : q.linkPath? path with
    | some found =>
        have href : q.linkReference? (.path path) = some found := h
        exact (linkReference? hq href).1
    | none =>
        cases reportUnresolved with
        | true => exact (linkWalk hq path).trans (report _ _ _ _ _)
        | false => exact linkWalk hq path
  have hfold : ∀ (paths : List PathRef) (q : Pass), q.outline.Sound →
      q.Adds (paths.foldl (retryPath reportUnresolved) q) := by
    intro paths
    induction paths with
    | nil => exact fun q _ => refl q
    | cons path paths ih =>
        intro q hq
        have hnext := (outline_retryPath reportUnresolved q path).symm ▸ hq
        exact (hretry q path hq).trans (ih _ hnext)
  exact trans (q := { p with pendingPaths := [] }) (of_record rfl) (hfold _ _ hs)

theorem reportLabels (p : Pass) (reportUnresolved : Bool) :
    p.Adds (p.reportLabels reportUnresolved) := by
  cases reportUnresolved with
  | false => exact refl p
  | true =>
      refine trans (q := { p with pendingLabels := [] }) (of_record rfl) ?_
      exact foldl (P := fun _ => True) (fun _ _ => trivial)
        (fun ref _ q _ => report q .unresolvedReference ref.span ref.label []) trivial

end Adds

/-- The record goes on, and some statements get owners. -/
structure Advances (p : Pass) (owned : List (AstId × NodeId)) (q : Pass) : Prop where
  record : p.toRecord.Continues q.toRecord
  owners : q.owners = p.owners.insertAll owned

theorem Adds.advances {p q : Pass} (h : p.Adds q) : p.Advances [] q :=
  ⟨h.record, h.owners⟩

namespace Advances

variable {p q r : Pass} {owned owned' : List (AstId × NodeId)}

theorem trans (h : p.Advances owned q) (h' : q.Advances owned' r) :
    p.Advances (owned ++ owned') r where
  record := h.record.trans h'.record
  owners := by rw [h'.owners, h.owners, Table.insertAll, Table.insertAll, Table.insertAll,
    List.foldl_append]

theorem own (p : Pass) (id : AstId) (node : NodeId) : p.Advances [(id, node)] (p.own id node) :=
  ⟨{ Record.Continues.refl p.toRecord with }, rfl⟩

theorem define {node : NodeId} (hk : (p.tree.node node).deleted = false) (head : BlockHead)
    (detached : Bool) : p.Advances [(head.id, node)] (p.define head node detached) := by
  have hblock : p.Adds (p.modifyNode node fun n =>
      { n with definitions := n.definitions ++ [head.ref] }) :=
    .modifyNode (.addDefinition hk head.ref) rfl
  have hlabels := Adds.bindLabels (p := (p.modifyNode node _).own head.id node) (hblock.kept hk)
    detached head.labels
  have hall := (hblock.advances.trans (own _ head.id node)).trans hlabels.advances
  exact ⟨{ hall.record with }, hall.owners⟩

theorem of_tree (p : Pass) {tree : Tree} (h : p.tree.Continues tree)
    (labels : Table String NodeId) : p.Advances [] { p with tree := tree, labels := labels } :=
  ⟨{ Record.Continues.of_tree p.toRecord h with }, rfl⟩

end Advances

/-- The node that a block opens is the one it is about. -/
theorem subject_enter {p q : Pass} {head : BlockHead} {node : NodeId} {detached : Bool}
    (h : p.enter head = q.define head node detached) :
    p.outline.subject (.enter head) = node := by
  rw [Outline.subject, ← outline_enter, h, outline_define]
  rfl

section Enter

variable {p : Pass} {head : BlockHead}

/-- Before it defines its node, a block only adds to the record. -/
theorem Advances.enter_of_define {q : Pass} {node : NodeId} {detached : Bool}
    (hq : p.Advances [] q) (hk : (q.tree.node node).deleted = false)
    (he : p.enter head = q.define head node detached) :
    p.Advances [(head.id, p.outline.subject (.enter head))] (p.enter head) := by
  rw [subject_enter he, he]
  exact hq.trans (.define hk head detached)

variable (hs : p.outline.Sound)
include hs

theorem advances_enter_child {name : NodeName} (htarget : head.target = .child name) :
    p.Advances [(head.id, p.outline.subject (.enter head))] (p.enter head) := by
  have he : p.enter head = (p.childFor p.scope.node name.value).1.define head
      (p.childFor p.scope.node name.value).2 p.scope.detached := by
    rw [enter, htarget]
  rw [childFor] at he
  cases hf : p.tree.findChild? p.scope.node name.value with
  | some child =>
      rw [hf] at he
      refine .enter_of_define (Adds.refl p).advances ?_ he
      rw [p.tree.sameShape_bare.findChild?] at hf
      have hc := (Tree.mem_of_findChild? hf).1
      exact (p.deleted_outline child).symm.trans (hs.tree.mem_children.mp hc).2
  | none =>
      rw [hf] at he
      have hlt := scope_lt_size hs
      refine .enter_of_define (.of_tree p (.addChild hlt name.value) p.labels) ?_ he
      rw [Tree.addChild_deleted hlt, Tree.node_nextId]
      rfl

theorem advances_enter_reference {ref : Reference} (htarget : head.target = .reference ref) :
    p.Advances [(head.id, p.outline.subject (.enter head))] (p.enter head) := by
  cases h : p.linkReference? ref with
  | some found =>
      obtain ⟨q, node⟩ := found
      obtain ⟨hadds, hk⟩ := Adds.linkReference? hs h
      let r : Pass := { q with referenceBlocks := q.referenceBlocks ++ [head.ref] }
      have hlist : q.Advances [] r :=
        ⟨{ Record.Continues.refl q.toRecord with referenceBlocks := prefix_append _ _ }, rfl⟩
      have hnote : r.Adds (r.modifyNode node fun n =>
          { n with referencedBy := n.referencedBy ++ [head.ref] }) :=
        .modifyNode (.addReferencedBy (hadds.kept hk) head.ref) rfl
      exact .enter_of_define ((hadds.advances.trans hlist).trans hnote.advances)
        (hnote.kept (hadds.kept hk)) (enter_of_linked htarget h)
  | none =>
      let q : Pass :=
        { p with unlinkedReferenceBlocks := p.unlinkedReferenceBlocks ++ [head.ref] }
      let r : Pass := q.report .unresolvedReference ref.span ref.subject []
      have hlist : p.Advances [] q :=
        ⟨{ Record.Continues.refl p.toRecord with unlinkedReferenceBlocks := prefix_append _ _ },
          rfl⟩
      have hreport : q.Adds r := .report q .unresolvedReference ref.span ref.subject []
      have hstand := Advances.of_tree r (.addStandIn r.tree) r.labels
      refine .enter_of_define ((hlist.trans hreport.advances).trans hstand) ?_
        (enter_of_unlinked htarget h)
      change (p.tree.addStandIn.node p.tree.nextId).deleted = false
      rw [Tree.node_addStandIn, Tree.node_nextId]
      rfl

theorem advances_enter (head : BlockHead) :
    p.Advances [(head.id, p.outline.subject (.enter head))] (p.enter head) := by
  cases htarget : head.target with
  | root slash =>
      have hlist : p.Advances [] { p with roots := p.roots ++ [head.ref] } :=
        ⟨{ Record.Continues.refl p.toRecord with roots := prefix_append _ _ }, rfl⟩
      have hkept := (p.deleted_outline Tree.root).symm.trans hs.tree.root_kept
      exact .enter_of_define hlist hkept (by rw [enter, htarget])
  | child name => exact advances_enter_child hs htarget
  | reference ref => exact advances_enter_reference hs htarget

end Enter

/-! ### Properties and deletes -/

section Leaf

variable {p q : Pass}

theorem advances_setProperty (hs : p.outline.Sound) (definition : PropertyDef) :
    p.Advances [(definition.id, p.scope.node)] (p.setProperty definition) := by
  let q := p.own definition.id p.scope.node
  have hset : q.Adds (q.modifyNode p.scope.node fun n => n.define definition) :=
    .modifyNode (.define _ definition) rfl
  have hsound : (q.modifyNode p.scope.node fun n => n.define definition).outline.Sound := by
    have hstep := hs.step (.property definition)
    rwa [← outline_step, step, setProperty, outline_linkValues] at hstep
  exact ((Advances.own p definition.id p.scope.node).trans hset.advances).trans
    (Adds.linkValues hsound definition.references).advances

theorem advances_removeNode? (hw : p.tree.WellFormed) {target : NodeId} {deletedBy : AstRef}
    (h : p.removeNode? target deletedBy = some q) : p.Advances [] q := by
  obtain ⟨tree, hdelete, rfl⟩ := Option.map_eq_some_iff.mp h
  exact .of_tree p (.deleteNode? hw hdelete) _

theorem advances_removeGlobal (hw : p.tree.WellFormed) (target : Option NodeId)
    (deletedBy : AstRef) (ref : Reference) :
    p.Advances [] (p.removeGlobal target deletedBy ref) := by
  rw [removeGlobal]
  cases h : target.bind fun node => p.removeNode? node deletedBy with
  | some q =>
      obtain ⟨node, -, hremove⟩ := Option.bind_eq_some_iff.mp h
      have hlist : q.Advances [] { q with globalDeletes := q.globalDeletes ++ [deletedBy] } :=
        ⟨{ Record.Continues.refl q.toRecord with globalDeletes := prefix_append _ _ }, rfl⟩
      exact (advances_removeNode? hw hremove).trans hlist
  | none =>
      have hlist : p.Advances [] { p with unlinkedDeletes := p.unlinkedDeletes ++ [deletedBy] } :=
        ⟨{ Record.Continues.refl p.toRecord with unlinkedDeletes := prefix_append _ _ }, rfl⟩
      exact hlist.trans (Adds.report _ _ _ _ _).advances

/-- Only the outline matters to whether the tree is well-formed. -/
theorem wellFormed_of_outline (hs : p.outline.Sound) : p.tree.WellFormed :=
  Linkage.wellFormed_of_bare hs.tree

theorem advances_deleteNode (hs : p.outline.Sound) (delete : DeleteNode) :
    p.Advances [(delete.id, p.scope.node)] (p.deleteNode delete) := by
  let q := p.own delete.id p.scope.node
  have hown : p.Advances [(delete.id, p.scope.node)] q := .own p delete.id p.scope.node
  have hw : q.tree.WellFormed := wellFormed_of_outline (p := q) hs
  simp only [deleteNode]
  split
  · split
    · rename_i r hremove
      obtain ⟨child, -, hremove⟩ := Option.bind_eq_some_iff.mp hremove
      exact hown.trans (advances_removeNode? hw hremove)
    · exact hown.trans (Adds.report q _ _ _ _).advances
  · split
    · rename_i ref _ _ r target h
      have hlink : q.linkReference? ref = some (r, target) := h
      have hr : r.outline.Sound := (linkReference?_some hlink).1.symm ▸ hs
      exact (hown.trans (Adds.linkReference? (p := q) hs hlink).1.advances).trans
        (advances_removeGlobal (wellFormed_of_outline hr) _ _ _)
    · exact hown.trans (advances_removeGlobal hw _ _ _)

theorem advances_deleteProperty (p : Pass) (delete : DeleteProperty) :
    p.Advances [(delete.id, p.scope.node)] (p.deleteProperty delete) := by
  let q := p.own delete.id p.scope.node
  have hown : p.Advances [(delete.id, p.scope.node)] q := .own p delete.id p.scope.node
  simp only [deleteProperty]
  split
  · rename_i changed h
    have hnode := Node.Continues.undefine h
    exact hown.trans (.of_tree q (.modify hnode) q.labels)
  · exact hown.trans (Adds.report q _ _ _ _).advances

end Leaf

/-! ### Whole runs -/

/-- An action goes on, and the statement it carries out is owned by the node it is about. -/
theorem advances_step {p : Pass} (hs : p.outline.Sound) (a : Action) :
    p.Advances (Journal.owned [(a, p.outline.subject a)]) (p.step a) := by
  cases a with
  | clash name first => exact (Adds.report p _ _ _ _).advances
  | enter head => exact advances_enter hs head
  | leave => exact (Adds.of_record (q := p.leave) rfl).advances
  | property definition => exact advances_setProperty hs definition
  | deleteNode delete => exact advances_deleteNode hs delete
  | deleteProperty delete => exact advances_deleteProperty p delete

theorem advances_run {p : Pass} (hs : p.outline.Sound) (as : List Action) :
    p.Advances (p.outline.journal as).owned (p.run as) := by
  induction as generalizing p with
  | nil => exact (Adds.refl p).advances
  | cons a as ih =>
      have hnext := ih (p := p.step a) (outline_step p a ▸ hs.step a)
      rw [outline_step] at hnext
      rw [Outline.journal, Journal.owned_cons]
      exact (advances_step hs a).trans hnext

end Pass

namespace Linkage

variable (files : List SourceFile)

theorem passAt_add (count more : Nat) :
    passAt files (count + more) =
      (passAt files count).run (((actionsOf files).drop count).take more) := by
  rw [passAt, List.take_add, Pass.run_append]
  rfl

/-- The record goes on from action to action. -/
theorem continues_passAt (count more : Nat) :
    (passAt files count).toRecord.Continues (passAt files (count + more)).toRecord := by
  rw [passAt_add]
  exact (Pass.advances_run (sound_passAt files count) _).record

variable (reportUnresolved : Bool) (generation : Nat)

theorem adds_linked {p : Pass} (hs : p.outline.Sound) :
    p.Adds ((p.retryPaths reportUnresolved).reportLabels reportUnresolved) :=
  (Pass.Adds.retryPaths hs reportUnresolved).trans (.reportLabels _ reportUnresolved)

/-- What an action leaves behind goes on to the end of linking. -/
theorem continues_link (count : Nat) :
    (passAt files count).toRecord.Continues
      (link files reportUnresolved generation).toRecord := by
  have hall : (passAt files count).toRecord.Continues
      (passAt files (count + (actionsOf files).length)).toRecord :=
    continues_passAt files count _
  have hend := (adds_linked reportUnresolved
    (sound_passAt files (count + (actionsOf files).length))).record
  have hrun : passAt files (count + (actionsOf files).length) =
      Pass.start.run (files.flatMap SourceFile.actions) := by
    rw [passAt, List.take_of_length_le (Nat.le_add_left _ _)]
    rfl
  rw [hrun] at hall hend
  have hlinked := hall.trans hend
  exact { hlinked with issues := hlinked.issues.trans (prefix_append _ _) }

/-- Every statement is owned by the node that its action is about. -/
theorem link_owners :
    (link files reportUnresolved generation).owners =
      Table.empty.insertAll (journalOf files).owned := by
  have hstart : Pass.start.outline.Sound := Pass.outline_start ▸ .start
  have hrun := (Pass.advances_run hstart (actionsOf files)).owners
  rw [Pass.outline_start] at hrun
  have hsound : (Pass.start.run (actionsOf files)).outline.Sound :=
    outline_actionsOf files ▸ sound_outlineOf files
  exact (adds_linked reportUnresolved hsound).owners.trans hrun

end Linkage

end Devicetree
