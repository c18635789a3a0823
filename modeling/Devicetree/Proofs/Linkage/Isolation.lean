import Devicetree.Proofs.Linkage.Turns
import Devicetree.Proofs.Overlay.Basic

/-!
# Blocks without a target stand apart

A reference block whose target is not found is still gone through, on a node that stands in for
the target. What its body says goes to this node and to nodes created below it: labels there are
not bound, and a delete by name finds only what the block itself created. So all nodes that were
there before stay as they were, up to notes of the references that values of the block make to
them, and no new node is live.
-/

namespace Devicetree

theorem Statement.isLocal_of_mem {body : List Statement} (h : areLocal body = true)
    {s : Statement} (hs : s ∈ body) : s.isLocal = true := by
  induction body with
  | nil => cases hs
  | cons t body ih =>
      rw [areLocal, Bool.and_eq_true] at h
      rcases List.mem_cons.mp hs with rfl | hs
      · exact h.1
      · exact ih h.2 hs

/-- A node as it was, with other notes of references to it. -/
def Node.SameButNotes (m n : Node) : Prop :=
  n = { m with linkedLabels := n.linkedLabels, linkedPaths := n.linkedPaths }

namespace Node.SameButNotes

variable {m n k : Node}

theorem refl (n : Node) : n.SameButNotes n := rfl

theorem trans (h : m.SameButNotes n) (h' : n.SameButNotes k) : m.SameButNotes k := by
  rw [SameButNotes, h', h]

theorem children (h : m.SameButNotes n) : n.children = m.children := by
  rw [h]

end Node.SameButNotes

namespace Pass

/-- A pass that left alone all that there was before, up to notes of references. -/
structure Spares (base p : Pass) : Prop where
  size_le : base.tree.size ≤ p.tree.size
  node : ∀ id, id.index < base.tree.size → (base.tree.node id).SameButNotes (p.tree.node id)
  labels : p.labels = base.labels
  roots : p.roots = base.roots
  referenceBlocks : p.referenceBlocks = base.referenceBlocks
  unlinkedReferenceBlocks : p.unlinkedReferenceBlocks = base.unlinkedReferenceBlocks
  globalDeletes : p.globalDeletes = base.globalDeletes
  unlinkedDeletes : p.unlinkedDeletes = base.unlinkedDeletes

namespace Spares

variable {base p q : Pass}

theorem refl (p : Pass) : p.Spares p :=
  ⟨Nat.le_refl _, fun _ _ => .refl _, rfl, rfl, rfl, rfl, rfl, rfl⟩

section Step

variable (h : base.Spares p)
include h

/-- What changes new nodes alone, or adds some. -/
theorem of_tree {tree : Tree} (hsize : p.tree.size ≤ tree.size)
    (hnode : ∀ id, id.index < base.tree.size → (p.tree.node id).SameButNotes (tree.node id)) :
    base.Spares { p with tree := tree } :=
  { h with
    size_le := Nat.le_trans h.size_le hsize
    node := fun id hid => (h.node id hid).trans (hnode id hid) }

theorem report (kind : IssueKind) (span : Span) (subject : String) (related : List Span) :
    base.Spares (p.report kind span subject related) :=
  { h with }

theorem own (statement : AstId) (node : NodeId) : base.Spares (p.own statement node) :=
  { h with }

theorem note (id : NodeId) {f : Node → Node} (hf : ∀ n : Node, n.SameButNotes (f n)) :
    base.Spares (p.modifyNode id f) := by
  refine h.of_tree (Nat.le_of_eq (Tree.size_modify ..).symm) fun other _ => ?_
  rw [Tree.node_modify]
  split
  · exact hf _
  · exact .refl _

theorem modifyNew {id : NodeId} (hid : base.tree.size ≤ id.index) (f : Node → Node) :
    base.Spares (p.modifyNode id f) := by
  refine h.of_tree (Nat.le_of_eq (Tree.size_modify ..).symm) fun other hother => ?_
  have hne : id ≠ other := by
    rintro rfl
    exact Nat.not_le.mpr hother hid
  rw [Tree.node_modify_ne f hne]
  exact .refl _

theorem addChild {parent : NodeId} (hparent : base.tree.size ≤ parent.index)
    (hlt : parent.index < p.tree.size) (name : UnitName) :
    base.Spares { p with tree := p.tree.addChild parent name } := by
  refine h.of_tree (by simp) fun id hid => ?_
  have hne : id ≠ parent := by
    rintro rfl
    exact Nat.not_le.mpr hid hparent
  rw [Tree.node_addChild hlt, if_neg (Tree.ne_nextId (Nat.lt_of_lt_of_le hid h.size_le)),
    if_neg hne]
  exact .refl _

theorem addStandIn : base.Spares { p with tree := p.tree.addStandIn } := by
  refine h.of_tree (by simp) fun id _ => ?_
  rw [Tree.node_addStandIn]
  exact .refl _

theorem foldl {α : Type} {f : Pass → α → Pass}
    (hf : ∀ {p : Pass} (x : α), base.Spares p → base.Spares (f p x)) (xs : List α) :
    base.Spares (xs.foldl f p) := by
  induction xs generalizing p with
  | nil => exact h
  | cons x xs ih => exact ih (hf x h)

/-! ### References -/

theorem linkLabel (ref : LabelRef) (node : NodeId) : base.Spares (p.linkLabel ref node) :=
  { h.note node (f := fun n => { n with linkedLabels := n.linkedLabels ++ [⟨ref.id, ref.span⟩] })
      fun _ => rfl with }

theorem linkSegments (path : PathRef) (nodes : List NodeId) :
    base.Spares (p.linkSegments path nodes) := by
  refine h.foldl (fun pair hp => ?_) (path.segments.zip nodes)
  exact hp.note pair.2
    (f := fun n => { n with linkedPaths := n.linkedPaths ++ [⟨path.id, pair.1.span⟩] }) fun _ => rfl

theorem linkReference? {ref : Reference} {node : NodeId}
    (hlink : p.linkReference? ref = some (q, node)) : base.Spares q := by
  cases ref with
  | label ref =>
      obtain ⟨found, -, he⟩ := Option.map_eq_some_iff.mp hlink
      cases he
      exact h.linkLabel ref node
  | path ref =>
      rw [Pass.linkReference?, linkPath?] at hlink
      split at hlink
      · cases hlink
        exact { h.linkSegments ref (p.walkPath ref) with }
      · cases hlink

theorem linkValue (ref : Reference) : base.Spares (p.linkValue ref) := by
  unfold Pass.linkValue
  cases hlink : p.linkReference? ref with
  | some found => exact h.linkReference? hlink
  | none =>
      cases ref with
      | label ref => exact { h with }
      | path ref => exact { h with }

/-! ### Statements about new nodes -/

theorem define {node : NodeId} (hnode : base.tree.size ≤ node.index) (head : BlockHead) :
    base.Spares (p.define head node true) :=
  { foldl ((h.modifyNew hnode _).own head.id node)
      (f := fun p label => p.bindLabel node true label)
      (fun _ hp => hp.modifyNew hnode _) head.labels with }

/-- A delete takes only labels of new nodes out of the table, and these were not bound. -/
theorem removeNode? (hbase : base.outline.Sound) (hw : p.tree.WellFormed) {target : NodeId}
    {deletedBy : AstRef} (hk : (p.tree.node target).deleted = false)
    (hparent : ∀ parent, (p.tree.node target).parent = some parent →
      base.tree.size ≤ parent.index)
    (hremove : p.removeNode? target deletedBy = some q) : base.Spares q := by
  obtain ⟨tree, hu, rfl⟩ := Option.map_eq_some_iff.mp hremove
  obtain ⟨parent, hp, -⟩ := Option.map_eq_some_iff.mp hu
  have hlt := hw.parent_lt hp
  have htarget : base.tree.size ≤ target.index :=
    Nat.le_trans (hparent parent hp) (Nat.le_of_lt hlt)
  have hlabels : p.labels.filterValues (fun node => !(tree.subtree target).contains node) =
      p.labels := by
    refine congrArg Table.mk (List.filter_eq_self.mpr fun e he => ?_)
    rw [Bool.not_eq_true', ← Bool.not_eq_true, List.contains_iff_mem,
      (hw.deleteNode? hk hu).mem_subtree]
    intro hunder
    have hbound : e.2.index < base.tree.size := by
      have hmem : e ∈ base.labels.entries := h.labels ▸ he
      exact base.size_outline ▸ hbase.label_lt e hmem
    exact Nat.not_le.mpr hbound
      (Nat.le_trans htarget (hunder.index_le (hw.deleteNode? hk hu)))
  have htree := h.of_tree (Nat.le_of_eq (Tree.size_of_deleteNode? hu).symm) fun id hid => by
    have hne : ∀ other : NodeId, base.tree.size ≤ other.index → id ≠ other := by
      rintro other hother rfl
      exact Nat.not_le.mpr hid hother
    rw [Tree.node_of_deleteNode? hp hlt hu, if_neg (hne target htarget),
      if_neg (hne parent (hparent parent hp))]
    exact .refl _
  exact { htree with labels := hlabels.trans h.labels }

end Step

end Spares

/-! ### Bodies that stand apart -/

/-- A pass in a body below a node that stands in for a target. -/
structure Apart (base p : Pass) : Prop where
  base_sound : base.outline.Sound
  spares : base.Spares p
  sound : p.outline.Sound
  detached : p.scope.detached = true
  scope_le : base.tree.size ≤ p.scope.node.index

namespace Apart

variable {base p : Pass}

/-- Where the same bodies are open in the end, it is enough that nothing was touched. -/
theorem of_even (h : base.Apart p) {as : List Action} (heven : Action.Even as)
    (hspares : base.Spares (p.run as)) : base.Apart (p.run as) := by
  have hscopes : (p.run as).scopes = p.scopes := by
    have hoff := heven p.outline h.sound
    rwa [← outline_run] at hoff
  have hscope : (p.run as).scope = p.scope := by
    rw [scope, hscopes, scope]
  refine ⟨h.base_sound, hspares, ?_, hscope ▸ h.detached, hscope ▸ h.scope_le⟩
  rw [outline_run]
  exact h.sound.run as

/-- Actions that do not open or close a body. -/
theorem run_of_forall (h : base.Apart p) {as : List Action} (heven : ∀ a ∈ as, Action.Even [a])
    (hstep : ∀ a ∈ as, ∀ {p : Pass}, base.Apart p → base.Spares (p.step a)) :
    base.Apart (p.run as) := by
  induction as generalizing p with
  | nil => exact h
  | cons a as ih =>
      have hfirst : base.Apart (p.step a) :=
        h.of_even (heven a List.mem_cons_self) (hstep a List.mem_cons_self h)
      exact ih hfirst (fun b hb => heven b (List.mem_cons_of_mem _ hb))
        fun b hb => hstep b (List.mem_cons_of_mem _ hb)

theorem clashes (h : base.Apart p) (body : List Statement) :
    base.Apart (p.run (Statement.clashes body)) := by
  refine h.run_of_forall (fun a ha => ?_) fun a ha p hp => ?_
  · obtain ⟨name, first, rfl⟩ := Statement.exists_of_mem_clashesFrom ha
    exact .single rfl nofun
  · obtain ⟨name, first, rfl⟩ := Statement.exists_of_mem_clashesFrom ha
    exact hp.spares.report _ _ _ _

theorem enter (h : base.Apart p) {head : BlockHead} {name : NodeName}
    (htarget : head.target = .child name) : base.Apart (p.enter head) := by
  have hw := wellFormed_of_outline h.sound
  have hsound : (p.enter head).outline.Sound := by
    rw [outline_enter]
    exact h.sound.enter head
  rw [Pass.enter, htarget] at hsound ⊢
  simp only [childFor, h.detached] at hsound ⊢
  cases hfind : p.tree.findChild? p.scope.node name.value with
  | some child =>
      rw [hfind] at hsound
      have hchild : base.tree.size ≤ child.index := Nat.le_trans h.scope_le
        (Nat.le_of_lt (hw.lt_of_mem_children (Tree.mem_of_findChild? hfind).1))
      exact ⟨h.base_sound, h.spares.define hchild head, hsound, rfl, hchild⟩
  | none =>
      rw [hfind] at hsound
      have hadd := h.spares.addChild h.scope_le (scope_lt_size h.sound) name.value
      exact ⟨h.base_sound, hadd.define h.spares.size_le head, hsound, rfl, h.spares.size_le⟩

/-- A delete by name in such a body. -/
theorem deleteNode (h : base.Apart p) {delete : DeleteNode} {name : NodeName}
    (htarget : delete.target = .name name) : base.Spares (p.deleteNode delete) := by
  have hw := wellFormed_of_outline h.sound
  have hown := h.spares.own delete.id p.scope.node
  rw [Pass.deleteNode, htarget]
  dsimp only
  cases hfind : (p.own delete.id p.scope.node).tree.findChild? p.scope.node name.value with
  | none => exact hown.report _ _ _ _
  | some child =>
      obtain ⟨hparent, hk⟩ := hw.mem_children.mp (Tree.mem_of_findChild? hfind).1
      dsimp only [Option.bind_some]
      cases hremove : (p.own delete.id p.scope.node).removeNode? child delete.ref with
      | none => exact hown.report _ _ _ _
      | some q =>
          refine hown.removeNode? h.base_sound hw hk (fun parent hp => ?_) hremove
          obtain rfl : p.scope.node = parent := Option.some.inj (hparent.symm.trans hp)
          exact h.scope_le

/-- A statement that is no block, in such a body. -/
theorem step_leaf (h : base.Apart p) {s : Statement} {a : Action} (hlocal : s.isLocal = true)
    (ha : s.leafAction? = some a) : base.Spares (p.step a) := by
  cases s with
  | block head body => cases ha
  | property definition =>
      cases ha
      exact ((h.spares.own definition.id p.scope.node).modifyNew h.scope_le _).foldl
        (fun ref hp => hp.linkValue ref) definition.references
  | deleteNode delete =>
      cases ha
      cases htarget : delete.target with
      | name name => exact h.deleteNode htarget
      | reference ref =>
          rw [Statement.isLocal, htarget] at hlocal
          cases hlocal
  | deleteProperty delete =>
      cases ha
      have hown := h.spares.own delete.id p.scope.node
      rw [step, Pass.deleteProperty]
      split
      · exact hown.modifyNew h.scope_le _
      · exact hown.report _ _ _ _

theorem leaves (h : base.Apart p) {body : List Statement}
    (hbody : Statement.areLocal body = true) :
    base.Apart (p.run (body.filterMap Statement.leafAction?)) := by
  refine h.run_of_forall (fun a ha => ?_) fun a ha p hp => ?_
  · obtain ⟨s, -, hs⟩ := List.mem_filterMap.mp ha
    exact Statement.even_leaf hs
  · obtain ⟨s, hmem, hs⟩ := List.mem_filterMap.mp ha
    exact hp.step_leaf (Statement.isLocal_of_mem hbody hmem) hs

mutual

theorem block : ∀ {s : Statement} {p : Pass}, s.isLocal = true → s.isBlock = true →
    base.Apart p → base.Apart (p.run s.actions)
  | .block head body, p, hlocal, _, h => by
      rw [Statement.isLocal, Bool.and_eq_true] at hlocal
      have heven := Statement.even_actions (.block head body)
      cases htarget : head.target with
      | root slash => simp [htarget] at hlocal
      | reference ref => simp [htarget] at hlocal
      | child name =>
          have hbody := (blocks hlocal.2 ((h.enter htarget).clashes body)).leaves hlocal.2
          rw [← run_append, ← run_append, ← List.append_assoc] at hbody
          refine h.of_even heven ?_
          rw [Statement.actions, List.cons_append, List.cons_append, List.cons_append, run_cons,
            run_append]
          exact { hbody.spares with }

theorem blocks : ∀ {body : List Statement} {p : Pass}, Statement.areLocal body = true →
    base.Apart p → base.Apart (p.run (Statement.blockActions body))
  | [], _, _, h => h
  | s :: body, p, hlocal, h => by
      rw [Statement.areLocal, Bool.and_eq_true] at hlocal
      rw [Statement.blockActions]
      split
      · rename_i hblock
        rw [run_append]
        exact blocks hlocal.2 (block hlocal.1 hblock h)
      · exact blocks hlocal.2 h

end

end Apart

/-- A block whose target is not found adds itself to the blocks without a target, and touches
nothing else. -/
theorem spares_block {p : Pass} (hs : p.outline.Sound) {head : BlockHead} {body : List Statement}
    {ref : Reference} (htarget : head.target = .reference ref)
    (hnone : p.linkReference? ref = none) (hbody : Statement.areLocal body = true) :
    Spares { p with unlinkedReferenceBlocks := p.unlinkedReferenceBlocks ++ [head.ref] }
      (p.run (Statement.block head body).actions) := by
  let base : Pass :=
    { p with unlinkedReferenceBlocks := p.unlinkedReferenceBlocks ++ [head.ref] }
  have hsound : (p.enter head).outline.Sound := by
    rw [outline_enter]
    exact hs.enter head
  have henter : base.Apart (p.enter head) := by
    rw [enter_of_unlinked htarget hnone] at hsound ⊢
    refine ⟨hs, ?_, hsound, rfl, Nat.le_refl _⟩
    exact ((Spares.refl base).report _ _ _ _).addStandIn.define (Nat.le_refl _) head
  have hinside := (Apart.blocks hbody (henter.clashes body)).leaves hbody
  rw [← run_append, ← run_append, ← List.append_assoc] at hinside
  rw [Statement.actions, List.cons_append, List.cons_append, List.cons_append, run_cons,
    run_append]
  exact { hinside.spares with }

end Pass

namespace Tree

variable {t u : Tree} (ht : t.WellFormed)
  (hchildren : ∀ id, id.index < t.size → (u.node id).children = (t.node id).children)
include ht hchildren

/-- From a node that was there only nodes that were there are reached. -/
theorem lt_size_of_under {top id : NodeId} (h : u.Under top id) (htop : top.index < t.size) :
    id.index < t.size := by
  induction h with
  | refl => exact htop
  | child _ hc ih =>
      rw [hchildren _ ih] at hc
      exact ht.lt_size_of_mem_children hc

theorem subtree_eq_of_children (hu : u.WellFormed) {id : NodeId} (hid : id.index < t.size) :
    u.subtree id = t.subtree id := by
  induction id using ht.down_induction with
  | step id ih =>
      rw [hu.subtree_eq, ht.subtree_eq, hchildren id hid]
      refine congrArg (id :: ·) (List.flatMap_congr fun child hc => ?_)
      exact ih child hc (ht.lt_size_of_mem_children hc)

end Tree

namespace Linkage

/-- At any time in a pass, a reference block whose target is not found and whose body speaks of its
own node and of nodes below it leaves labels and live nodes as they are, creates no live node, and
is recorded as a block without a target. Nodes that were there before only get notes of
references. -/
theorem untargeted_block_stands_apart (files : List SourceFile) (count : Nat) {head : BlockHead}
    {body : List Statement} {ref : Reference} (htarget : head.target = .reference ref)
    (hnone : (passAt files count).linkReference? ref = none)
    (hbody : Statement.areLocal body = true) :
    let p := passAt files count
    let q := p.run (Statement.block head body).actions
    q.labels = p.labels ∧ q.tree.liveNodes = p.tree.liveNodes ∧
    (∀ id, id.index < p.tree.size → q.tree.node id =
      { p.tree.node id with
        linkedLabels := (q.tree.node id).linkedLabels
        linkedPaths := (q.tree.node id).linkedPaths }) ∧
    (∀ id, p.tree.size ≤ id.index → q.tree.isLive id = false) ∧
    q.roots = p.roots ∧ q.referenceBlocks = p.referenceBlocks ∧
    q.globalDeletes = p.globalDeletes ∧ q.unlinkedDeletes = p.unlinkedDeletes ∧
    q.unlinkedReferenceBlocks = p.unlinkedReferenceBlocks ++ [head.ref] := by
  intro p q
  have hs : p.outline.Sound := sound_passAt files count
  have hspares := Pass.spares_block hs htarget hnone hbody
  have hp : p.tree.WellFormed := Pass.wellFormed_of_outline hs
  have hq : q.tree.WellFormed := by
    apply Pass.wellFormed_of_outline
    rw [Pass.outline_run]
    exact hs.run _
  have hchildren : ∀ id, id.index < p.tree.size →
      (q.tree.node id).children = (p.tree.node id).children :=
    fun id hid => (hspares.node id hid).children
  refine ⟨hspares.labels, ?_, hspares.node, fun id hid => ?_, hspares.roots,
    hspares.referenceBlocks, hspares.globalDeletes, hspares.unlinkedDeletes,
    hspares.unlinkedReferenceBlocks⟩
  · exact Tree.subtree_eq_of_children hp hchildren hq hp.size_pos
  · rw [← Bool.not_eq_true, hq.isLive_iff_under]
    intro hunder
    exact Nat.not_le.mpr (Tree.lt_size_of_under hp hchildren hunder hp.size_pos) hid

/-- A labelled node, and a block without a target that refers to it and labels, fills and deletes
nodes of its own, read from `/{a:b{};};&c{d:e{f:g{x=<&a>;};};a:h{};/delete-node/h;y;};`. -/
def strayFile : SourceFile :=
  .read ⟨0⟩ ("/\x7ba:b\x7b\x7d;\x7d;&c\x7bd:e\x7bf:g\x7bx=<&a>;\x7d;\x7d;a:h\x7b\x7d;" ++
    "/delete-node/h;y;\x7d;").toList

/-- After the four actions of the root block only its label is bound, and after all actions too. -/
theorem strayFile_stands_apart :
    ∃ head body, .block head body ∈ strayFile.statements ∧ Statement.areLocal body = true ∧
      let q := (passAt [strayFile] 4).run (Statement.block head body).actions
      q.labels.entries = [("a", ⟨1⟩)] ∧ q.tree.liveNodes = [⟨0⟩, ⟨1⟩] ∧
        q.unlinkedReferenceBlocks = [head.ref] := by
  have hblock : ∃ b ∈ strayFile.statements, ∃ ref ∈ b.references, b.isBlock = true ∧
      b.isLayered = true ∧
      ((passAt [strayFile] 4).linkReference? ref).isNone = true := by
    decide +kernel
  obtain ⟨b, hmem, ref, href, hb, hbody, hnone⟩ := hblock
  cases b with
  | block head body =>
      rw [Statement.references] at href
      cases htarget : head.target with
      | reference other =>
          rw [htarget, List.mem_singleton] at href
          subst href
          obtain ⟨hlabels, hlive, -, -, -, -, -, -, hblocks⟩ :=
            untargeted_block_stands_apart [strayFile] 4 htarget (Option.isNone_iff_eq_none.mp hnone)
              hbody
          refine ⟨head, body, hmem, hbody, ?_, ?_, ?_⟩
          · rw [hlabels]
            decide +kernel
          · rw [hlive]
            decide +kernel
          · have hnone : (passAt [strayFile] 4).unlinkedReferenceBlocks = [] := by decide +kernel
            rw [hblocks, hnone, List.nil_append]
      | root slash =>
          rw [htarget] at href
          cases href
      | child name =>
          rw [htarget] at href
          cases href
  | _ => cases hb

end Linkage

end Devicetree
