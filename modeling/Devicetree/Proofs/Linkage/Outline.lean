import Devicetree.Linkage.Basic
import Devicetree.Proofs.Tree.Ancestry

/-!
# The outline of a pass

What a pass does to its tree, its labels and its open bodies does not depend on the references
it notes at nodes, nor on owners, links, issues and pending references. An outline leaves all
these out. Each action has a step on outlines that says what it does in a few lines, and the
main result is that linking follows these steps.
-/

namespace Devicetree

/-- A node without the references noted at it. -/
def Node.bare (n : Node) : Node :=
  { n with referencedBy := [], linkedLabels := [], linkedPaths := [] }

/-- A node after a block about it was opened. -/
def Node.opened (n : Node) (head : BlockHead) : Node :=
  { n with definitions := n.definitions ++ [head.ref], labels := n.labels ++ head.labels }

namespace Node

theorem sameShape_bare (n : Node) : n.SameShape n.bare := ⟨rfl, rfl, rfl, rfl, rfl⟩

theorem sameShape_opened (n : Node) (head : BlockHead) : n.SameShape (n.opened head) :=
  ⟨rfl, rfl, rfl, rfl, rfl⟩

theorem sameShape_define (n : Node) (definition : PropertyDef) :
    n.SameShape (n.define definition) :=
  ⟨rfl, rfl, rfl, rfl, rfl⟩

theorem sameShape_undefine (n : Node) (name : String) (deletedBy : AstRef) :
    n.SameShape ((n.undefine? name deletedBy).getD n) := by
  unfold undefine?
  cases n.property? name with
  | none => exact .refl n
  | some p => exact ⟨rfl, rfl, rfl, rfl, rfl⟩

end Node

namespace Tree

/-- A tree without the references noted at its nodes. -/
def bare (t : Tree) : Tree :=
  ⟨t.nodes.map Node.bare⟩

@[simp] theorem size_bare (t : Tree) : t.bare.size = t.size := by
  simp [bare, size]

@[simp] theorem node_bare (t : Tree) (id : NodeId) : t.bare.node id = (t.node id).bare := by
  simp only [node, bare, Array.getElem?_map]
  cases t.nodes[id.index]? <;> rfl

theorem sameShape_bare (t : Tree) : t.SameShape t.bare where
  size := (size_bare t).symm
  node := fun id => by
    rw [node_bare]
    exact (t.node id).sameShape_bare

theorem bare_modify (t : Tree) (id : NodeId) {f g : Node → Node}
    (h : ∀ n, (f n).bare = g n.bare) : (t.modify id f).bare = t.bare.modify id g := by
  apply ext_node
  · simp
  · intro other
    simp only [node_bare, node_modify, size_bare]
    split
    · exact h _
    · rfl

/-- Noting a reference leaves the bare tree as it is. -/
theorem bare_modify_note (t : Tree) (id : NodeId) {f : Node → Node}
    (h : ∀ n, (f n).bare = n.bare) : (t.modify id f).bare = t.bare := by
  apply ext_node
  · simp
  · intro other
    simp only [node_bare, node_modify]
    split
    · exact h _
    · rfl

theorem modify_modify (t : Tree) (id : NodeId) (f g : Node → Node) :
    (t.modify id f).modify id g = t.modify id fun n => g (f n) := by
  apply ext_node
  · simp
  · intro other
    simp only [node_modify, size_modify]
    split <;> rfl

theorem bare_addChild (t : Tree) (parent : NodeId) (name : UnitName) :
    (t.addChild parent name).bare = t.bare.addChild parent name := by
  unfold addChild
  rw [bare_modify (g := fun n => { n with children := n.children ++ [t.nextId] }) _ _ fun _ => rfl]
  simp [bare, nextId, size, Node.blank, Node.bare]

theorem bare_addStandIn (t : Tree) : t.addStandIn.bare = t.bare.addStandIn := by
  simp [bare, addStandIn, Node.blank, Node.bare]

theorem bare_deleteNode? (t : Tree) (target : NodeId) (deletedBy : AstRef) :
    t.bare.deleteNode? target deletedBy = (t.deleteNode? target deletedBy).map bare := by
  simp only [deleteNode?, node_bare, Option.map_map]
  show Option.map _ (t.node target).parent = Option.map _ (t.node target).parent
  congr 1
  funext parent
  rw [Function.comp_apply,
    bare_modify (g := fun n => { n with deleted := true }) _ _ fun _ => rfl,
    bare_modify (g := fun n =>
      { n with
        children := n.children.filter (· ≠ target)
        deletedNodes := n.deletedNodes ++ [⟨target, deletedBy⟩] }) _ _ fun _ => rfl]

end Tree

/-- The tree of a pass, its labels and its open bodies. -/
structure Outline where
  tree : Tree
  labels : Table String NodeId
  scopes : List Scope

namespace Outline

def start : Outline := ⟨.start, .empty, []⟩

def scope (o : Outline) : Scope :=
  match o.scopes with
  | [] => ⟨Tree.root, false⟩
  | scope :: _ => scope

/-- The node that a reference names now. -/
def target? (o : Outline) : Reference → Option NodeId
  | .label ref => o.labels.get? ref.label
  | .path ref =>
    let nodes := o.tree.descend Tree.root (ref.segments.map (·.value))
    if nodes.length = ref.segments.length then some (nodes.getLast?.getD Tree.root) else none

/-- Binds labels to a node. -/
def bind (labels : Table String NodeId) (node : NodeId) (bound : List Label) :
    Table String NodeId :=
  bound.foldl (fun table label => table.insert label.value node) labels

/-- Opens a block about a node. In a detached body its labels are not bound. -/
def define (o : Outline) (head : BlockHead) (node : NodeId) (detached : Bool) : Outline where
  tree := o.tree.modify node (·.opened head)
  labels := if detached then o.labels else bind o.labels node head.labels
  scopes := ⟨node, detached⟩ :: o.scopes

def enter (o : Outline) (head : BlockHead) : Outline :=
  match head.target with
  | .root _ => o.define head Tree.root false
  | .child name =>
    match o.tree.findChild? o.scope.node name.value with
    | some child => o.define head child o.scope.detached
    | none =>
      { o with tree := o.tree.addChild o.scope.node name.value }.define head o.tree.nextId
        o.scope.detached
  | .reference ref =>
    match o.target? ref with
    | some node => o.define head node false
    | none => { o with tree := o.tree.addStandIn }.define head o.tree.nextId true

/-- Deletes a node, if it has a parent, and unbinds every label in its subtree. -/
def remove (o : Outline) (target : NodeId) (deletedBy : AstRef) : Outline :=
  match o.tree.deleteNode? target deletedBy with
  | some tree =>
    { o with
      tree := tree
      labels := o.labels.filterValues fun node => !(tree.subtree target).contains node }
  | none => o

theorem scopes_remove (o : Outline) (target : NodeId) (deletedBy : AstRef) :
    (o.remove target deletedBy).scopes = o.scopes := by
  unfold remove
  split <;> rfl

/-- The node that a delete names now. -/
def doomed? (o : Outline) : DeleteTarget → Option NodeId
  | .name name => o.tree.findChild? o.scope.node name.value
  | .reference ref => o.target? ref

def deleteNode (o : Outline) (delete : DeleteNode) : Outline :=
  match o.doomed? delete.target with
  | some target => o.remove target delete.ref
  | none => o

def setProperty (o : Outline) (definition : PropertyDef) : Outline :=
  { o with tree := o.tree.modify o.scope.node (·.define definition) }

def deleteProperty (o : Outline) (delete : DeleteProperty) : Outline :=
  { o with
    tree := o.tree.modify o.scope.node fun n =>
      (n.undefine? delete.name.value delete.ref).getD n }

def step (o : Outline) : Action → Outline
  | .clash _ _ => o
  | .enter head => o.enter head
  | .leave => { o with scopes := o.scopes.tail }
  | .property definition => o.setProperty definition
  | .deleteNode delete => o.deleteNode delete
  | .deleteProperty delete => o.deleteProperty delete

def run (o : Outline) (actions : List Action) : Outline :=
  actions.foldl step o

theorem run_append (o : Outline) (as bs : List Action) :
    o.run (as ++ bs) = (o.run as).run bs :=
  List.foldl_append

@[simp] theorem run_nil (o : Outline) : o.run [] = o := rfl

@[simp] theorem run_cons (o : Outline) (a : Action) (as : List Action) :
    o.run (a :: as) = (o.step a).run as := rfl

end Outline

namespace Pass

/-- The part of a pass that its outline keeps. -/
def outline (p : Pass) : Outline :=
  ⟨p.tree.bare, p.labels, p.scopes⟩

theorem outline_start : start.outline = .start := by
  simp [outline, start, Outline.start, Tree.bare, Tree.start, Node.blank, Node.bare]

theorem outline_scope (p : Pass) : p.outline.scope = p.scope := rfl

/-! ### References -/

/-- Noting a reference at a node leaves the outline as it is. -/
theorem outline_note (p : Pass) (id : NodeId) {f : Node → Node} (h : ∀ n, (f n).bare = n.bare) :
    (p.modifyNode id f).outline = p.outline := by
  simp only [outline, modifyNode, Tree.bare_modify_note p.tree id h]

theorem outline_linkLabel (p : Pass) (ref : LabelRef) (node : NodeId) :
    (p.linkLabel ref node).outline = p.outline :=
  outline_note p node fun _ => rfl

theorem outline_linkSegments (p : Pass) (path : PathRef) (nodes : List NodeId) :
    (p.linkSegments path nodes).outline = p.outline := by
  unfold linkSegments
  generalize path.segments.zip nodes = pairs
  induction pairs generalizing p with
  | nil => rfl
  | cons pair pairs ih =>
      rw [List.foldl_cons, ih]
      exact outline_note p pair.2 fun _ => rfl

theorem walkPath_eq (p : Pass) (path : PathRef) :
    p.walkPath path = p.outline.tree.descend Tree.root (path.segments.map (·.value)) :=
  p.tree.sameShape_bare.descend _ _

/-- A reference finds the target that the outline gives it, and only notes are left behind. -/
theorem linkReference?_eq (p : Pass) (ref : Reference) :
    (p.linkReference? ref).map (fun found => (found.1.outline, found.2)) =
      (p.outline.target? ref).map fun node => (p.outline, node) := by
  cases ref with
  | label ref =>
      simp only [linkReference?, Option.map_map, Outline.target?]
      congr 1
      funext node
      exact congrArg (·, node) (outline_linkLabel p ref node)
  | path ref =>
      simp only [linkReference?, linkPath?, Outline.target?, ← walkPath_eq]
      split
      · exact congrArg (fun o => some (o, _)) (outline_linkSegments p ref _)
      · rfl

theorem linkReference?_some {p q : Pass} {ref : Reference} {node : NodeId}
    (h : p.linkReference? ref = some (q, node)) :
    q.outline = p.outline ∧ p.outline.target? ref = some node := by
  have heq := linkReference?_eq p ref
  rw [h] at heq
  obtain ⟨found, hf, he⟩ := Option.map_eq_some_iff.mp heq.symm
  obtain ⟨ho, rfl⟩ := Prod.mk.inj he
  exact ⟨ho.symm, hf⟩

theorem linkReference?_none {p : Pass} {ref : Reference} (h : p.linkReference? ref = none) :
    p.outline.target? ref = none := by
  have heq := linkReference?_eq p ref
  rw [h] at heq
  exact Option.map_eq_none_iff.mp heq.symm

theorem outline_linkValue (p : Pass) (ref : Reference) : (p.linkValue ref).outline = p.outline := by
  unfold linkValue
  cases h : p.linkReference? ref with
  | some found => exact (linkReference?_some h).1
  | none => cases ref <;> rfl

theorem outline_linkValues (p : Pass) (refs : List Reference) :
    (refs.foldl linkValue p).outline = p.outline := by
  induction refs generalizing p with
  | nil => rfl
  | cons ref refs ih => rw [List.foldl_cons, ih, outline_linkValue]

theorem outline_linkPendingLabels (p : Pass) (label : String) (node : NodeId) :
    (p.linkPendingLabels label node).outline = p.outline := by
  have hfold : ∀ (waiting : List LabelRef) (q : Pass),
      (waiting.foldl (fun p ref => p.linkLabel ref node) q).outline = q.outline := by
    intro waiting
    induction waiting with
    | nil => exact fun _ => rfl
    | cons ref waiting ih =>
        intro q
        rw [List.foldl_cons, ih, outline_linkLabel]
  exact hfold _ _

/-! ### Blocks -/

theorem outline_bindLabel (p : Pass) (node : NodeId) (detached : Bool) (label : Label) :
    (p.bindLabel node detached label).outline =
      { p.outline with
        tree := p.outline.tree.modify node fun n => { n with labels := n.labels ++ [label] }
        labels := if detached then p.labels else p.labels.insert label.value node } := by
  have hm : (p.tree.modify node fun n => { n with labels := n.labels ++ [label] }).bare =
      p.tree.bare.modify node fun n => { n with labels := n.labels ++ [label] } :=
    Tree.bare_modify p.tree node fun _ => rfl
  unfold bindLabel
  cases detached with
  | true => simp only [if_true, outline, modifyNode, hm]
  | false =>
      rw [if_neg Bool.false_ne_true, outline_linkPendingLabels]
      simp only [outline, modifyNode, hm, if_neg Bool.false_ne_true]

theorem outline_bindLabels (p : Pass) (node : NodeId) (detached : Bool) (bound : List Label) :
    (bound.foldl (fun p label => p.bindLabel node detached label) p).outline =
      { p.outline with
        tree := p.outline.tree.modify node fun n => { n with labels := n.labels ++ bound }
        labels := if detached then p.labels else Outline.bind p.labels node bound } := by
  induction bound generalizing p with
  | nil =>
      have hm : p.outline.tree.modify node (fun n => { n with labels := n.labels ++ [] }) =
          p.outline.tree := by
        apply Tree.ext_node
        · simp
        · intro other
          simp [Tree.node_modify]
      rw [hm]
      cases detached <;> rfl
  | cons label bound ih =>
      rw [List.foldl_cons, ih]
      have hl : (p.bindLabel node detached label).labels =
          if detached then p.labels else p.labels.insert label.value node :=
        congrArg Outline.labels (outline_bindLabel p node detached label)
      rw [hl, outline_bindLabel]
      simp only [Tree.modify_modify, List.append_assoc, List.singleton_append]
      cases detached <;> rfl

theorem outline_define (p : Pass) (head : BlockHead) (node : NodeId) (detached : Bool) :
    (p.define head node detached).outline = p.outline.define head node detached := by
  let q := (p.modifyNode node fun n =>
    { n with definitions := n.definitions ++ [head.ref] }).own head.id node
  have hq : q.outline.tree = p.outline.tree.modify node fun n =>
      { n with definitions := n.definitions ++ [head.ref] } :=
    Tree.bare_modify p.tree node fun _ => rfl
  have hbind := outline_bindLabels q node detached head.labels
  rw [hq, Tree.modify_modify] at hbind
  exact congrArg (fun o : Outline => { o with scopes := ⟨node, detached⟩ :: o.scopes }) hbind

section EnterReference

variable {p : Pass} {head : BlockHead} {ref : Reference} (htarget : head.target = .reference ref)
include htarget

/-- A block whose reference finds a node defines that node. -/
theorem enter_of_linked {q : Pass} {node : NodeId} (h : p.linkReference? ref = some (q, node)) :
    p.enter head =
      ({ q with referenceBlocks := q.referenceBlocks ++ [head.ref] }.modifyNode node fun n =>
        { n with referencedBy := n.referencedBy ++ [head.ref] }).define head node false := by
  simp only [enter, htarget, h]

/-- A block whose reference finds none defines a node that stands in for it. -/
theorem enter_of_unlinked (h : p.linkReference? ref = none) :
    p.enter head =
      { { p with
            unlinkedReferenceBlocks := p.unlinkedReferenceBlocks ++ [head.ref] }.report
          .unresolvedReference ref.span ref.subject [] with
        tree := p.tree.addStandIn }.define head p.tree.nextId true := by
  simp only [enter, htarget, h]
  rfl

end EnterReference

theorem outline_enter (p : Pass) (head : BlockHead) :
    (p.enter head).outline = p.outline.enter head := by
  cases ht : head.target with
  | root slash =>
      simp only [enter, Outline.enter, ht, outline_define]
      rfl
  | child name =>
      have hf : p.tree.findChild? p.scope.node name.value =
          p.outline.tree.findChild? p.scope.node name.value :=
        p.tree.sameShape_bare.findChild? p.scope.node name.value
      simp only [enter, Outline.enter, ht, outline_define, outline_scope, childFor, ← hf]
      cases p.tree.findChild? p.scope.node name.value with
      | some child => rfl
      | none => simp [outline, Tree.bare_addChild, Tree.nextId]
  | reference ref =>
      simp only [enter, Outline.enter, ht]
      cases h : p.linkReference? ref with
      | some found =>
          obtain ⟨q, node⟩ := found
          obtain ⟨hq, htarget⟩ := linkReference?_some h
          rw [htarget]
          simp only [outline_define]
          apply congrArg (Outline.define · head node false)
          refine Eq.trans (outline_note _ _ ?_) hq
          exact fun _ => rfl
      | none =>
          rw [linkReference?_none h]
          simp only [outline_define]
          simp only [outline, report, Tree.bare_addStandIn, Tree.nextId, Tree.size_bare]

/-! ### Properties and deletes -/

theorem outline_setProperty (p : Pass) (definition : PropertyDef) :
    (p.setProperty definition).outline = p.outline.setProperty definition := by
  simp only [setProperty, outline_linkValues]
  exact congrArg (Outline.mk · p.labels p.scopes) (Tree.bare_modify p.tree _ fun _ => rfl)

theorem outline_removeNode? (p : Pass) (target : NodeId) (deletedBy : AstRef) :
    ((p.removeNode? target deletedBy).map outline).getD p.outline =
      p.outline.remove target deletedBy := by
  have hbare : p.outline.tree.deleteNode? target deletedBy =
      (p.tree.deleteNode? target deletedBy).map Tree.bare :=
    p.tree.bare_deleteNode? target deletedBy
  rw [removeNode?, Outline.remove, hbare]
  cases p.tree.deleteNode? target deletedBy with
  | none => rfl
  | some tree =>
      simp only [Option.map_some, Option.getD_some, outline, ← tree.sameShape_bare.subtree]

theorem outline_removeGlobal (p : Pass) (target : Option NodeId) (deletedBy : AstRef)
    (ref : Reference) :
    (p.removeGlobal target deletedBy ref).outline =
      match target with
      | some node => p.outline.remove node deletedBy
      | none => p.outline := by
  unfold removeGlobal
  cases target with
  | none => rfl
  | some node =>
      simp only [Option.bind_some, ← outline_removeNode?]
      cases p.removeNode? node deletedBy <;> rfl

theorem outline_deleteNode (p : Pass) (delete : DeleteNode) :
    (p.deleteNode delete).outline = p.outline.deleteNode delete := by
  unfold deleteNode Outline.deleteNode
  split
  · rename_i name htarget
    rw [htarget]
    have hown : (p.own delete.id p.scope.node).outline = p.outline := rfl
    have hfind : (p.own delete.id p.scope.node).tree.findChild? p.scope.node name.value =
        p.outline.doomed? (.name name) := p.tree.sameShape_bare.findChild? p.scope.node name.value
    dsimp only
    rw [hfind]
    cases p.outline.doomed? (.name name) with
    | none => rfl
    | some child =>
        simp only [Option.bind_some]
        rw [← hown, ← outline_removeNode?]
        cases (p.own delete.id p.scope.node).removeNode? child delete.ref <;> rfl
  · rename_i ref htarget
    rw [htarget]
    have hown : (p.own delete.id p.scope.node).outline = p.outline := rfl
    simp only [Outline.doomed?, ← hown]
    cases h : (p.own delete.id p.scope.node).linkReference? ref with
    | some found =>
        obtain ⟨q, node⟩ := found
        obtain ⟨hq, ht⟩ := linkReference?_some h
        simp only [outline_removeGlobal, ht, hq]
    | none => simp only [outline_removeGlobal, linkReference?_none h]

theorem outline_deleteProperty (p : Pass) (delete : DeleteProperty) :
    (p.deleteProperty delete).outline = p.outline.deleteProperty delete := by
  have hcomm : ∀ n : Node, n.bare.undefine? delete.name.value delete.ref =
      (n.undefine? delete.name.value delete.ref).map Node.bare := by
    intro n
    simp only [Node.undefine?, Option.map_map]
    rfl
  have hown : (p.own delete.id p.scope.node).tree = p.tree := rfl
  simp only [deleteProperty, hown]
  cases hu : (p.tree.node p.scope.node).undefine? delete.name.value delete.ref with
  | some changed =>
      apply congrArg (Outline.mk · p.labels p.scopes)
      change (p.tree.modify p.scope.node fun _ => changed).bare = p.tree.bare.modify p.scope.node _
      apply Tree.ext_node
      · simp
      · intro other
        simp only [Tree.node_bare, Tree.node_modify, Tree.size_bare]
        split
        · rename_i h
          rw [← h.1, hcomm, hu]
          rfl
        · rfl
  | none =>
      apply congrArg (Outline.mk · p.labels p.scopes)
      change p.tree.bare = p.tree.bare.modify p.scope.node _
      apply Tree.ext_node
      · simp
      · intro other
        simp only [Tree.node_bare, Tree.node_modify]
        split
        · rename_i h
          rw [← h.1, hcomm, hu]
          rfl
        · rfl

/-- One action of a pass is one step of its outline. -/
theorem outline_step (p : Pass) (a : Action) : (p.step a).outline = p.outline.step a := by
  cases a with
  | clash name first => rfl
  | enter head => exact outline_enter p head
  | leave => rfl
  | property definition => exact outline_setProperty p definition
  | deleteNode delete => exact outline_deleteNode p delete
  | deleteProperty delete => exact outline_deleteProperty p delete

theorem outline_run (p : Pass) (actions : List Action) :
    (p.run actions).outline = p.outline.run actions := by
  induction actions generalizing p with
  | nil => rfl
  | cons a actions ih => rw [run_cons, ih, outline_step, Outline.run_cons]

/-! ### The end of a pass -/

theorem outline_retryPath (reportUnresolved : Bool) (p : Pass) (path : PathRef) :
    (retryPath reportUnresolved p path).outline = p.outline := by
  unfold retryPath
  cases h : p.linkPath? path with
  | some found =>
      have href : p.linkReference? (.path path) = some found := h
      exact (linkReference?_some href).1
  | none => cases reportUnresolved <;> exact outline_linkSegments p path _

theorem outline_retryPaths (p : Pass) (reportUnresolved : Bool) :
    (p.retryPaths reportUnresolved).outline = p.outline := by
  have hfold : ∀ (paths : List PathRef) (q : Pass),
      (paths.foldl (retryPath reportUnresolved) q).outline = q.outline := by
    intro paths
    induction paths with
    | nil => exact fun _ => rfl
    | cons path paths ih =>
        intro q
        rw [List.foldl_cons, ih, outline_retryPath]
  exact hfold _ _

theorem outline_reportLabels (p : Pass) (reportUnresolved : Bool) :
    (p.reportLabels reportUnresolved).outline = p.outline := by
  have hfold : ∀ (refs : List LabelRef) (q : Pass),
      (refs.foldl (fun p ref => p.report .unresolvedReference ref.span ref.label []) q).outline =
        q.outline := by
    intro refs
    induction refs with
    | nil => exact fun _ => rfl
    | cons ref refs ih =>
        intro q
        rw [List.foldl_cons, ih]
        rfl
  unfold reportLabels
  split
  · exact hfold _ _
  · rfl

end Pass

namespace Linkage

/-- The actions of some files in order. -/
def actionsOf (files : List SourceFile) : List Action :=
  files.flatMap SourceFile.actions

/-- The pass over some files after its first actions. -/
def passAt (files : List SourceFile) (count : Nat) : Pass :=
  Pass.start.run ((actionsOf files).take count)

theorem outline_passAt (files : List SourceFile) (count : Nat) :
    (passAt files count).outline = Outline.start.run ((actionsOf files).take count) := by
  rw [passAt, Pass.outline_run, Pass.outline_start]

/-- The outline reached by linking some files. -/
def outlineOf (files : List SourceFile) : Outline :=
  Outline.start.run (actionsOf files)

theorem outline_actionsOf (files : List SourceFile) :
    (Pass.start.run (actionsOf files)).outline = outlineOf files := by
  rw [Pass.outline_run, Pass.outline_start]
  rfl

theorem outline_linked (files : List SourceFile) (reportUnresolved : Bool) :
    (((Pass.start.run (actionsOf files)).retryPaths reportUnresolved).reportLabels
      reportUnresolved).outline = outlineOf files := by
  rw [Pass.outline_reportLabels, Pass.outline_retryPaths, outline_actionsOf]

theorem link_tree_bare (files : List SourceFile) (reportUnresolved : Bool) (generation : Nat) :
    (link files reportUnresolved generation).tree.bare = (outlineOf files).tree :=
  congrArg Outline.tree (outline_linked files reportUnresolved)

theorem link_labels (files : List SourceFile) (reportUnresolved : Bool) (generation : Nat) :
    (link files reportUnresolved generation).labels = (outlineOf files).labels :=
  congrArg Outline.labels (outline_linked files reportUnresolved)

end Linkage

end Devicetree
