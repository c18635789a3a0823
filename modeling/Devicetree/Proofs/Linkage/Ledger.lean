import Devicetree.Proofs.Linkage.Bindings
import Devicetree.Proofs.Linkage.Schedule

/-!
# The ledger of a pass

A ledger keeps of a pass what has to do with references alone: which are linked, which wait,
which blocks and deletes found their target, and what was reported of those that did not. What
an action does to it depends on the outline only. The main result is that a pass keeps its
ledger by these steps, up to the end.
-/

namespace Devicetree

/-- The issue of a reference without a target. -/
def Reference.unresolved (ref : Reference) : Issue :=
  ⟨.unresolvedReference, ref.span, ref.subject, []⟩

/-- What a reference is there for. -/
inductive Role
  | value
  | block
  | delete
deriving DecidableEq

/-- A reference, and the statement that it is written in. -/
structure Mention where
  statement : AstRef
  ref : Reference
  role : Role
deriving DecidableEq

/-- The references that an action comes upon. -/
def Action.mentions : Action → List Mention
  | .enter ⟨id, _, .reference ref, span⟩ => [⟨⟨id, span⟩, ref, .block⟩]
  | .deleteNode ⟨id, _, .reference ref, span⟩ => [⟨⟨id, span⟩, ref, .delete⟩]
  | .property definition => definition.references.map (⟨definition.ref, ·, .value⟩)
  | _ => []

theorem Action.cargo_mentions : Cargo mentions := ⟨fun _ _ => rfl, rfl⟩

namespace Outline

/-- Whether a reference names a node now that it can be used for. Only a node that has a parent
can be deleted. -/
def serves (o : Outline) (m : Mention) : Bool :=
  (o.target? m.ref).any fun node => m.role ≠ .delete || (o.tree.node node).parent.isSome

theorem target?_setProperty (o : Outline) (definition : PropertyDef) (ref : Reference) :
    (o.setProperty definition).target? ref = o.target? ref := by
  have hs := o.tree.sameShape_modify o.scope.node (·.sameShape_define definition)
  cases ref with
  | label ref => rfl
  | path ref => simp only [target?, setProperty, ← hs.descend]

theorem serves_setProperty (o : Outline) (definition : PropertyDef) (m : Mention) :
    (o.setProperty definition).serves m = o.serves m := by
  have hs := o.tree.sameShape_modify o.scope.node (·.sameShape_define definition)
  simp only [serves, target?_setProperty]
  simp only [setProperty, ← (hs.node _).parent]

end Outline

structure Ledger where
  links : Table AstId NodeId
  pendingLabels : List LabelRef
  pendingPaths : List PathRef
  referenceBlocks : List AstRef
  unlinkedReferenceBlocks : List AstRef
  globalDeletes : List AstRef
  unlinkedDeletes : List AstRef
  /-- The issues of references without a target. -/
  unresolved : List Issue

namespace Ledger

def start : Ledger := ⟨.empty, [], [], [], [], [], [], []⟩

def link (l : Ledger) (id : AstId) (node : NodeId) : Ledger :=
  { l with links := l.links.insert id node }

def report (l : Ledger) (ref : Reference) : Ledger :=
  { l with unresolved := l.unresolved ++ [ref.unresolved] }

/-- Keeps a reference for later. -/
def await (l : Ledger) : Reference → Ledger
  | .label ref => { l with pendingLabels := l.pendingLabels ++ [ref] }
  | .path ref => { l with pendingPaths := l.pendingPaths ++ [ref] }

/-- Files a reference that is used. -/
def serve (l : Ledger) (m : Mention) : Ledger :=
  match m.role with
  | .value => l
  | .block => { l with referenceBlocks := l.referenceBlocks ++ [m.statement] }
  | .delete => { l with globalDeletes := l.globalDeletes ++ [m.statement] }

/-- Files a reference that is of no use now. That of a value may be later. -/
def miss (l : Ledger) (m : Mention) : Ledger :=
  match m.role with
  | .value => l.await m.ref
  | .block =>
    { l with unlinkedReferenceBlocks := l.unlinkedReferenceBlocks ++ [m.statement] }.report m.ref
  | .delete => { l with unlinkedDeletes := l.unlinkedDeletes ++ [m.statement] }.report m.ref

/-- Links a reference that names a node. -/
def attach (o : Outline) (l : Ledger) (ref : Reference) : Ledger :=
  (o.target? ref).elim l (l.link ref.id)

def meet (o : Outline) (l : Ledger) (m : Mention) : Ledger :=
  if o.serves m then (l.attach o m.ref).serve m else (l.attach o m.ref).miss m

/-- Setting a property does not change what references are good for. -/
theorem meet_setProperty (o : Outline) (definition : PropertyDef) :
    meet (o.setProperty definition) = meet o := by
  funext l m
  simp only [meet, attach, o.target?_setProperty definition, o.serves_setProperty definition]

theorem meet_of_none {o : Outline} {m : Mention} (h : o.target? m.ref = none) (l : Ledger) :
    l.meet o m = l.miss m := by
  simp [meet, Outline.serves, attach, h]

theorem meet_of_some {o : Outline} {m : Mention} {node : NodeId}
    (h : o.target? m.ref = some node) (l : Ledger) :
    l.meet o m =
      if m.role ≠ .delete || (o.tree.node node).parent.isSome then (l.link m.ref.id node).serve m
      else (l.link m.ref.id node).miss m := by
  simp only [meet, Outline.serves, attach, h, Option.any_some, Option.elim_some]

/-- Links all that waited for a label. -/
def bind (l : Ledger) (bound : String × NodeId) : Ledger :=
  { l with
    links := l.links.insertAll
      ((l.pendingLabels.filter (·.label = bound.1)).map fun ref => (ref.id, bound.2))
    pendingLabels := l.pendingLabels.filter (·.label ≠ bound.1) }

def step (o : Outline) (l : Ledger) (a : Action) : Ledger :=
  (o.bound a).foldl bind (a.mentions.foldl (meet o) l)

/-- What a run from an outline makes of a ledger. -/
def run (o : Outline) (l : Ledger) : List Action → Ledger
  | [] => l
  | a :: as => run (o.step a) (l.step o a) as

theorem run_append (o : Outline) (l : Ledger) (as bs : List Action) :
    l.run o (as ++ bs) = (l.run o as).run (o.run as) bs := by
  induction as generalizing o l with
  | nil => rfl
  | cons a as ih => exact ih (o.step a) (l.step o a)

/-- Tries a path once more. -/
def retry (o : Outline) (reportUnresolved : Bool) (l : Ledger) (path : PathRef) : Ledger :=
  (o.target? (.path path)).elim (if reportUnresolved then l.report (.path path) else l)
    (l.link path.id)

def retryAll (o : Outline) (l : Ledger) (reportUnresolved : Bool) : Ledger :=
  l.pendingPaths.foldl (retry o reportUnresolved) { l with pendingPaths := [] }

/-- Reports the label references that never found a target. -/
def close (l : Ledger) (reportUnresolved : Bool) : Ledger :=
  if reportUnresolved then
    l.pendingLabels.foldl (fun l ref => l.report (.label ref)) { l with pendingLabels := [] }
  else l

end Ledger

namespace Pass

/-- The part of a pass that its ledger keeps. -/
def ledger (p : Pass) : Ledger where
  links := p.links
  pendingLabels := p.pendingLabels
  pendingPaths := p.pendingPaths
  referenceBlocks := p.referenceBlocks
  unlinkedReferenceBlocks := p.unlinkedReferenceBlocks
  globalDeletes := p.globalDeletes
  unlinkedDeletes := p.unlinkedDeletes
  unresolved := p.issues.filter (·.kind = .unresolvedReference)

theorem ledger_report_unresolved (p : Pass) (ref : Reference) :
    (p.report .unresolvedReference ref.span ref.subject []).ledger = p.ledger.report ref := by
  simp [ledger, report, Ledger.report, Reference.unresolved, List.filter_append]

theorem ledger_report_other (p : Pass) {kind : IssueKind} (h : kind ≠ .unresolvedReference)
    (span : Span) (subject : String) (related : List Span) :
    (p.report kind span subject related).ledger = p.ledger := by
  simp [ledger, report, List.filter_append, h]

/-! ### References -/

theorem ledger_linkSegments (p : Pass) (path : PathRef) (nodes : List NodeId) :
    (p.linkSegments path nodes).ledger = p.ledger := by
  unfold linkSegments
  generalize path.segments.zip nodes = pairs
  induction pairs generalizing p with
  | nil => rfl
  | cons pair pairs ih =>
      rw [List.foldl_cons, ih]
      rfl

theorem ledger_of_linkReference? {p q : Pass} {ref : Reference} {node : NodeId}
    (h : p.linkReference? ref = some (q, node)) : q.ledger = p.ledger.link ref.id node := by
  cases ref with
  | label ref =>
      obtain ⟨found, -, he⟩ := Option.map_eq_some_iff.mp h
      cases he
      rfl
  | path ref =>
      simp only [linkReference?, linkPath?] at h
      split at h
      · cases h
        exact congrArg (Ledger.link · ref.id _) (ledger_linkSegments p ref (p.walkPath ref))
      · cases h

theorem ledger_linkValue (p : Pass) (statement : AstRef) (ref : Reference) :
    (p.linkValue ref).ledger = p.ledger.meet p.outline ⟨statement, ref, .value⟩ := by
  unfold linkValue
  cases h : p.linkReference? ref with
  | some found =>
      rw [Ledger.meet_of_some (linkReference?_some h).2]
      exact ledger_of_linkReference? h
  | none =>
      rw [Ledger.meet_of_none (linkReference?_none h)]
      cases ref <;> rfl

theorem ledger_linkValues (p : Pass) (statement : AstRef) (refs : List Reference) :
    (refs.foldl linkValue p).ledger =
      (refs.map (⟨statement, ·, .value⟩)).foldl (Ledger.meet p.outline) p.ledger := by
  induction refs generalizing p with
  | nil => rfl
  | cons ref refs ih =>
      rw [List.foldl_cons, ih, outline_linkValue, ledger_linkValue p statement]
      rfl

/-! ### Blocks -/

theorem ledger_linkLabels (p : Pass) (node : NodeId) (waiting : List LabelRef) :
    (waiting.foldl (fun p ref => p.linkLabel ref node) p).ledger =
      { p.ledger with
        links := p.links.insertAll (waiting.map fun ref => (ref.id, node)) } := by
  induction waiting generalizing p with
  | nil => rfl
  | cons ref waiting ih => exact ih (p.linkLabel ref node)

theorem ledger_bindLabel (p : Pass) (node : NodeId) (detached : Bool) (label : Label) :
    (p.bindLabel node detached label).ledger =
      if detached then p.ledger else p.ledger.bind (label.value, node) := by
  unfold bindLabel linkPendingLabels
  cases detached with
  | true => rfl
  | false => exact ledger_linkLabels _ node _

theorem ledger_bindLabels (p : Pass) (node : NodeId) (detached : Bool) (bound : List Label) :
    (bound.foldl (fun p label => p.bindLabel node detached label) p).ledger =
      (if detached then [] else bound.map fun label => (label.value, node)).foldl Ledger.bind
        p.ledger := by
  induction bound generalizing p with
  | nil => cases detached <;> rfl
  | cons label bound ih =>
      rw [List.foldl_cons, ih, ledger_bindLabel]
      cases detached <;> rfl

theorem ledger_define (p : Pass) (head : BlockHead) (node : NodeId) (detached : Bool) :
    (p.define head node detached).ledger =
      (if detached then [] else head.labels.map fun label => (label.value, node)).foldl
        Ledger.bind p.ledger :=
  ledger_bindLabels _ node detached head.labels

theorem ledger_childFor (p : Pass) (parent : NodeId) (name : UnitName) :
    (p.childFor parent name).1.ledger = p.ledger := by
  unfold childFor
  split <;> rfl

/-- A block binds its labels to the node it opens. -/
theorem bound_enter {p q : Pass} {head : BlockHead} {node : NodeId} {detached : Bool}
    (h : p.enter head = q.define head node detached) :
    p.outline.bound (.enter head) =
      if detached then [] else head.labels.map fun label => (label.value, node) := by
  simp only [Outline.bound, ← outline_enter, h]
  rfl

theorem ledger_enter (p : Pass) (head : BlockHead) :
    (p.enter head).ledger = p.ledger.step p.outline (.enter head) := by
  obtain ⟨id, labels, target, span⟩ := head
  cases target with
  | root slash =>
      rw [Ledger.step, bound_enter rfl]
      exact ledger_define _ _ _ _
  | child name =>
      have he : p.enter ⟨id, labels, .child name, span⟩ =
          (p.childFor p.scope.node name.value).1.define ⟨id, labels, .child name, span⟩
            (p.childFor p.scope.node name.value).2 p.scope.detached := rfl
      rw [Ledger.step, bound_enter he, he, ledger_define, ledger_childFor]
      rfl
  | reference ref =>
      have htarget : (BlockHead.mk id labels (.reference ref) span).target = .reference ref := rfl
      simp only [Ledger.step, Action.mentions, List.foldl_cons, List.foldl_nil]
      cases h : p.linkReference? ref with
      | some found =>
          obtain ⟨q, node⟩ := found
          have he := enter_of_linked htarget h
          have hq : q.ledger = p.ledger.link ref.id node := ledger_of_linkReference? h
          rw [Ledger.meet_of_some (linkReference?_some h).2, ← hq, bound_enter he, he,
            ledger_define]
          rfl
      | none =>
          let q : Pass :=
            { p with unlinkedReferenceBlocks := p.unlinkedReferenceBlocks ++ [⟨id, span⟩] }
          have he := enter_of_unlinked htarget h
          rw [Ledger.meet_of_none (linkReference?_none h), bound_enter he, he, ledger_define]
          exact ledger_report_unresolved q ref

/-! ### Properties and deletes -/

theorem ledger_removeNode? {p q : Pass} {target : NodeId} {deletedBy : AstRef}
    (h : p.removeNode? target deletedBy = some q) : q.ledger = p.ledger := by
  obtain ⟨tree, -, rfl⟩ := Option.map_eq_some_iff.mp h
  rfl

theorem isSome_removeNode? (p : Pass) (target : NodeId) (deletedBy : AstRef) :
    (p.removeNode? target deletedBy).isSome = (p.outline.tree.node target).parent.isSome := by
  simp only [removeNode?, Tree.deleteNode?, Option.isSome_map, outline, Tree.node_bare]
  rfl

theorem ledger_removeGlobal (p : Pass) (target : NodeId) (deletedBy : AstRef) (ref : Reference) :
    (p.removeGlobal (some target) deletedBy ref).ledger =
      if (p.outline.tree.node target).parent.isSome then
        p.ledger.serve ⟨deletedBy, ref, .delete⟩
      else p.ledger.miss ⟨deletedBy, ref, .delete⟩ := by
  rw [← isSome_removeNode? p target deletedBy]
  simp only [removeGlobal, Option.bind_some]
  cases h : p.removeNode? target deletedBy with
  | some q =>
      rw [← ledger_removeNode? h]
      rfl
  | none => exact ledger_report_unresolved _ ref

theorem ledger_deleteNode (p : Pass) (delete : DeleteNode) :
    (p.deleteNode delete).ledger = p.ledger.step p.outline (.deleteNode delete) := by
  obtain ⟨id, keyword, target, span⟩ := delete
  cases target with
  | name name =>
      simp only [deleteNode]
      split
      · rename_i q h
        obtain ⟨child, -, hr⟩ := Option.bind_eq_some_iff.mp h
        exact (ledger_removeNode? hr).trans rfl
      · exact ledger_report_other _ (by decide) _ _ _
  | reference ref =>
      simp only [Ledger.step, Action.mentions, List.foldl_cons, List.foldl_nil, deleteNode]
      let q := p.own id p.scope.node
      have ho : q.outline = p.outline := rfl
      cases h : q.linkReference? ref with
      | some found =>
          obtain ⟨r, node⟩ := found
          obtain ⟨hr, ht⟩ := linkReference?_some h
          rw [ho] at hr ht
          rw [Ledger.meet_of_some ht]
          refine (ledger_removeGlobal r node ⟨id, span⟩ ref).trans ?_
          rw [hr, ledger_of_linkReference? h]
          rfl
      | none =>
          rw [Ledger.meet_of_none (ho ▸ linkReference?_none h)]
          exact ledger_report_unresolved
            { q with unlinkedDeletes := q.unlinkedDeletes ++ [⟨id, span⟩] } ref

theorem ledger_deleteProperty (p : Pass) (delete : DeleteProperty) :
    (p.deleteProperty delete).ledger = p.ledger := by
  simp only [deleteProperty]
  split
  · rfl
  · exact ledger_report_other _ (by decide) _ _ _

/-- One action of a pass is one step of its ledger. -/
theorem ledger_step (p : Pass) (a : Action) :
    (p.step a).ledger = p.ledger.step p.outline a := by
  cases a with
  | clash name first => exact ledger_report_other p (by decide) _ _ _
  | enter head => exact ledger_enter p head
  | leave => rfl
  | property definition =>
      have ho : ((p.own definition.id p.scope.node).modifyNode p.scope.node
          fun n => n.define definition).outline = p.outline.setProperty definition := by
        rw [← outline_setProperty, setProperty, outline_linkValues]
      refine (ledger_linkValues _ definition.ref _).trans ?_
      rw [ho, Ledger.meet_setProperty]
      rfl
  | deleteNode delete => exact ledger_deleteNode p delete
  | deleteProperty delete => exact ledger_deleteProperty p delete

theorem ledger_run (p : Pass) (actions : List Action) :
    (p.run actions).ledger = p.ledger.run p.outline actions := by
  induction actions generalizing p with
  | nil => rfl
  | cons a actions ih => rw [run_cons, ih, ledger_step, outline_step, Ledger.run]

/-! ### The end of a pass -/

theorem ledger_retryPath (reportUnresolved : Bool) (p : Pass) (path : PathRef) :
    (retryPath reportUnresolved p path).ledger =
      p.ledger.retry p.outline reportUnresolved path := by
  unfold retryPath Ledger.retry
  cases h : p.linkPath? path with
  | some found =>
      have href : p.linkReference? (.path path) = some found := h
      rw [(linkReference?_some href).2]
      exact ledger_of_linkReference? href
  | none =>
      have href : p.linkReference? (.path path) = none := h
      rw [linkReference?_none href]
      have hs := ledger_linkSegments p path (p.walkPath path)
      cases reportUnresolved with
      | true =>
          refine (ledger_report_unresolved _ (.path path)).trans ?_
          rw [hs]
          rfl
      | false => exact hs

theorem ledger_retryPaths (p : Pass) (reportUnresolved : Bool) :
    (p.retryPaths reportUnresolved).ledger = p.ledger.retryAll p.outline reportUnresolved := by
  have hfold : ∀ (paths : List PathRef) (q : Pass),
      (paths.foldl (retryPath reportUnresolved) q).ledger =
        paths.foldl (Ledger.retry q.outline reportUnresolved) q.ledger := by
    intro paths
    induction paths with
    | nil => exact fun _ => rfl
    | cons path paths ih =>
        intro q
        rw [List.foldl_cons, List.foldl_cons, ih, outline_retryPath, ledger_retryPath]
  exact hfold _ _

theorem ledger_reportLabels (p : Pass) (reportUnresolved : Bool) :
    (p.reportLabels reportUnresolved).ledger = p.ledger.close reportUnresolved := by
  have hfold : ∀ (refs : List LabelRef) (q : Pass),
      (refs.foldl (fun p ref => p.report .unresolvedReference ref.span ref.label []) q).ledger =
        refs.foldl (fun l ref => l.report (.label ref)) q.ledger := by
    intro refs
    induction refs with
    | nil => exact fun _ => rfl
    | cons ref refs ih =>
        intro q
        have hr : (q.report .unresolvedReference ref.span ref.label []).ledger =
            q.ledger.report (.label ref) := ledger_report_unresolved q (.label ref)
        rw [List.foldl_cons, List.foldl_cons, ih, hr]
  cases reportUnresolved with
  | true => exact hfold _ _
  | false => rfl

end Pass

namespace Linkage

/-- The references written in some files. -/
def mentionsOf (files : List SourceFile) : List Mention :=
  (statementsOf files).flatMap fun s => s.opening.mentions

/-- Linking comes upon every reference once. -/
theorem mentionsOf_perm (files : List SourceFile) :
    ((actionsOf files).flatMap Action.mentions).Perm (mentionsOf files) :=
  actionsOf_perm Action.cargo_mentions files

/-- The ledger of some files before the end of the pass. -/
def ledgerOf (files : List SourceFile) : Ledger :=
  Ledger.start.run .start (actionsOf files)

/-- The ledger of some files at the end of the pass. -/
def closingOf (files : List SourceFile) (reportUnresolved : Bool) : Ledger :=
  ((ledgerOf files).retryAll (outlineOf files) reportUnresolved).close reportUnresolved

theorem ledger_passAt (files : List SourceFile) (count : Nat) :
    (passAt files count).ledger = Ledger.start.run .start ((actionsOf files).take count) := by
  rw [passAt, Pass.ledger_run, Pass.outline_start]
  rfl

theorem ledger_actionsOf (files : List SourceFile) :
    (Pass.start.run (actionsOf files)).ledger = ledgerOf files := by
  rw [Pass.ledger_run, Pass.outline_start]
  rfl

theorem ledger_linked (files : List SourceFile) (reportUnresolved : Bool) :
    (((Pass.start.run (actionsOf files)).retryPaths reportUnresolved).reportLabels
      reportUnresolved).ledger = closingOf files reportUnresolved := by
  rw [Pass.ledger_reportLabels, Pass.ledger_retryPaths, ledger_actionsOf, outline_actionsOf]
  rfl

section Link

variable (files : List SourceFile) (reportUnresolved : Bool) (generation : Nat)

theorem link_links : (link files reportUnresolved generation).links =
    (closingOf files reportUnresolved).links :=
  congrArg Ledger.links (ledger_linked files reportUnresolved)

theorem link_referenceBlocks : (link files reportUnresolved generation).referenceBlocks =
    (closingOf files reportUnresolved).referenceBlocks :=
  congrArg Ledger.referenceBlocks (ledger_linked files reportUnresolved)

theorem link_unlinkedReferenceBlocks :
    (link files reportUnresolved generation).unlinkedReferenceBlocks =
      (closingOf files reportUnresolved).unlinkedReferenceBlocks :=
  congrArg Ledger.unlinkedReferenceBlocks (ledger_linked files reportUnresolved)

theorem link_globalDeletes : (link files reportUnresolved generation).globalDeletes =
    (closingOf files reportUnresolved).globalDeletes :=
  congrArg Ledger.globalDeletes (ledger_linked files reportUnresolved)

theorem link_unlinkedDeletes : (link files reportUnresolved generation).unlinkedDeletes =
    (closingOf files reportUnresolved).unlinkedDeletes :=
  congrArg Ledger.unlinkedDeletes (ledger_linked files reportUnresolved)

end Link

end Linkage

end Devicetree
