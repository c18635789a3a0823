import Devicetree.Proofs.Linkage.Reports

/-!
# What conflicts are reported

A conflict is a name or a label that is given twice; all other issues are of something that is
not there. Whether a reference, a block or a delete finds what it needs has no part in the
conflicts: those of a run are the clashes among its actions, in order, and those of labels come
at the end.
-/

namespace Devicetree

/-- Whether something is given twice, rather than missing. -/
def IssueKind.isConflict : IssueKind → Bool
  | .duplicateNodeName | .labelInUse => true
  | .unresolvedReference | .missingNode | .missingProperty => false

/-- The issue of a child that was defined before. -/
def Action.clash? : Action → Option Issue
  | .clash name first => some ⟨.duplicateNodeName, name.span, name.value.text, [first]⟩
  | _ => none

namespace Pass

variable {p q : Pass}

def conflicts (p : Pass) : List Issue :=
  p.issues.filter (·.kind.isConflict)

theorem conflicts_eq (h : q.issues = p.issues) : q.conflicts = p.conflicts :=
  congrArg (List.filter _) h

theorem conflicts_report (p : Pass) {kind : IssueKind} (h : kind.isConflict = false) (span : Span)
    (subject : String) (related : List Span) :
    (p.report kind span subject related).conflicts = p.conflicts := by
  simp [conflicts, report, h]

/-! ### References -/

theorem issues_linkReference? {ref : Reference} {node : NodeId}
    (h : p.linkReference? ref = some (q, node)) : q.issues = p.issues := by
  cases ref with
  | label ref =>
      obtain ⟨found, -, he⟩ := Option.map_eq_some_iff.mp h
      cases he
      rfl
  | path ref =>
      simp only [linkReference?, linkPath?] at h
      split at h
      · cases h
        exact issues_linkSegments p ref _
      · cases h

theorem issues_linkValue (p : Pass) (ref : Reference) : (p.linkValue ref).issues = p.issues := by
  unfold linkValue
  cases h : p.linkReference? ref with
  | some found => exact issues_linkReference? h
  | none => cases ref <;> rfl

/-- What each of some steps leaves as it is, all of them leave. -/
theorem issues_foldl {α : Type} {f : Pass → α → Pass} (hf : ∀ p x, (f p x).issues = p.issues)
    (xs : List α) (p : Pass) : (xs.foldl f p).issues = p.issues := by
  induction xs generalizing p with
  | nil => rfl
  | cons x xs ih => exact (ih (f p x)).trans (hf p x)

/-! ### Blocks -/

theorem issues_linkPendingLabels (p : Pass) (label : String) (node : NodeId) :
    (p.linkPendingLabels label node).issues = p.issues :=
  issues_foldl (f := fun p ref => p.linkLabel ref node) (fun _ _ => rfl) _ _

theorem issues_bindLabel (p : Pass) (node : NodeId) (detached : Bool) (label : Label) :
    (p.bindLabel node detached label).issues = p.issues := by
  unfold bindLabel
  split
  · rfl
  · exact issues_linkPendingLabels _ label.value node

theorem issues_define (p : Pass) (head : BlockHead) (node : NodeId) (detached : Bool) :
    (p.define head node detached).issues = p.issues :=
  issues_foldl (fun p label => p.issues_bindLabel node detached label) _ _

theorem issues_childFor (p : Pass) (parent : NodeId) (name : UnitName) :
    (p.childFor parent name).1.issues = p.issues := by
  unfold childFor
  split <;> rfl

theorem conflicts_enter (p : Pass) (head : BlockHead) :
    (p.enter head).conflicts = p.conflicts := by
  unfold enter
  split
  · exact conflicts_eq (issues_define _ _ _ _)
  · exact conflicts_eq ((issues_define _ _ _ _).trans (p.issues_childFor _ _))
  · split
    · rename_i q node h
      have hlinked : q.issues = p.issues := issues_linkReference? h
      exact conflicts_eq ((issues_define _ _ _ _).trans hlinked)
    · exact (conflicts_eq (issues_define _ _ _ _)).trans (conflicts_report _ rfl _ _ _)

/-! ### Properties and deletes -/

theorem issues_removeNode? {target : NodeId} {deletedBy : AstRef}
    (h : p.removeNode? target deletedBy = some q) : q.issues = p.issues := by
  obtain ⟨tree, -, rfl⟩ := Option.map_eq_some_iff.mp h
  rfl

theorem conflicts_removeGlobal (p : Pass) (target : Option NodeId) (deletedBy : AstRef)
    (ref : Reference) : (p.removeGlobal target deletedBy ref).conflicts = p.conflicts := by
  unfold removeGlobal
  split
  · rename_i q h
    obtain ⟨node, -, h⟩ := Option.bind_eq_some_iff.mp h
    have hremoved : q.issues = p.issues := issues_removeNode? h
    exact conflicts_eq hremoved
  · exact conflicts_report _ rfl _ _ _

theorem conflicts_deleteNode (p : Pass) (delete : DeleteNode) :
    (p.deleteNode delete).conflicts = p.conflicts := by
  unfold deleteNode
  split
  · dsimp only
    split
    · rename_i q h
      obtain ⟨child, -, h⟩ := Option.bind_eq_some_iff.mp h
      have hremoved : q.issues = (p.own delete.id p.scope.node).issues :=
        issues_removeNode? h
      exact conflicts_eq hremoved
    · exact conflicts_report _ rfl _ _ _
  · dsimp only
    split
    · rename_i q target h
      have hlinked : q.issues = (p.own delete.id p.scope.node).issues :=
        issues_linkReference? h
      exact (conflicts_removeGlobal _ _ _ _).trans (conflicts_eq hlinked)
    · exact conflicts_removeGlobal _ _ _ _

theorem conflicts_deleteProperty (p : Pass) (delete : DeleteProperty) :
    (p.deleteProperty delete).conflicts = p.conflicts := by
  unfold deleteProperty
  dsimp only
  split
  · rfl
  · exact conflicts_report _ rfl _ _ _

/-! ### Runs -/

/-- Only a clash makes for a conflict. -/
theorem conflicts_step (p : Pass) (a : Action) :
    (p.step a).conflicts = p.conflicts ++ a.clash?.toList := by
  have hquiet : a.clash? = none → (p.step a).conflicts = p.conflicts →
      (p.step a).conflicts = p.conflicts ++ a.clash?.toList := by
    intro hnone hsame
    rw [hnone, Option.toList_none, List.append_nil, hsame]
  cases a with
  | clash name first => exact List.filter_append _ _
  | enter head => exact hquiet rfl (p.conflicts_enter head)
  | leave => exact hquiet rfl rfl
  | property definition => exact hquiet rfl (conflicts_eq (issues_foldl issues_linkValue _ _))
  | deleteNode delete => exact hquiet rfl (p.conflicts_deleteNode delete)
  | deleteProperty delete => exact hquiet rfl (p.conflicts_deleteProperty delete)

/-- The conflicts of a run are the clashes among its actions. -/
theorem conflicts_run (p : Pass) (as : List Action) :
    (p.run as).conflicts = p.conflicts ++ as.filterMap Action.clash? := by
  induction as generalizing p with
  | nil => exact (List.append_nil _).symm
  | cons a as ih =>
      rw [run_cons, ih, conflicts_step, List.append_assoc]
      cases h : a.clash? <;> simp [h]

end Pass

namespace Linkage

/-- Linking reports the clashes among the actions, and then the labels with several owners. -/
theorem conflicts_link (files : List SourceFile) (reportUnresolved : Bool) (generation : Nat) :
    (link files reportUnresolved generation).issues.filter (·.kind.isConflict) =
      (actionsOf files).filterMap Action.clash? ++
        (link files reportUnresolved generation).labelIssues := by
  have hrun := Pass.conflicts_run .start (actionsOf files)
  have hlabels : ∀ l : Linkage, l.labelIssues.filter (·.kind.isConflict) = l.labelIssues :=
    fun l => List.filter_eq_self.mpr fun i hi => by rw [kind_of_mem_labelIssues hi]; rfl
  cases reportUnresolved with
  | false =>
      rw [issues_link_false, List.filter_append, hlabels]
      exact congrArg (· ++ _) hrun
  | true =>
      obtain ⟨more, hmore, hlink⟩ := link_true_eq files generation
      have hquiet : more.filter (·.kind.isConflict) = [] := by
        refine List.filter_eq_nil_iff.mpr fun i hi => ?_
        obtain ⟨ref, -, rfl⟩ := hmore i hi
        exact Bool.false_ne_true
      rw [hlink, List.filter_append, List.filter_append, hquiet, List.append_nil, hlabels]
      exact congrArg (· ++ _) hrun

/-- A conflict of a given kind is found among all conflicts. -/
theorem filter_issues_eq (files : List SourceFile) (reportUnresolved : Bool) (generation : Nat)
    {P : Issue → Bool} (hP : ∀ i, P i = true → i.kind.isConflict = true) :
    (link files reportUnresolved generation).issues.filter P =
      ((actionsOf files).filterMap Action.clash?).filter P ++
        (link files reportUnresolved generation).labelIssues.filter P := by
  rw [← List.filter_append, ← conflicts_link, List.filter_filter]
  refine List.filter_congr fun i _ => ?_
  cases h : P i
  · rfl
  · rw [hP i h]
    rfl

end Linkage

end Devicetree
