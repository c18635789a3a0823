import Devicetree.Source.Parser
import Devicetree.Proofs.Linkage.Sound

/-!
# Which labels name live nodes

A label is bound to a node that carries it, and stays so. The node is live as well, with one
exception: a body may go on after its own node, or one above it, was deleted from inside. A
labelled child opened there is bound although it hangs under a deleted node. The main result
says that nothing else goes wrong: every label names a live node at all times exactly if no
such child is ever opened.
-/

namespace Devicetree

namespace Tree

/-- Every label is bound to a node that carries it. -/
def Carries (t : Tree) (labels : Table String NodeId) : Prop :=
  ∀ e ∈ labels.entries, (t.node e.2).hasLabel e.1 = true

/-- Every label is bound to a live node. -/
def NamesLive (t : Tree) (labels : Table String NodeId) : Prop :=
  ∀ e ∈ labels.entries, t.isLive e.2 = true

end Tree

/-- Whether an action opens a labelled child of a node that is not live, in a body in which
labels are bound. -/
def Action.bindsStray (t : Tree) (scope : Scope) : Action → Bool
  | .enter ⟨_, _ :: _, .child _, _⟩ => !scope.detached && !t.isLive scope.node
  | _ => false

namespace Outline

variable {o : Outline}

/-! ### Labels stay on their nodes -/

theorem hasLabel_modify_opened {t : Tree} {node id : NodeId} {head : BlockHead} {label : String}
    (h : (t.node id).hasLabel label = true) :
    ((t.modify node (·.opened head)).node id).hasLabel label = true := by
  rw [Tree.node_modify]
  split
  · simp only [Node.hasLabel, Node.opened, List.any_append, Bool.or_eq_true]
    exact .inl h
  · exact h

theorem carries_define {head : BlockHead} {node : NodeId} {detached : Bool}
    (hn : node.index < o.tree.size) (h : o.tree.Carries o.labels) :
    (o.define head node detached).tree.Carries (o.define head node detached).labels := by
  intro e he
  cases detached with
  | true => exact hasLabel_modify_opened (h e he)
  | false =>
      rcases mem_bind he with ⟨rfl, label, hm, hv⟩ | he
      · change ((o.tree.modify e.2 (·.opened head)).node e.2).hasLabel e.1 = true
        rw [Tree.node_modify_self _ hn]
        simp only [Node.hasLabel, Node.opened, List.any_append, Bool.or_eq_true]
        exact .inr (List.any_eq_true.mpr ⟨label, hm, by simp [hv]⟩)
      · exact hasLabel_modify_opened (h e he)

theorem carries_addChild (hs : o.Sound) (name : UnitName) (h : o.tree.Carries o.labels) :
    (o.tree.addChild o.scope.node name).Carries o.labels := by
  intro e he
  rw [Tree.node_addChild hs.scope_node_lt, if_neg (Tree.ne_nextId (hs.label_lt e he))]
  split <;> exact h e he

theorem carries_enter (hs : o.Sound) (head : BlockHead) (h : o.tree.Carries o.labels) :
    (o.enter head).tree.Carries (o.enter head).labels := by
  unfold enter
  split
  · exact carries_define hs.tree.size_pos h
  · rename_i name _
    cases hf : o.tree.findChild? o.scope.node name.value with
    | some child =>
        exact carries_define (hs.tree.lt_size_of_mem_children (Tree.mem_of_findChild? hf).1) h
    | none =>
        apply carries_define
        · simp
        · exact carries_addChild hs name.value h
  · rename_i ref _
    cases ht : o.target? ref with
    | some node => exact carries_define (hs.of_target? ht).1 h
    | none =>
        apply carries_define
        · simp
        · intro e he
          rw [Tree.node_addStandIn]
          exact h e he

theorem carries_remove (hs : o.Sound) (target : NodeId) (deletedBy : AstRef)
    (h : o.tree.Carries o.labels) :
    (o.remove target deletedBy).tree.Carries (o.remove target deletedBy).labels := by
  unfold remove
  cases hu : o.tree.deleteNode? target deletedBy with
  | none => exact h
  | some tree =>
      obtain ⟨parent, hp, -⟩ := Option.map_eq_some_iff.mp hu
      intro e he
      have hold := h e (List.mem_of_mem_filter he)
      change (tree.node e.2).hasLabel e.1 = true
      rw [Tree.node_of_deleteNode? hp (hs.tree.parent_lt hp) hu]
      split
      · exact hold
      · split <;> exact hold

theorem carries_modify {id : NodeId} {f : Node → Node} (hf : ∀ n : Node, (f n).labels = n.labels)
    (h : o.tree.Carries o.labels) : (o.tree.modify id f).Carries o.labels := by
  intro e he
  rw [Tree.node_modify]
  split
  · rw [Node.hasLabel, hf]
    exact h e he
  · exact h e he

theorem carries_step (hs : o.Sound) (a : Action) (h : o.tree.Carries o.labels) :
    (o.step a).tree.Carries (o.step a).labels := by
  cases a with
  | clash name first => exact h
  | enter head => exact carries_enter hs head h
  | leave => exact h
  | property definition => exact carries_modify (fun _ => rfl) h
  | deleteNode delete =>
      simp only [step, deleteNode]
      cases o.doomed? delete.target with
      | some target => exact carries_remove hs target delete.ref h
      | none => exact h
  | deleteProperty delete =>
      refine carries_modify (fun n => ?_) h
      simp only [Node.undefine?]
      cases n.property? delete.name.value <;> rfl

theorem carries_run (hs : o.Sound) (actions : List Action) (h : o.tree.Carries o.labels) :
    (o.run actions).tree.Carries (o.run actions).labels := by
  induction actions generalizing o with
  | nil => exact h
  | cons a actions ih => exact ih (hs.step a) (carries_step hs a h)

/-! ### Where a label may come to name a node that is not live -/

theorem exists_mem_bind (labels : Table String NodeId) (node : NodeId) {bound : List Label}
    (h : bound ≠ []) : ∃ e ∈ (bind labels node bound).entries, e.2 = node := by
  induction bound generalizing labels with
  | nil => exact absurd rfl h
  | cons label bound ih =>
      cases bound with
      | nil => exact ⟨(label.value, node), Table.self_mem_insertEntry _ _ _, rfl⟩
      | cons next rest => exact ih (labels.insert label.value node) (List.cons_ne_nil _ _)

/-- Opening a block keeps labels on live nodes exactly if it binds none to another one. -/
theorem namesLive_define (hl : o.tree.NamesLive o.labels) (head : BlockHead) (node : NodeId)
    (detached : Bool) :
    (o.define head node detached).tree.NamesLive (o.define head node detached).labels ↔
      (detached = false → head.labels ≠ [] → o.tree.isLive node = true) := by
  have hshape : o.tree.SameShape (o.define head node detached).tree :=
    o.tree.sameShape_modify node (·.sameShape_opened head)
  constructor
  · rintro h rfl hne
    obtain ⟨e, he, rfl⟩ := exists_mem_bind o.labels node hne
    rw [hshape.isLive]
    exact h e he
  · intro h e he
    rw [← hshape.isLive]
    cases detached with
    | true => exact hl e he
    | false =>
        rcases mem_bind he with ⟨rfl, label, hm, -⟩ | he
        · exact h rfl (List.ne_nil_of_mem hm)
        · exact hl e he

theorem bindsStray_enter {t : Tree} {scope : Scope} {head : BlockHead} :
    (Action.enter head).bindsStray t scope = false ↔
      ∀ name, head.target = .child name →
        scope.detached = false → head.labels ≠ [] → t.isLive scope.node = true := by
  obtain ⟨id, labels, target, span⟩ := head
  cases target with
  | root slash => cases labels <;> simp [Action.bindsStray]
  | reference ref => cases labels <;> simp [Action.bindsStray]
  | child name =>
      cases labels with
      | nil => simp [Action.bindsStray]
      | cons label labels => cases hd : scope.detached <;> simp [Action.bindsStray, hd]

theorem isLive_of_target? (hs : o.Sound) (hl : o.tree.NamesLive o.labels) {ref : Reference}
    {node : NodeId} (ht : o.target? ref = some node) : o.tree.isLive node = true := by
  cases ref with
  | label ref => exact hl _ (Table.mem_of_get? ht)
  | path ref => exact hs.tree.isLive_iff_under.mpr (Sound.under_of_path ht)

theorem namesLive_enter (hs : o.Sound) (hl : o.tree.NamesLive o.labels) (head : BlockHead) :
    (o.enter head).tree.NamesLive (o.enter head).labels ↔
      (Action.enter head).bindsStray o.tree o.scope = false := by
  rw [bindsStray_enter]
  unfold enter
  split
  · rename_i htarget
    simp [namesLive_define hl, htarget, hs.tree.isLive_root]
  · rename_i name htarget
    have hgoal : (∀ name, head.target = .child name → o.scope.detached = false →
        head.labels ≠ [] → o.tree.isLive o.scope.node = true) ↔
        (o.scope.detached = false → head.labels ≠ [] → o.tree.isLive o.scope.node = true) :=
      ⟨fun h => h name htarget, fun h _ _ => h⟩
    rw [hgoal]
    cases hf : o.tree.findChild? o.scope.node name.value with
    | some child =>
        rw [namesLive_define hl, hs.tree.isLive_child (Tree.mem_of_findChild? hf).1]
    | none =>
        have hadd := hs.tree.isLive_addChild hs.scope_node_lt hf
        have hl' : (o.tree.addChild o.scope.node name.value).NamesLive o.labels := by
          intro e he
          rw [hadd, if_neg (Tree.ne_nextId (hs.label_lt e he))]
          exact hl e he
        rw [namesLive_define hl', hadd, if_pos rfl]
  · rename_i ref htarget
    cases ht : o.target? ref with
    | some node => simp [namesLive_define hl, htarget, isLive_of_target? hs hl ht]
    | none =>
        have hl' : o.tree.addStandIn.NamesLive o.labels := by
          intro e he
          rw [Tree.isLive_addStandIn]
          exact hl e he
        rw [namesLive_define hl', htarget]
        simp

/-- A delete unbinds exactly the labels below it, so those that stay name live nodes. -/
theorem namesLive_remove (hs : o.Sound) (hl : o.tree.NamesLive o.labels) {target : NodeId}
    (hk : (o.tree.node target).deleted = false) (deletedBy : AstRef) :
    (o.remove target deletedBy).tree.NamesLive (o.remove target deletedBy).labels := by
  unfold remove
  cases hu : o.tree.deleteNode? target deletedBy with
  | none => exact hl
  | some tree =>
      intro e he
      have hout : e.2 ∉ tree.subtree target := by
        simpa using List.of_mem_filter he
      apply (hs.tree.isLive_deleteNode? hu hk).mpr
      refine ⟨hl e (List.mem_of_mem_filter he), fun hunder => hout ?_⟩
      apply (hs.tree.deleteNode? hk hu).mem_subtree.mpr
      exact (hs.tree.under_deleteNode? hu).mpr hunder

theorem namesLive_modify {id : NodeId} {f : Node → Node} (hf : ∀ n : Node, n.SameShape (f n))
    (hl : o.tree.NamesLive o.labels) : (o.tree.modify id f).NamesLive o.labels := by
  intro e he
  rw [← (o.tree.sameShape_modify id hf).isLive]
  exact hl e he

/-- An action keeps labels on live nodes exactly if it opens no stray child. -/
theorem namesLive_step (hs : o.Sound) (hl : o.tree.NamesLive o.labels) (a : Action) :
    (o.step a).tree.NamesLive (o.step a).labels ↔ a.bindsStray o.tree o.scope = false := by
  cases a with
  | clash name first => exact iff_of_true hl rfl
  | enter head => exact namesLive_enter hs hl head
  | leave => exact iff_of_true hl rfl
  | property definition =>
      exact iff_of_true (namesLive_modify (·.sameShape_define definition) hl) rfl
  | deleteNode delete =>
      refine iff_of_true ?_ rfl
      simp only [step, deleteNode]
      cases ht : o.doomed? delete.target with
      | some target => exact namesLive_remove hs hl (hs.kept_of_doomed? ht) delete.ref
      | none => exact hl
  | deleteProperty delete =>
      exact iff_of_true (namesLive_modify (·.sameShape_undefine _ _) hl) rfl

/-- Along a run, labels stay on live nodes exactly as long as no stray child is opened. -/
theorem namesLive_run_iff (hs : o.Sound) (hl : o.tree.NamesLive o.labels) (actions : List Action) :
    (∀ count, (o.run (actions.take count)).tree.NamesLive (o.run (actions.take count)).labels) ↔
      ∀ (count : Nat) (a : Action), actions[count]? = some a →
        a.bindsStray (o.run (actions.take count)).tree
          (o.run (actions.take count)).scope = false := by
  induction actions generalizing o with
  | nil => simpa using hl
  | cons a actions ih =>
      have hstep := namesLive_step hs hl a
      constructor
      · intro h count b hb
        have hl' : (o.step a).tree.NamesLive (o.step a).labels := h 1
        cases count with
        | zero =>
            cases hb
            exact hstep.mp hl'
        | succ count => exact (ih (hs.step a) hl').mp (fun k => h (k + 1)) count b hb
      · intro h count
        have hl' : (o.step a).tree.NamesLive (o.step a).labels := hstep.mpr (h 0 a rfl)
        cases count with
        | zero => exact hl
        | succ count => exact (ih (hs.step a) hl').mpr (fun k b hb => h (k + 1) b hb) count

end Outline

namespace Linkage

theorem carries_bare {t : Tree} {labels : Table String NodeId} :
    t.bare.Carries labels ↔ t.Carries labels := by
  simp only [Tree.Carries, Tree.node_bare]
  rfl

theorem namesLive_bare {t : Tree} {labels : Table String NodeId} :
    t.bare.NamesLive labels ↔ t.NamesLive labels := by
  simp only [Tree.NamesLive, ← t.sameShape_bare.isLive]

theorem bindsStray_bare (p : Pass) (a : Action) :
    a.bindsStray p.outline.tree p.outline.scope = a.bindsStray p.tree p.scope := by
  simp only [Pass.outline_scope]
  unfold Action.bindsStray
  split
  · rw [p.tree.sameShape_bare.isLive]
    rfl
  · rfl

theorem link_eq_passAt (files : List SourceFile) (reportUnresolved : Bool) (generation : Nat) :
    (link files reportUnresolved generation).tree.bare =
        (passAt files (actionsOf files).length).outline.tree ∧
      (link files reportUnresolved generation).labels =
        (passAt files (actionsOf files).length).labels := by
  have h : (passAt files (actionsOf files).length).outline = outlineOf files := by
    rw [outline_passAt, List.take_length]
    rfl
  rw [link_tree_bare, link_labels, h]
  exact ⟨rfl, (congrArg Outline.labels h).symm⟩

/-- Between any two actions, and in the result, every label is on the node it names. These
nodes are live at all times exactly if no labelled child of a node that is not live is ever
opened in a body in which labels are bound. -/
theorem labels_live_iff_no_stray_child (files : List SourceFile) (reportUnresolved : Bool)
    (generation : Nat) :
    ((∀ count, (passAt files count).tree.Carries (passAt files count).labels) ∧
      (link files reportUnresolved generation).tree.Carries
        (link files reportUnresolved generation).labels) ∧
    (((∀ count, (passAt files count).tree.NamesLive (passAt files count).labels) ∧
      (link files reportUnresolved generation).tree.NamesLive
        (link files reportUnresolved generation).labels) ↔
      ∀ (count : Nat) (a : Action), (actionsOf files)[count]? = some a →
        a.bindsStray (passAt files count).tree (passAt files count).scope = false) := by
  obtain ⟨htree, hlabels⟩ := link_eq_passAt files reportUnresolved generation
  have hcarries : ∀ count, (passAt files count).tree.Carries (passAt files count).labels := by
    intro count
    rw [← carries_bare]
    have h := Outline.carries_run .start ((actionsOf files).take count) fun _ h => by cases h
    rwa [← outline_passAt] at h
  refine ⟨⟨hcarries, ?_⟩, ?_⟩
  · rw [← carries_bare, htree, hlabels]
    exact carries_bare.mpr (hcarries _)
  · have hrun := Outline.namesLive_run_iff .start (fun _ h => by cases h) (actionsOf files)
    simp only [← outline_passAt, bindsStray_bare] at hrun
    have hpass : ∀ count, (passAt files count).outline.tree.NamesLive
        (passAt files count).outline.labels ↔
        (passAt files count).tree.NamesLive (passAt files count).labels :=
      fun _ => namesLive_bare
    simp only [hpass] at hrun
    rw [← hrun, and_iff_left_iff_imp]
    intro h
    rw [← namesLive_bare, htree, hlabels]
    exact namesLive_bare.mpr (h _)

/-- A node deleted from inside its own body, read from `/{a:n{m{/delete-node/&a;};l:k{};};};`. -/
def selfDeletingFile : SourceFile :=
  .read ⟨0⟩ "/\x7ba:n\x7bm\x7b/delete-node/&a;\x7d;l:k\x7b\x7d;\x7d;\x7d;".toList

/-- The label of a child opened after its parent was deleted from inside names no live node. -/
theorem selfDeletingFile_names_dead_node :
    ¬ (link [selfDeletingFile] true 0).tree.NamesLive (link [selfDeletingFile] true 0).labels := by
  intro h
  have hbound : ("l", (⟨3⟩ : NodeId)) ∈ (link [selfDeletingFile] true 0).labels.entries := by
    decide +kernel
  have hdead : (link [selfDeletingFile] true 0).tree.isLive ⟨3⟩ = false := by
    decide +kernel
  have hlive := h _ hbound
  rw [hdead] at hlive
  cases hlive

end Linkage

end Devicetree
