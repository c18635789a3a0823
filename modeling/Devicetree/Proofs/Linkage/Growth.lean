import Devicetree.Proofs.Linkage.Sound
import Devicetree.Proofs.Source.Placement

/-!
# What one action adds

An action takes nothing away: labels, definitions and tombstones are only appended, properties
are replaced or laid aside with all they replaced, and a deleted node stays where it is. All
that is added bears the spans of the statement the action comes from.
-/

namespace Devicetree

namespace Action

/-- The spans that an action leaves in the tree. -/
def spans : Action → List Span
  | .enter head => head.span :: head.labels.map (·.span)
  | .property definition => [definition.span]
  | .deleteNode delete => [delete.span]
  | .deleteProperty delete => [delete.span]
  | .clash _ _ => []
  | .leave => []

end Action

namespace Statement

theorem spans_of_mem_clashesFrom {seen : List NodeName} {body : List Statement} {a : Action}
    (h : a ∈ clashesFrom seen body) : a.spans = [] := by
  obtain ⟨name, first, rfl⟩ := exists_of_mem_clashesFrom h
  rfl

theorem spans_of_leafAction? {s : Statement} {a : Action} (h : s.leafAction? = some a) :
    a.spans = s.spans := by
  cases s <;> cases h <;> rfl

theorem spans_subset_spansAll {s : Statement} {body : List Statement} (h : s ∈ body) :
    s.spans ⊆ spansAll body := by
  induction body with
  | nil => cases h
  | cons r rest ih =>
      rw [spansAll]
      rcases List.mem_cons.mp h with rfl | h
      · exact List.subset_append_left _ _
      · exact List.subset_append_of_subset_right _ (ih h)

mutual

/-- The actions of a statement leave only spans that lie in it. -/
theorem spans_of_mem_actions : ∀ (s : Statement), ∀ a ∈ s.actions, a.spans ⊆ s.spans
  | .block head body => by
      intro a ha
      rw [spans]
      simp only [actions, List.cons_append, List.mem_cons, List.mem_append,
        List.mem_filterMap] at ha
      rcases ha with rfl | ((ha | ha) | ⟨s, hs, ha⟩) | rfl | ha
      · exact List.subset_append_left _ _
      · rw [spans_of_mem_clashesFrom ha]
        exact List.nil_subset _
      · exact List.subset_append_of_subset_right _ (spans_of_mem_blockActions body a ha)
      · rw [spans_of_leafAction? ha]
        exact List.subset_append_of_subset_right _ (spans_subset_spansAll hs)
      · exact List.nil_subset _
      · cases ha
  | .property p => by
      intro a ha
      rw [List.mem_singleton.mp ha]
      exact List.Subset.refl _
  | .deleteNode d => by
      intro a ha
      rw [List.mem_singleton.mp ha]
      exact List.Subset.refl _
  | .deleteProperty d => by
      intro a ha
      rw [List.mem_singleton.mp ha]
      exact List.Subset.refl _

theorem spans_of_mem_blockActions :
    ∀ (body : List Statement), ∀ a ∈ blockActions body, a.spans ⊆ spansAll body
  | [] => by
      intro a ha
      cases ha
  | s :: rest => by
      intro a ha
      rw [blockActions] at ha
      rw [spansAll]
      have later : a ∈ blockActions rest → a.spans ⊆ s.spans ++ spansAll rest := fun ha =>
        List.subset_append_of_subset_right _ (spans_of_mem_blockActions rest a ha)
      split at ha
      · rcases List.mem_append.mp ha with ha | ha
        · exact List.subset_append_of_subset_left _ (spans_of_mem_actions s a ha)
        · exact later ha
      · exact later ha

end

end Statement

/-- What one action can do to the properties of a node. -/
inductive Node.PropertiesEdited (mark : Span → Prop) (m n : Node) : Prop
  | same (hp : n.properties = m.properties) (hd : n.deletedProperties = m.deletedProperties)
  | define (definition : PropertyDef) (hmark : mark definition.span)
      (hp : n.properties = (m.define definition).properties)
      (hd : n.deletedProperties = m.deletedProperties)
  | undefine (p : Property) (name : String) (deletedBy : AstRef) (hmark : mark deletedBy.span)
      (hold : m.property? name = some p) (hp : n.properties = m.properties.erase name)
      (hd : n.deletedProperties = m.deletedProperties ++ [⟨p, deletedBy⟩])

/-- What one action can do to a node, given the spans it leaves. -/
structure Node.Edited (mark : Span → Prop) (m n : Node) : Prop where
  labels : ∃ more, n.labels = m.labels ++ more ∧ ∀ label ∈ more, mark label.span
  definitions : ∃ more, n.definitions = m.definitions ++ more ∧ ∀ ref ∈ more, mark ref.span
  deletedNodes : ∃ more, n.deletedNodes = m.deletedNodes ++ more ∧
    ∀ s ∈ more, mark s.deletedBy.span
  deleted : m.deleted = true → n.deleted = true
  properties : m.PropertiesEdited mark n

/-- What one action can do to a tree, given the spans it leaves. -/
structure Tree.Edited (mark : Span → Prop) (t u : Tree) : Prop where
  size_le : t.size ≤ u.size
  node : ∀ id, (t.node id).Edited mark (u.node id)
  name : ∀ id, id.index < t.size → (u.node id).name = (t.node id).name
  parent : ∀ id, id.index < t.size → (u.node id).parent = (t.node id).parent
  children : ∀ id, (u.node id).children.Sublist ((t.node id).children ++ [t.nextId])
  defined : ∀ id, (u.node id).parent.isSome →
    (t.node id).parent.isSome ∨ (u.node id).definitions ≠ []

namespace Node.Edited

variable {mark : Span → Prop} {m n : Node}

/-- Nothing of what can be added was added. -/
theorem of_same (hl : n.labels = m.labels) (hd : n.definitions = m.definitions)
    (ht : n.deletedNodes = m.deletedNodes) (hf : m.deleted = true → n.deleted = true)
    (hp : m.PropertiesEdited mark n) : m.Edited mark n :=
  ⟨⟨[], by simp [hl], by simp⟩, ⟨[], by simp [hd], by simp⟩, ⟨[], by simp [ht], by simp⟩, hf, hp⟩

theorem refl (n : Node) : n.Edited mark n :=
  of_same rfl rfl rfl id (.same rfl rfl)

theorem opened (n : Node) {head : BlockHead}
    (h : ∀ t ∈ (Action.enter head).spans, mark t) : n.Edited mark (n.opened head) where
  labels := ⟨head.labels, rfl, fun label hm =>
    h _ (List.mem_cons_of_mem _ (List.mem_map_of_mem hm))⟩
  definitions := ⟨[head.ref], rfl, fun ref hm => by
    rw [List.mem_singleton.mp hm]
    exact h _ List.mem_cons_self⟩
  deletedNodes := ⟨[], by simp [Node.opened], by simp⟩
  deleted := id
  properties := .same rfl rfl

theorem define (n : Node) {definition : PropertyDef} (h : mark definition.span) :
    n.Edited mark (n.define definition) :=
  of_same rfl rfl rfl id (.define definition h rfl rfl)

theorem undefine (n : Node) (name : String) {deletedBy : AstRef} (h : mark deletedBy.span) :
    n.Edited mark ((n.undefine? name deletedBy).getD n) := by
  unfold Node.undefine?
  cases hold : n.property? name with
  | none => exact refl n
  | some p => exact of_same rfl rfl rfl id (.undefine p name deletedBy h hold rfl rfl)

end Node.Edited

namespace Tree.Edited

variable {mark : Span → Prop} {t : Tree}

theorem refl (t : Tree) : t.Edited mark t :=
  ⟨Nat.le_refl _, fun _ => .refl _, fun _ _ => rfl, fun _ _ => rfl,
    fun _ => List.sublist_append_left _ _, fun _ h => .inl h⟩

theorem modify (t : Tree) (id : NodeId) {f : Node → Node}
    (hf : ∀ n : Node, n.Edited mark (f n)) (hs : ∀ n : Node, n.SameShape (f n)) :
    t.Edited mark (t.modify id f) := by
  have hshape := t.sameShape_modify id hs
  refine ⟨Nat.le_of_eq hshape.size, fun other => ?_, fun other _ => (hshape.node other).name.symm,
    fun other _ => (hshape.node other).parent.symm, fun other => ?_, fun other h => .inl ?_⟩
  · rw [node_modify]
    split
    · exact hf _
    · exact .refl _
  · rw [← (hshape.node other).children]
    exact List.sublist_append_left _ _
  · rwa [(hshape.node other).parent]

section Enter

variable {head : BlockHead} (h : ∀ t ∈ (Action.enter head).spans, mark t)
include h

theorem opened (t : Tree) (id : NodeId) : t.Edited mark (t.modify id (·.opened head)) :=
  modify t id (fun n => .opened n h) (·.sameShape_opened head)

theorem addChild {parent : NodeId} (hp : parent.index < t.size) (name : UnitName) :
    t.Edited mark ((t.addChild parent name).modify t.nextId (·.opened head)) := by
  have old : ∀ {id : NodeId}, id ≠ t.nextId →
      ((t.addChild parent name).modify t.nextId (·.opened head)).node id =
        if id = parent then { t.node id with children := (t.node id).children ++ [t.nextId] }
        else t.node id := by
    intro id hid
    rw [node_modify_ne _ (Ne.symm hid), node_addChild hp, if_neg hid]
  have new : ((t.addChild parent name).modify t.nextId (·.opened head)).node t.nextId =
      (Node.blank name (some parent)).opened head := by
    rw [node_modify_self _ (by simp), node_addChild hp, if_pos rfl]
  refine ⟨by simp, fun id => ?_, fun id hid => ?_, fun id hid => ?_, fun id => ?_,
    fun id hparent => ?_⟩
  · by_cases hid : id = t.nextId
    · subst hid
      rw [new, node_nextId]
      -- Past the end of the old tree there is a blank node, so a new node only adds too.
      obtain ⟨hlabels, hdefinitions, -⟩ := Node.Edited.opened (Node.blank name (some parent)) h
      exact ⟨hlabels, hdefinitions, ⟨[], rfl, by simp⟩, id, .same rfl rfl⟩
    · rw [old hid]
      split
      · exact .of_same rfl rfl rfl (fun h => h) (.same rfl rfl)
      · exact .refl _
  · rw [old (ne_nextId hid)]
    split <;> rfl
  · rw [old (ne_nextId hid)]
    split <;> rfl
  · by_cases hid : id = t.nextId
    · subst hid
      rw [new]
      exact List.nil_sublist _
    · rw [old hid]
      split
      · exact List.Sublist.refl _
      · exact List.sublist_append_left _ _
  · by_cases hid : id = t.nextId
    · subst hid
      right
      rw [new]
      simp [Node.opened]
    · left
      rw [old hid] at hparent
      split at hparent <;> exact hparent

theorem addStandIn (t : Tree) :
    t.Edited mark (t.addStandIn.modify t.nextId (·.opened head)) := by
  have hedit := opened h t.addStandIn t.nextId
  have hshape := t.addStandIn.sameShape_modify t.nextId (·.sameShape_opened head)
  refine ⟨by simp, fun id => ?_, fun id hid => ?_, fun id hid => ?_, fun id => ?_,
    fun id hparent => ?_⟩
  · have hnode := hedit.node id
    rwa [node_addStandIn] at hnode
  · rw [← (hshape.node id).name, node_addStandIn]
  · rw [← (hshape.node id).parent, node_addStandIn]
  · rw [← (hshape.node id).children, node_addStandIn]
    exact List.sublist_append_left _ _
  · have hdefined := hedit.defined id hparent
    rwa [node_addStandIn] at hdefined

end Enter

theorem deleteNode? {u : Tree} {target : NodeId} {deletedBy : AstRef} (hw : t.WellFormed)
    (h : mark deletedBy.span) (hu : t.deleteNode? target deletedBy = some u) :
    t.Edited mark u := by
  obtain ⟨parent, hp, -⟩ := Option.map_eq_some_iff.mp hu
  have hlt := hw.parent_lt hp
  have hparent := deleteNode?_parent hp hlt hu
  refine ⟨Nat.le_of_eq (size_of_deleteNode? hu).symm, fun id => ?_,
    fun id _ => deleteNode?_name hp hlt hu id, fun id _ => hparent id, fun id => ?_,
    fun id hi => .inl ?_⟩
  · rw [node_of_deleteNode? hp hlt hu]
    split
    · exact .of_same rfl rfl rfl (fun _ => rfl) (.same rfl rfl)
    · split
      · refine ⟨⟨[], by simp, by simp⟩, ⟨[], by simp, by simp⟩, ⟨_, rfl, fun s hs => ?_⟩,
          fun h => h, .same rfl rfl⟩
        rw [List.mem_singleton.mp hs]
        exact h
      · exact .refl _
  · rw [deleteNode?_children hp hlt hu]
    split
    · exact List.filter_sublist.trans (List.sublist_append_left _ _)
    · exact List.sublist_append_left _ _
  · rwa [hparent] at hi

end Tree.Edited

/-- Every action edits the tree with its own spans alone. -/
theorem Outline.edited_step {o : Outline} (hs : o.Sound) {mark : Span → Prop} (a : Action)
    (h : ∀ t ∈ a.spans, mark t) : o.tree.Edited mark (o.step a).tree := by
  cases a with
  | clash name first => exact .refl _
  | leave => exact .refl _
  | property definition =>
      exact .modify _ _ (fun n => .define n (h _ List.mem_cons_self))
        (·.sameShape_define definition)
  | deleteProperty delete =>
      exact .modify _ _ (fun n => .undefine n _ (h _ List.mem_cons_self)) (·.sameShape_undefine _ _)
  | deleteNode delete =>
      simp only [step, deleteNode]
      cases o.doomed? delete.target with
      | none => exact .refl _
      | some target =>
          simp only [remove]
          cases hu : o.tree.deleteNode? target delete.ref with
          | none => exact .refl _
          | some tree => exact .deleteNode? hs.tree (h _ List.mem_cons_self) hu
  | enter head =>
      simp only [step, enter]
      split
      · exact .opened h _ _
      · cases o.tree.findChild? o.scope.node _ with
        | some child => exact .opened h _ _
        | none => exact .addChild h hs.scope_node_lt _
      · cases o.target? _ with
        | some node => exact .opened h _ _
        | none => exact .addStandIn h _

end Devicetree
