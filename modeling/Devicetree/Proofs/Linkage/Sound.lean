import Devicetree.Proofs.Linkage.Outline

/-!
# Linking keeps the tree well-formed

No node is deleted twice, since what a delete finds is never deleted: a child in force, a node
on a path from the root, or a node named by a label. The last needs that deleting a node
unbinds its labels and that labels are bound to nodes in force alone, which is part of the
invariant. Everything else is one step after the other.
-/

namespace Devicetree

namespace Outline

theorem mem_bind {labels : Table String NodeId} {node : NodeId} {bound : List Label}
    {e : String × NodeId} (h : e ∈ (bind labels node bound).entries) :
    (e.2 = node ∧ ∃ label ∈ bound, label.value = e.1) ∨ e ∈ labels.entries := by
  induction bound generalizing labels with
  | nil => exact .inr h
  | cons label bound ih =>
      rcases ih h with ⟨hn, other, ho, hv⟩ | h
      · exact .inl ⟨hn, other, List.mem_cons_of_mem _ ho, hv⟩
      · rcases Table.mem_entries_insert h with rfl | h
        · exact .inl ⟨rfl, label, List.mem_cons_self, rfl⟩
        · exact .inr h

/-- The state between two actions: the tree is well-formed, and what labels and open bodies
refer to is there. -/
structure Sound (o : Outline) : Prop where
  tree : o.tree.WellFormed
  label_lt : ∀ e ∈ o.labels.entries, e.2.index < o.tree.size
  label_kept : ∀ e ∈ o.labels.entries, (o.tree.node e.2).deleted = false
  scope_lt : ∀ s ∈ o.scopes, s.node.index < o.tree.size

namespace Sound

variable {o : Outline}

theorem start : start.Sound where
  tree := .start
  label_lt := fun _ h => by cases h
  label_kept := fun _ h => by cases h
  scope_lt := fun _ h => by cases h

theorem scope_node_lt (h : o.Sound) : o.scope.node.index < o.tree.size := by
  unfold scope
  split
  · exact h.tree.size_pos
  · rename_i s rest hs
    exact h.scope_lt s (hs ▸ List.mem_cons_self)

/-- A path names a live node. -/
theorem under_of_path {ref : PathRef} {node : NodeId}
    (ht : o.target? (.path ref) = some node) : o.tree.Under Tree.root node := by
  simp only [target?] at ht
  split at ht
  · cases ht
    cases hl : (o.tree.descend Tree.root (ref.segments.map (·.value))).getLast? with
    | none => exact .refl
    | some last => exact Tree.under_of_mem_descend (List.mem_of_getLast? hl)
  · cases ht

/-- What a reference names is there and in force. -/
theorem of_target? (h : o.Sound) {ref : Reference} {node : NodeId}
    (ht : o.target? ref = some node) :
    node.index < o.tree.size ∧ (o.tree.node node).deleted = false := by
  cases ref with
  | label ref =>
      have hm := Table.mem_of_get? ht
      exact ⟨h.label_lt _ hm, h.label_kept _ hm⟩
  | path ref =>
      have hl := h.tree.isLive_iff_under.mpr (under_of_path ht)
      exact ⟨h.tree.lt_size_of_isLive hl, h.tree.kept_of_isLive hl⟩

theorem define (h : o.Sound) {head : BlockHead} {node : NodeId} {detached : Bool}
    (hn : node.index < o.tree.size)
    (hk : detached = false → (o.tree.node node).deleted = false) :
    (o.define head node detached).Sound := by
  have hs : o.tree.SameShape (o.define head node detached).tree :=
    o.tree.sameShape_modify node (·.sameShape_opened head)
  have hlabel : ∀ e ∈ (o.define head node detached).labels.entries,
      e.2.index < o.tree.size ∧ (o.tree.node e.2).deleted = false := by
    intro e he
    have old : e ∈ o.labels.entries →
        e.2.index < o.tree.size ∧ (o.tree.node e.2).deleted = false :=
      fun he => ⟨h.label_lt e he, h.label_kept e he⟩
    cases detached with
    | true => exact old he
    | false =>
        rcases mem_bind he with ⟨rfl, -⟩ | he
        · exact ⟨hn, hk rfl⟩
        · exact old he
  refine ⟨h.tree.of_sameShape hs, fun e he => ?_, fun e he => ?_, fun s hm => ?_⟩
  · exact hs.size ▸ (hlabel e he).1
  · exact (hs.node e.2).deleted ▸ (hlabel e he).2
  · rw [← hs.size]
    rcases List.mem_cons.mp hm with rfl | hm
    · exact hn
    · exact h.scope_lt s hm

theorem addChild (h : o.Sound) {parent : NodeId} {name : UnitName}
    (hp : parent.index < o.tree.size) (hf : o.tree.findChild? parent name = none) :
    { o with tree := o.tree.addChild parent name }.Sound where
  tree := h.tree.addChild hp hf
  label_lt := fun e he => by
    rw [Tree.size_addChild]
    exact Nat.lt_succ_of_lt (h.label_lt e he)
  label_kept := fun e he => by
    rw [Tree.addChild_deleted hp]
    exact h.label_kept e he
  scope_lt := fun s hs => by
    rw [Tree.size_addChild]
    exact Nat.lt_succ_of_lt (h.scope_lt s hs)

theorem addStandIn (h : o.Sound) : { o with tree := o.tree.addStandIn }.Sound where
  tree := h.tree.addStandIn
  label_lt := fun e he => by
    rw [Tree.size_addStandIn]
    exact Nat.lt_succ_of_lt (h.label_lt e he)
  label_kept := fun e he => by
    rw [Tree.node_addStandIn]
    exact h.label_kept e he
  scope_lt := fun s hs => by
    rw [Tree.size_addStandIn]
    exact Nat.lt_succ_of_lt (h.scope_lt s hs)

theorem enter (h : o.Sound) (head : BlockHead) : (o.enter head).Sound := by
  unfold Outline.enter
  split
  · exact h.define h.tree.size_pos fun _ => h.tree.root_kept
  · rename_i name _
    cases hf : o.tree.findChild? o.scope.node name.value with
    | some child =>
        have hc := (Tree.mem_of_findChild? hf).1
        exact h.define (h.tree.lt_size_of_mem_children hc) fun _ => (h.tree.mem_children.mp hc).2
    | none =>
        apply (h.addChild h.scope_node_lt hf).define
        · simp
        · intro _
          rw [Tree.addChild_deleted h.scope_node_lt, Tree.node_nextId]
          rfl
  · rename_i ref _
    cases ht : o.target? ref with
    | some node =>
        obtain ⟨hn, hk⟩ := h.of_target? ht
        exact h.define hn fun _ => hk
    | none =>
        apply h.addStandIn.define
        · simp
        · intro hd
          cases hd

theorem remove (h : o.Sound) {target : NodeId} {deletedBy : AstRef}
    (hk : (o.tree.node target).deleted = false) : (o.remove target deletedBy).Sound := by
  unfold Outline.remove
  cases hu : o.tree.deleteNode? target deletedBy with
  | none => exact h
  | some tree =>
      have hsize := Tree.size_of_deleteNode? hu
      obtain ⟨parent, hp, -⟩ := Option.map_eq_some_iff.mp hu
      refine ⟨h.tree.deleteNode? hk hu, fun e he => ?_, fun e he => ?_, fun s hs => ?_⟩
      · rw [hsize]
        exact h.label_lt e (List.mem_of_mem_filter he)
      · -- The deleted node heads its own subtree, so no label is left on it.
        have hne : e.2 ≠ target := by
          rintro rfl
          have hout := List.of_mem_filter he
          simp [tree.self_mem_subtree] at hout
        rw [Tree.deleteNode?_deleted hp (h.tree.parent_lt hp) hu, if_neg hne]
        exact h.label_kept e (List.mem_of_mem_filter he)
      · rw [hsize]
        exact h.scope_lt s hs

theorem kept_of_doomed? (h : o.Sound) {target : DeleteTarget} {node : NodeId}
    (ht : o.doomed? target = some node) : (o.tree.node node).deleted = false := by
  cases target with
  | name name => exact (h.tree.mem_children.mp (Tree.mem_of_findChild? ht).1).2
  | reference ref => exact (h.of_target? ht).2

theorem modify (h : o.Sound) {id : NodeId} {f : Node → Node}
    (hf : ∀ n : Node, n.SameShape (f n)) : { o with tree := o.tree.modify id f }.Sound := by
  have hs := o.tree.sameShape_modify id hf
  refine ⟨h.tree.of_sameShape hs, fun e he => ?_, fun e he => ?_, fun s hm => ?_⟩
  · exact hs.size ▸ h.label_lt e he
  · exact (hs.node e.2).deleted ▸ h.label_kept e he
  · exact hs.size ▸ h.scope_lt s hm

/-- Every action keeps the invariant. -/
theorem step (h : o.Sound) (a : Action) : (o.step a).Sound := by
  cases a with
  | clash name first => exact h
  | enter head => exact h.enter head
  | leave =>
      exact ⟨h.tree, h.label_lt, h.label_kept,
        fun s hs => h.scope_lt s (List.mem_of_mem_tail hs)⟩
  | property definition => exact h.modify (·.sameShape_define definition)
  | deleteNode delete =>
      simp only [Outline.step, Outline.deleteNode]
      cases ht : o.doomed? delete.target with
      | some target => exact h.remove (h.kept_of_doomed? ht)
      | none => exact h
  | deleteProperty delete => exact h.modify (·.sameShape_undefine _ _)

theorem run (h : o.Sound) (actions : List Action) : (o.run actions).Sound := by
  induction actions generalizing o with
  | nil => exact h
  | cons a actions ih => exact ih (h.step a)

end Sound

end Outline

namespace Linkage

theorem sound_outlineOf (files : List SourceFile) : (outlineOf files).Sound :=
  Outline.Sound.start.run _

theorem sound_passAt (files : List SourceFile) (count : Nat) :
    (passAt files count).outline.Sound := by
  rw [outline_passAt]
  exact Outline.Sound.start.run _

theorem wellFormed_of_bare {t : Tree} (h : t.bare.WellFormed) : t.WellFormed :=
  h.of_sameShape t.sameShape_bare.symm

theorem wellFormed_link (files : List SourceFile) (reportUnresolved : Bool) (generation : Nat) :
    (link files reportUnresolved generation).tree.WellFormed := by
  apply wellFormed_of_bare
  rw [link_tree_bare]
  exact (sound_outlineOf files).tree

/-- Between any two actions, and in the result, the tree is well-formed. -/
theorem wellFormed_throughout (files : List SourceFile) (reportUnresolved : Bool)
    (generation : Nat) :
    (∀ count, (passAt files count).tree.WellFormed) ∧
      (link files reportUnresolved generation).tree.WellFormed := by
  constructor
  · intro count
    exact wellFormed_of_bare (sound_passAt files count).tree
  · exact wellFormed_link files reportUnresolved generation

end Linkage

end Devicetree
