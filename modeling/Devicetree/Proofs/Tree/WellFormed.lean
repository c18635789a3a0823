import Mathlib.Data.List.Nodup
import Devicetree.Proofs.Tree.Access

/-!
# Well-formed trees

Every node with a parent is either a child in force of that parent or has one tombstone there,
never both and never elsewhere. The four changes a tree can undergo keep it so, provided that
no deleted node is deleted again and no child is added beside one of its name.
-/

namespace Devicetree

namespace Node

/-- Two nodes agree on everything that says how they hang together with others. -/
structure SameShape (m n : Node) : Prop where
  name : m.name = n.name
  parent : m.parent = n.parent
  children : m.children = n.children
  deletedNodes : m.deletedNodes = n.deletedNodes
  deleted : m.deleted = n.deleted

theorem SameShape.refl (n : Node) : n.SameShape n :=
  ⟨rfl, rfl, rfl, rfl, rfl⟩

end Node

namespace Tree

/-- Two trees whose nodes hang together in the same way. -/
structure SameShape (t u : Tree) : Prop where
  size : t.size = u.size
  node : ∀ id, (t.node id).SameShape (u.node id)

theorem SameShape.symm {t u : Tree} (h : t.SameShape u) : u.SameShape t where
  size := h.size.symm
  node := fun id =>
    ⟨(h.node id).name.symm, (h.node id).parent.symm, (h.node id).children.symm,
      (h.node id).deletedNodes.symm, (h.node id).deleted.symm⟩

theorem sameShape_modify (t : Tree) (id : NodeId) {f : Node → Node}
    (hf : ∀ n : Node, n.SameShape (f n)) : t.SameShape (t.modify id f) := by
  refine ⟨(size_modify t id f).symm, fun other => ?_⟩
  rw [node_modify]
  split
  · exact hf _
  · exact .refl _

/-- How the nodes of a tree hang together. -/
structure WellFormed (t : Tree) : Prop where
  size_pos : 0 < t.size
  root_parent : (t.node root).parent = none
  root_kept : (t.node root).deleted = false
  parent_lt : ∀ {id parent}, (t.node id).parent = some parent → parent.index < id.index
  /-- A node is a child of its parent alone, exactly once, and only while it is not deleted. -/
  count_children : ∀ parent id, (t.node parent).children.count id =
    if (t.node id).parent = some parent ∧ (t.node id).deleted = false then 1 else 0
  deleted_parent : ∀ {id}, (t.node id).deleted = true → (t.node id).parent.isSome
  /-- A node has a tombstone in its parent alone, exactly one, and only once it is deleted. -/
  count_tombstones : ∀ parent id, (t.node parent).deletedNodes.countP (·.target = id) =
    if (t.node id).parent = some parent ∧ (t.node id).deleted = true then 1 else 0
  /-- No two children in force of one node have the same name and unit address. -/
  siblings : ∀ {parent a b}, a ∈ (t.node parent).children → b ∈ (t.node parent).children →
    (t.node a).name = (t.node b).name → a = b

theorem node_start (id : NodeId) :
    start.node id = if id = root then .blank ⟨"/", none⟩ none else .blank ⟨"", none⟩ none := by
  split
  · rename_i h
    rw [h]
    rfl
  · rename_i h
    apply node_of_size_le
    rw [size_start]
    apply Nat.one_le_iff_ne_zero.mpr
    rintro hz
    exact h (congrArg NodeId.mk hz)

namespace WellFormed

variable {t u : Tree}

theorem mem_children (h : t.WellFormed) {parent id : NodeId} :
    id ∈ (t.node parent).children ↔
      (t.node id).parent = some parent ∧ (t.node id).deleted = false := by
  rw [← List.count_pos_iff, h.count_children]
  split <;> simp_all

theorem nodup_children (h : t.WellFormed) (parent : NodeId) : (t.node parent).children.Nodup := by
  refine List.nodup_iff_count_le_one.mpr fun id => ?_
  rw [h.count_children]
  split <;> simp

theorem mem_tombstones (h : t.WellFormed) {parent id : NodeId} :
    (∃ s ∈ (t.node parent).deletedNodes, s.target = id) ↔
      (t.node id).parent = some parent ∧ (t.node id).deleted = true := by
  have hpos := List.countP_pos_iff (p := fun s => decide (s.target = id))
    (l := (t.node parent).deletedNodes)
  rw [h.count_tombstones] at hpos
  simp only [decide_eq_true_eq] at hpos
  rw [← hpos]
  split <;> simp_all

theorem lt_size_of_mem_children (h : t.WellFormed) {parent id : NodeId}
    (hc : id ∈ (t.node parent).children) : id.index < t.size :=
  lt_size_of_parent (h.mem_children.mp hc).1

theorem lt_of_mem_children (h : t.WellFormed) {parent id : NodeId}
    (hc : id ∈ (t.node parent).children) : parent.index < id.index :=
  h.parent_lt (h.mem_children.mp hc).1

/-- Only the way in which nodes hang together matters. -/
theorem of_sameShape (h : t.WellFormed) (hs : t.SameShape u) : u.WellFormed where
  size_pos := hs.size ▸ h.size_pos
  root_parent := (hs.node root).parent ▸ h.root_parent
  root_kept := (hs.node root).deleted ▸ h.root_kept
  parent_lt := fun {id parent} hp => h.parent_lt ((hs.node id).parent.trans hp)
  count_children := fun parent id => by
    rw [← (hs.node parent).children, ← (hs.node id).parent, ← (hs.node id).deleted]
    exact h.count_children parent id
  deleted_parent := fun {id} hd => by
    rw [← (hs.node id).parent]
    exact h.deleted_parent ((hs.node id).deleted.trans hd)
  count_tombstones := fun parent id => by
    rw [← (hs.node parent).deletedNodes, ← (hs.node id).parent, ← (hs.node id).deleted]
    exact h.count_tombstones parent id
  siblings := fun {parent a b} ha hb hn => by
    rw [← (hs.node parent).children] at ha hb
    rw [← (hs.node a).name, ← (hs.node b).name] at hn
    exact h.siblings ha hb hn

theorem start : start.WellFormed where
  size_pos := Nat.one_pos
  root_parent := rfl
  root_kept := rfl
  parent_lt := fun {id _} hp => by
    rw [node_start] at hp
    split at hp <;> cases hp
  count_children := fun parent id => by
    simp only [node_start]
    split <;> split <;> simp [Node.blank]
  deleted_parent := fun {id} hd => by
    rw [node_start] at hd
    split at hd <;> cases hd
  count_tombstones := fun parent id => by
    simp only [node_start]
    split <;> split <;> simp [Node.blank]
  siblings := fun {parent a b} ha _ _ => by
    rw [node_start] at ha
    split at ha <;> cases ha

theorem addStandIn (h : t.WellFormed) : t.addStandIn.WellFormed where
  size_pos := by simp
  root_parent := by simpa using h.root_parent
  root_kept := by simpa using h.root_kept
  parent_lt := fun hp => h.parent_lt (by simpa using hp)
  count_children := by simpa using h.count_children
  deleted_parent := fun hd => by simpa using h.deleted_parent (by simpa using hd)
  count_tombstones := by simpa using h.count_tombstones
  siblings := fun ha hb hn => h.siblings (by simpa using ha) (by simpa using hb) (by simpa using hn)

/-- The place of the next node is nobody's child yet. -/
theorem nextId_not_mem_children (h : t.WellFormed) (parent : NodeId) :
    t.nextId ∉ (t.node parent).children :=
  fun hc => ne_nextId (h.lt_size_of_mem_children hc) rfl

/-- A child may be added where none of its name is in force. -/
theorem addChild (h : t.WellFormed) {parent : NodeId} {name : UnitName}
    (hp : parent.index < t.size) (hn : t.findChild? parent name = none) :
    (t.addChild parent name).WellFormed where
  size_pos := by simp
  root_parent := by
    have hne : root ≠ t.nextId := ne_nextId h.size_pos
    rw [addChild_parent hp, if_neg hne]
    exact h.root_parent
  root_kept := by
    rw [addChild_deleted hp]
    exact h.root_kept
  parent_lt := fun {id q} hq => by
    rw [addChild_parent hp] at hq
    split at hq
    · rename_i hid
      cases hq
      rw [hid]
      exact hp
    · exact h.parent_lt hq
  count_children := fun q id => by
    rw [addChild_children hp, addChild_parent hp, addChild_deleted hp]
    by_cases hid : id = t.nextId
    · subst hid
      have none_before := List.count_eq_zero.mpr (h.nextId_not_mem_children q)
      by_cases hq : q = parent
      · subst hq
        simp [none_before, node_nextId, Node.blank]
      · simp [none_before, hq, Ne.symm hq]
    · rw [if_neg hid]
      by_cases hq : q = parent
      · subst hq
        simp [Ne.symm hid, h.count_children]
      · simp [hq, h.count_children]
  deleted_parent := fun {id} hd => by
    rw [addChild_deleted hp] at hd
    rw [addChild_parent hp]
    split
    · rfl
    · exact h.deleted_parent hd
  count_tombstones := fun q id => by
    rw [addChild_deletedNodes hp, addChild_parent hp, addChild_deleted hp, h.count_tombstones]
    by_cases hid : id = t.nextId
    · subst hid
      simp [node_nextId, Node.blank]
    · rw [if_neg hid]
  siblings := fun {q a b} ha hb hab => by
    rw [addChild_children hp] at ha hb
    rw [addChild_name hp, addChild_name hp] at hab
    have old : ∀ {c}, c ∈ (t.node q).children → c ≠ t.nextId := by
      rintro c hc rfl
      exact h.nextId_not_mem_children q hc
    by_cases hq : q = parent
    · subst hq
      have fresh : ∀ c ∈ (t.node q).children, (t.node c).name ≠ name := by
        simpa [findChild?] using hn
      simp only [if_true, List.mem_append, List.mem_singleton] at ha hb
      rcases ha with ha | rfl <;> rcases hb with hb | rfl
      · rw [if_neg (old ha), if_neg (old hb)] at hab
        exact h.siblings ha hb hab
      · rw [if_neg (old ha), if_pos rfl] at hab
        exact absurd hab (fresh a ha)
      · rw [if_pos rfl, if_neg (old hb)] at hab
        exact absurd hab.symm (fresh b hb)
      · rfl
    · rw [if_neg hq] at ha hb
      rw [if_neg (old ha), if_neg (old hb)] at hab
      exact h.siblings ha hb hab

/-- A node that is not deleted may be deleted. -/
theorem deleteNode? (h : t.WellFormed) {target : NodeId} {deletedBy : AstRef}
    (hk : (t.node target).deleted = false) (hu : t.deleteNode? target deletedBy = some u) :
    u.WellFormed := by
  obtain ⟨parent, hp, -⟩ := Option.map_eq_some_iff.mp hu
  have hlt := h.parent_lt hp
  have name := deleteNode?_name hp hlt hu
  have parents := deleteNode?_parent hp hlt hu
  have deleted := deleteNode?_deleted hp hlt hu
  have children := deleteNode?_children hp hlt hu
  have deletedNodes := deleteNode?_deletedNodes hp hlt hu
  have root_ne : root ≠ target := by
    rintro rfl
    rw [h.root_parent] at hp
    cases hp
  exact
  { size_pos := size_of_deleteNode? hu ▸ h.size_pos
    root_parent := (parents root).trans h.root_parent
    root_kept := by rw [deleted, if_neg root_ne, h.root_kept]
    parent_lt := fun {id q} hq => h.parent_lt ((parents id).symm.trans hq)
    count_children := fun q id => by
      rw [children, parents, deleted]
      by_cases hid : id = target
      · subst hid
        by_cases hq : q = parent
        · subst hq
          simp [List.count_eq_zero]
        · have hne : (t.node id).parent ≠ some q := by
            rw [hp]
            exact fun he => hq (Option.some.inj he).symm
          simp [hq, h.count_children, hne]
      · rw [if_neg hid, ← h.count_children q id]
        split
        · exact List.count_filter (by simpa using hid)
        · rfl
    deleted_parent := fun {id} hd => by
      rw [parents]
      rw [deleted] at hd
      split at hd
      · rename_i hid
        rw [hid, hp]
        rfl
      · exact h.deleted_parent hd
    count_tombstones := fun q id => by
      rw [deletedNodes, parents, deleted]
      by_cases hid : id = target
      · subst hid
        by_cases hq : q = parent
        · subst hq
          simp [h.count_tombstones, hp, hk]
        · have hne : (t.node id).parent ≠ some q := by
            rw [hp]
            exact fun he => hq (Option.some.inj he).symm
          simp [hq, h.count_tombstones, hne]
      · rw [if_neg hid, ← h.count_tombstones q id]
        split
        · simp [Ne.symm hid]
        · rfl
    siblings := fun {q a b} ha hb hab => by
      have sub : ∀ {c}, c ∈ (u.node q).children → c ∈ (t.node q).children := by
        intro c hc
        rw [children] at hc
        split at hc
        · exact List.mem_of_mem_filter hc
        · exact hc
      exact h.siblings (sub ha) (sub hb) (by rw [← name a, ← name b, hab]) }

end WellFormed

end Tree

end Devicetree
