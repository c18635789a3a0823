import Devicetree.Tree.Basic

/-!
# Reading a tree after a change

A tree is determined by its size and by the node at each place. The statements below say what
stands at a place after each of the four changes a tree can undergo: one node is modified, a
child is added, a stand-in is added, a node is deleted.
-/

namespace Devicetree

namespace Tree

theorem node_of_size_le {t : Tree} {id : NodeId} (h : t.size ≤ id.index) :
    t.node id = .blank ⟨"", none⟩ none := by
  unfold node
  rw [Array.getElem?_eq_none h]
  rfl

theorem lt_size_of_parent {t : Tree} {id parent : NodeId}
    (h : (t.node id).parent = some parent) : id.index < t.size := by
  apply Nat.lt_of_not_le
  intro hge
  rw [node_of_size_le hge] at h
  cases h

/-- Two trees of one size with the same node everywhere are equal. -/
theorem ext_node {t u : Tree} (hs : t.size = u.size) (hn : ∀ id, t.node id = u.node id) :
    t = u := by
  cases t with
  | mk ts =>
      cases u with
      | mk us =>
          congr 1
          apply Array.ext hs
          intro i hi hj
          have h := hn ⟨i⟩
          simpa [node, Array.getElem?_eq_getElem hi, Array.getElem?_eq_getElem hj] using h

@[simp] theorem size_modify (t : Tree) (id : NodeId) (f : Node → Node) :
    (t.modify id f).size = t.size := by
  simp [modify, size]

theorem node_modify (t : Tree) (id other : NodeId) (f : Node → Node) :
    (t.modify id f).node other =
      if id = other ∧ other.index < t.size then f (t.node other) else t.node other := by
  cases id with
  | mk i =>
      cases other with
      | mk j =>
          simp only [node, modify, size, NodeId.mk.injEq, Array.getElem?_modify]
          by_cases hij : i = j
          · subst hij
            by_cases hi : i < t.nodes.size
            · simp [hi]
            · simp [hi]
          · simp [hij]

theorem node_modify_self {t : Tree} {id : NodeId} (f : Node → Node) (h : id.index < t.size) :
    (t.modify id f).node id = f (t.node id) := by
  simp [node_modify, h]

theorem node_modify_ne {t : Tree} {id other : NodeId} (f : Node → Node) (h : id ≠ other) :
    (t.modify id f).node other = t.node other := by
  simp [node_modify, h]

@[simp] theorem nextId_index (t : Tree) : t.nextId.index = t.size := rfl

theorem ne_nextId {t : Tree} {id : NodeId} (h : id.index < t.size) : id ≠ t.nextId := by
  rintro rfl
  exact Nat.lt_irrefl _ h

@[simp] theorem size_start : start.size = 1 := rfl

@[simp] theorem size_addStandIn (t : Tree) : t.addStandIn.size = t.size + 1 := by
  simp [addStandIn, size]

/-- A stand-in says nothing, like a place past the end. -/
@[simp] theorem node_addStandIn (t : Tree) (id : NodeId) : t.addStandIn.node id = t.node id := by
  simp only [node, addStandIn, Array.getElem?_push]
  split
  · rename_i h
    rw [h, Array.getElem?_eq_none (Nat.le_refl _)]
    rfl
  · rfl

@[simp] theorem size_addChild (t : Tree) (parent : NodeId) (name : UnitName) :
    (t.addChild parent name).size = t.size + 1 := by
  simp [addChild, size, modify]

theorem node_addChild {t : Tree} {parent : NodeId} (h : parent.index < t.size) (name : UnitName)
    (id : NodeId) :
    (t.addChild parent name).node id =
      if id = t.nextId then .blank name (some parent)
      else if id = parent then
        { t.node id with children := (t.node id).children ++ [t.nextId] }
      else t.node id := by
  have pushed : ∀ id, (⟨t.nodes.push (.blank name (some parent))⟩ : Tree).node id =
      if id = t.nextId then .blank name (some parent) else t.node id := by
    rintro ⟨i⟩
    simp only [node, Array.getElem?_push, nextId, size, NodeId.mk.injEq]
    split <;> rfl
  unfold addChild
  by_cases hp : id = parent
  · subst hp
    have hne := ne_nextId h
    rw [node_modify_self, pushed, if_neg hne, if_neg hne, if_pos rfl]
    simpa [size] using Nat.lt_succ_of_lt h
  · rw [node_modify_ne _ (Ne.symm hp), pushed, if_neg hp]

theorem node_nextId (t : Tree) : t.node t.nextId = .blank ⟨"", none⟩ none :=
  node_of_size_le (Nat.le_refl _)

section AddChild

variable {t : Tree} {parent : NodeId} (h : parent.index < t.size) (name : UnitName) (id : NodeId)
include h

theorem addChild_name :
    ((t.addChild parent name).node id).name =
      if id = t.nextId then name else (t.node id).name := by
  rw [node_addChild h]
  split
  · rfl
  · split <;> rfl

theorem addChild_parent :
    ((t.addChild parent name).node id).parent =
      if id = t.nextId then some parent else (t.node id).parent := by
  rw [node_addChild h]
  split
  · rfl
  · split <;> rfl

theorem addChild_deleted :
    ((t.addChild parent name).node id).deleted = (t.node id).deleted := by
  rw [node_addChild h]
  split
  · rename_i hid
    rw [hid, node_nextId]
    rfl
  · split <;> rfl

theorem addChild_deletedNodes :
    ((t.addChild parent name).node id).deletedNodes = (t.node id).deletedNodes := by
  rw [node_addChild h]
  split
  · rename_i hid
    rw [hid, node_nextId]
    rfl
  · split <;> rfl

theorem addChild_children :
    ((t.addChild parent name).node id).children =
      if id = parent then (t.node id).children ++ [t.nextId] else (t.node id).children := by
  rw [node_addChild h]
  split
  · rename_i hid
    subst hid
    rw [if_neg (ne_nextId h).symm, node_nextId]
    rfl
  · split <;> rfl

end AddChild

theorem size_of_deleteNode? {t u : Tree} {target : NodeId} {deletedBy : AstRef}
    (h : t.deleteNode? target deletedBy = some u) : u.size = t.size := by
  obtain ⟨parent, -, rfl⟩ := Option.map_eq_some_iff.mp h
  simp

/-- What stands where after a node is deleted: the node is flagged, its parent has one child
less and one tombstone more, and nothing else changes. -/
theorem node_of_deleteNode? {t u : Tree} {target parent : NodeId} {deletedBy : AstRef}
    (hp : (t.node target).parent = some parent) (hlt : parent.index < target.index)
    (h : t.deleteNode? target deletedBy = some u) (id : NodeId) :
    u.node id =
      if id = target then { t.node id with deleted := true }
      else if id = parent then
        { t.node id with
          children := (t.node id).children.filter (· ≠ target)
          deletedNodes := (t.node id).deletedNodes ++ [⟨target, deletedBy⟩] }
      else t.node id := by
  have hsize := lt_size_of_parent hp
  have hne : parent ≠ target := by
    rintro rfl
    exact Nat.lt_irrefl _ hlt
  simp only [deleteNode?, hp, Option.map_some, Option.some.injEq] at h
  subst h
  by_cases ht : id = target
  · subst ht
    rw [if_pos rfl, node_modify_self _ (by simpa using hsize), node_modify_ne _ hne]
  · rw [if_neg ht, node_modify_ne _ (Ne.symm ht)]
    by_cases hq : id = parent
    · subst hq
      rw [if_pos rfl, node_modify_self _ (Nat.lt_trans hlt hsize)]
    · rw [if_neg hq, node_modify_ne _ (Ne.symm hq)]

section DeleteNode

variable {t u : Tree} {target parent : NodeId} {deletedBy : AstRef}
  (hp : (t.node target).parent = some parent) (hlt : parent.index < target.index)
  (h : t.deleteNode? target deletedBy = some u) (id : NodeId)
include hp hlt h

theorem deleteNode?_name : (u.node id).name = (t.node id).name := by
  rw [node_of_deleteNode? hp hlt h]
  split
  · rfl
  · split <;> rfl

theorem deleteNode?_parent : (u.node id).parent = (t.node id).parent := by
  rw [node_of_deleteNode? hp hlt h]
  split
  · rfl
  · split <;> rfl

theorem deleteNode?_deleted :
    (u.node id).deleted = if id = target then true else (t.node id).deleted := by
  rw [node_of_deleteNode? hp hlt h]
  split
  · rfl
  · split <;> rfl

theorem deleteNode?_children :
    (u.node id).children =
      if id = parent then (t.node id).children.filter (· ≠ target) else (t.node id).children := by
  rw [node_of_deleteNode? hp hlt h]
  split
  · rename_i hid
    subst hid
    rw [if_neg]
    rintro rfl
    exact Nat.lt_irrefl _ hlt
  · split <;> rfl

theorem deleteNode?_deletedNodes :
    (u.node id).deletedNodes =
      if id = parent then (t.node id).deletedNodes ++ [⟨target, deletedBy⟩]
      else (t.node id).deletedNodes := by
  rw [node_of_deleteNode? hp hlt h]
  split
  · rename_i hid
    subst hid
    rw [if_neg]
    rintro rfl
    exact Nat.lt_irrefl _ hlt
  · split <;> rfl

end DeleteNode

end Tree

end Devicetree
