import Devicetree.Proofs.Linkage.Sound

/-!
# How labels are bound

A block binds its labels to the node it opens, unless its body is detached, and a delete unbinds
the labels below it. No other action touches the labels.
-/

namespace Devicetree

namespace Table

variable {κ ν : Type} [DecidableEq κ]

/-- A table after writing some entries in order. -/
def insertAll (t : Table κ ν) (es : List (κ × ν)) : Table κ ν :=
  es.foldl (fun t e => t.insert e.1 e.2) t

theorem insertAll_cons (t : Table κ ν) (e : κ × ν) (es : List (κ × ν)) :
    t.insertAll (e :: es) = (t.insert e.1 e.2).insertAll es := rfl

theorem mem_entries_insertAll {t : Table κ ν} {es : List (κ × ν)} {e : κ × ν}
    (h : e ∈ (t.insertAll es).entries) : e ∈ es ∨ e ∈ t.entries := by
  induction es generalizing t with
  | nil => exact .inr h
  | cons d es ih =>
      rcases ih h with h | h
      · exact .inl (List.mem_cons_of_mem _ h)
      · rcases mem_entries_insert h with rfl | h
        · exact .inl List.mem_cons_self
        · exact .inr h

theorem get?_insertAll_eq_none {t : Table κ ν} {es : List (κ × ν)} {k : κ} :
    (t.insertAll es).get? k = none ↔ t.get? k = none ∧ ∀ e ∈ es, e.1 ≠ k := by
  induction es generalizing t with
  | nil => simp [insertAll]
  | cons e es ih =>
      rw [insertAll_cons, ih, get?_insert, List.forall_mem_cons, ← and_assoc]
      by_cases he : e.1 = k <;> simp [he]

/-- Writing one value under some keys. -/
theorem get?_insertAll_const {α : Type} (t : Table κ ν) (key : α → κ) (v : ν) (xs : List α)
    (k : κ) :
    (t.insertAll (xs.map fun x => (key x, v))).get? k =
      if k ∈ xs.map key then some v else t.get? k := by
  induction xs generalizing t with
  | nil => simp [insertAll]
  | cons x xs ih =>
      rw [List.map_cons, insertAll_cons, ih, get?_insert, List.map_cons]
      by_cases hx : key x = k
      · simp [hx]
      · simp only [List.mem_cons, if_neg hx, Ne.symm hx, false_or]

theorem lookup?_eq_none {k : κ} {es : List (κ × ν)} :
    lookup? k es = none ↔ ∀ e ∈ es, e.1 ≠ k := by
  induction es with
  | nil => simp [lookup?]
  | cons e es ih => grind [lookup?]

/-- Filtering brings no key into a table. -/
theorem get?_filterValues_none {t : Table κ ν} {k : κ} (h : t.get? k = none) (p : ν → Bool) :
    (t.filterValues p).get? k = none :=
  lookup?_eq_none.mpr fun e he => lookup?_eq_none.mp h e (List.mem_of_mem_filter he)

end Table

/-- What the statements about a node say of it, wherever it hangs. -/
def Node.tale (n : Node) : Node where
  __ := Node.blank ⟨"", none⟩ none
  definitions := n.definitions
  labels := n.labels
  properties := n.properties
  deletedProperties := n.deletedProperties

section Tale

variable {m n : Node} (h : m.tale = n.tale)
include h

theorem Node.labels_of_tale : m.labels = n.labels :=
  (congrArg Node.labels h :)

theorem Node.properties_of_tale : m.properties = n.properties :=
  (congrArg Node.properties h :)

end Tale

namespace Tree

/-- A new child says nothing yet, and it changes nothing that is said of others. -/
theorem tale_addChild {t : Tree} {parent : NodeId} (h : parent.index < t.size) (name : UnitName)
    (id : NodeId) : ((t.addChild parent name).node id).tale = (t.node id).tale := by
  rw [node_addChild h]
  split
  · rename_i hid
    rw [hid, node_nextId]
    rfl
  · split <;> rfl

theorem tale_deleteNode? {t u : Tree} (ht : t.WellFormed) {target : NodeId} {deletedBy : AstRef}
    (h : t.deleteNode? target deletedBy = some u) (id : NodeId) :
    (u.node id).tale = (t.node id).tale := by
  obtain ⟨parent, hp, -⟩ := Option.map_eq_some_iff.mp h
  rw [node_of_deleteNode? hp (ht.parent_lt hp) h]
  split
  · rfl
  · split <;> rfl

end Tree

namespace Outline

variable {o : Outline}

/-- The labels that an action binds, with the node it binds them to. -/
def bound (o : Outline) : Action → List (String × NodeId)
  | .enter head =>
    if (o.enter head).scope.detached then []
    else head.labels.map fun label => (label.value, (o.enter head).scope.node)
  | _ => []

/-- Opening a block defines a node. The tree may have grown by that node before, but it tells
the same of every node. -/
theorem enter_eq_define (hs : o.Sound) (head : BlockHead) :
    ∃ (t : Tree) (node : NodeId) (detached : Bool),
      o.enter head = { o with tree := t }.define head node detached ∧
        node.index < t.size ∧ ∀ id, (t.node id).tale = (o.tree.node id).tale := by
  unfold enter
  split
  · exact ⟨_, _, _, rfl, hs.tree.size_pos, fun _ => rfl⟩
  · cases hf : o.tree.findChild? o.scope.node _ with
    | some child =>
        have hlt := hs.tree.lt_size_of_mem_children (Tree.mem_of_findChild? hf).1
        exact ⟨_, _, _, rfl, hlt, fun _ => rfl⟩
    | none => exact ⟨_, _, _, rfl, by simp, Tree.tale_addChild hs.scope_node_lt _⟩
  · cases ht : o.target? _ with
    | some node => exact ⟨_, _, _, rfl, (hs.of_target? ht).1, fun _ => rfl⟩
    | none => exact ⟨_, _, _, rfl, by simp, fun id => congrArg _ (Tree.node_addStandIn _ id)⟩

theorem scopes_enter (hs : o.Sound) (head : BlockHead) :
    (o.enter head).scopes = (o.enter head).scope :: o.scopes := by
  obtain ⟨t, node, detached, he, -⟩ := enter_eq_define hs head
  rw [he]
  rfl

/-- A block changes the labels by those it binds. -/
theorem labels_enter (hs : o.Sound) (head : BlockHead) :
    (o.enter head).labels = o.labels.insertAll (o.bound (.enter head)) := by
  obtain ⟨t, node, detached, he, -⟩ := enter_eq_define hs head
  simp only [bound, he]
  cases detached with
  | true => rfl
  | false =>
      change bind o.labels node head.labels =
        o.labels.insertAll (head.labels.map fun label => (label.value, node))
      rw [bind, Table.insertAll, List.foldl_map]

/-- A delete says nothing new of any node but its place in the tree. -/
theorem tale_remove (hs : o.Sound) (target : NodeId) (deletedBy : AstRef) (id : NodeId) :
    ((o.remove target deletedBy).tree.node id).tale = (o.tree.node id).tale := by
  unfold remove
  cases hu : o.tree.deleteNode? target deletedBy with
  | none => rfl
  | some tree => exact Tree.tale_deleteNode? hs.tree hu id

/-- An action binds labels, or it deletes a node and unbinds the labels below it. -/
theorem labels_step (hs : o.Sound) (a : Action) :
    (o.step a).labels = o.labels.insertAll (o.bound a) ∨
      o.bound a = [] ∧ ∃ target deletedBy, (o.tree.node target).deleted = false ∧
        o.tree.deleteNode? target deletedBy = some (o.step a).tree ∧
        (o.step a).labels =
          o.labels.filterValues fun node => !((o.step a).tree.subtree target).contains node := by
  cases a with
  | clash name first => exact .inl rfl
  | enter head => exact .inl (labels_enter hs head)
  | leave => exact .inl rfl
  | property definition => exact .inl rfl
  | deleteNode delete =>
      simp only [step, deleteNode]
      cases ht : o.doomed? delete.target with
      | none => exact .inl rfl
      | some target =>
          simp only [remove]
          cases hu : o.tree.deleteNode? target delete.ref with
          | none => exact .inl rfl
          | some tree => exact .inr ⟨rfl, target, delete.ref, hs.kept_of_doomed? ht, hu, rfl⟩
  | deleteProperty delete => exact .inl rfl

/-- A label gets bound by an action only if the action binds it. -/
theorem get?_labels_step_none (hs : o.Sound) {label : String}
    (h : o.labels.get? label = none) {a : Action} (hb : ∀ b ∈ o.bound a, b.1 ≠ label) :
    (o.step a).labels.get? label = none := by
  rcases labels_step hs a with hl | ⟨-, target, deletedBy, -, -, hl⟩
  · rw [hl]
    exact Table.get?_insertAll_eq_none.mpr ⟨h, hb⟩
  · rw [hl]
    exact Table.get?_filterValues_none h _

end Outline

end Devicetree
