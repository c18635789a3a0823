import Devicetree.Proofs.Linkage.Bindings

/-!
# The journal of a run

Every action is about one node: that of the block it opens, or that of the body it stands in. The
journal of a run lists its actions with these nodes. The main result is that a node tells what the
actions about it say, performed one after the other on that node alone; what is done to other
nodes, and where the node hangs, plays no part in it.
-/

namespace Devicetree

/-- Actions, each with the node it is about. -/
abbrev Journal := List (Action × NodeId)

/-- The actions of a journal about one node. -/
def Journal.about (j : Journal) (id : NodeId) : List Action :=
  (j.filter (·.2 = id)).map (·.1)

theorem Journal.about_cons (a : Action) (node : NodeId) (j : Journal) (id : NodeId) :
    Journal.about ((a, node) :: j) id = if node = id then a :: j.about id else j.about id := by
  by_cases h : node = id
  · simp [about, h]
  · simp [about, h]

theorem Journal.mem_about {j : Journal} {id : NodeId} {a : Action} :
    a ∈ j.about id ↔ (a, id) ∈ j := by
  constructor
  · intro h
    obtain ⟨⟨b, node⟩, hm, rfl⟩ := List.mem_map.mp h
    obtain ⟨hm, hid⟩ := List.mem_filter.mp hm
    exact of_decide_eq_true hid ▸ hm
  · intro h
    exact List.mem_map.mpr ⟨(a, id), List.mem_filter.mpr ⟨h, decide_eq_true rfl⟩, rfl⟩

/-- What the actions about a node bring along, told from what all bring along. -/
theorem Journal.flatMap_about {β : Type} {j : Journal} {id : NodeId} {g : Action → List β}
    {P : β → Bool} (h : ∀ entry ∈ j, ∀ b ∈ g entry.1, P b = decide (entry.2 = id)) :
    (j.about id).flatMap g = ((j.map (·.1)).flatMap g).filter P := by
  induction j with
  | nil => rfl
  | cons entry j ih =>
      have hfirst := h entry List.mem_cons_self
      have hrest := ih fun e he => h e (List.mem_cons_of_mem _ he)
      rw [about_cons, List.map_cons, List.flatMap_cons, List.filter_append, ← hrest]
      split
      · rename_i hid
        rw [List.flatMap_cons, List.filter_eq_self.mpr fun b hb => by simp [hfirst b hb, hid]]
      · rename_i hid
        rw [List.filter_eq_nil_iff.mpr fun b hb => by simp [hfirst b hb, hid], List.nil_append]

/-- The block that an action opens. -/
def Action.block? : Action → Option AstRef
  | .enter head => some head.ref
  | _ => none

/-- The labels that a block binds. -/
def Action.labels : Action → List Label
  | .enter head => head.labels
  | _ => []

namespace Node

/-- A node after an action about it. -/
def perform (n : Node) : Action → Node
  | .enter head => n.opened head
  | .property definition => n.define definition
  | .deleteProperty delete => (n.undefine? delete.name.value delete.ref).getD n
  | _ => n

/-- What an action makes of a tale depends on the tale alone. -/
theorem tale_perform (n : Node) (a : Action) : (n.perform a).tale = n.tale.perform a := by
  cases a with
  | deleteProperty delete =>
      have hproperty : n.tale.property? delete.name.value = n.property? delete.name.value := rfl
      simp only [perform, undefine?, hproperty]
      cases n.property? delete.name.value <;> rfl
  | _ => rfl

/-- A node lists the blocks about it in order. -/
theorem definitions_perform (n : Node) (as : List Action) :
    (as.foldl perform n).definitions = n.definitions ++ as.filterMap Action.block? := by
  induction as generalizing n with
  | nil => simp
  | cons a as ih =>
      rw [List.foldl_cons, ih]
      cases a with
      | enter head => simp [perform, opened, Action.block?]
      | deleteProperty delete =>
          simp only [perform, undefine?, List.filterMap_cons]
          cases n.property? delete.name.value <;> rfl
      | _ => rfl

/-- A node lists the labels of the blocks about it in order. -/
theorem labels_perform (n : Node) (as : List Action) :
    (as.foldl perform n).labels = n.labels ++ as.flatMap Action.labels := by
  induction as generalizing n with
  | nil => simp
  | cons a as ih =>
      rw [List.foldl_cons, ih]
      cases a with
      | enter head => simp [perform, opened, Action.labels]
      | deleteProperty delete =>
          simp only [perform, undefine?, List.flatMap_cons, Action.labels]
          cases n.property? delete.name.value <;> rfl
      | _ => rfl

end Node

namespace Outline

variable {o : Outline}

/-- The node that an action is about. -/
def subject (o : Outline) : Action → NodeId
  | .enter head => (o.enter head).scope.node
  | _ => o.scope.node

/-- The actions of a run, each with the node it is about. -/
def journal (o : Outline) : List Action → Journal
  | [] => []
  | a :: as => (a, o.subject a) :: (o.step a).journal as

theorem journal_append (o : Outline) (as bs : List Action) :
    o.journal (as ++ bs) = o.journal as ++ (o.run as).journal bs := by
  induction as generalizing o with
  | nil => rfl
  | cons a as ih => exact congrArg ((a, o.subject a) :: ·) (ih (o.step a))

theorem map_fst_journal (o : Outline) (as : List Action) : (o.journal as).map (·.1) = as := by
  induction as generalizing o with
  | nil => rfl
  | cons a as ih => exact congrArg (a :: ·) (ih (o.step a))

theorem tale_modify {t : Tree} {node : NodeId} (h : node.index < t.size) (f : Node → Node)
    (id : NodeId) :
    ((t.modify node f).node id).tale =
      if node = id then (f (t.node id)).tale else (t.node id).tale := by
  by_cases hid : node = id
  · subst hid
    rw [Tree.node_modify_self f h, if_pos rfl]
  · rw [Tree.node_modify_ne f hid, if_neg hid]

/-- An action adds to what is told of the node it is about, and of no other. -/
theorem tale_step (hs : o.Sound) (a : Action) (id : NodeId) :
    ((o.step a).tree.node id).tale =
      if o.subject a = id then (o.tree.node id).tale.perform a else (o.tree.node id).tale := by
  have hquiet : ∀ {t : Tree}, (t.node id).tale = (o.tree.node id).tale →
      (o.tree.node id).tale.perform a = (o.tree.node id).tale →
      (t.node id).tale =
        if o.subject a = id then (o.tree.node id).tale.perform a else (o.tree.node id).tale := by
    intro t ht hperform
    rw [hperform, ite_self, ht]
  cases a with
  | clash name first => exact hquiet rfl rfl
  | leave => exact hquiet rfl rfl
  | enter head =>
      obtain ⟨t, node, detached, he, hlt, hsame⟩ := enter_eq_define hs head
      have hsubject : o.subject (.enter head) = node := by rw [subject, he]; rfl
      rw [hsubject, step, he, ← hsame id, ← Node.tale_perform]
      exact tale_modify hlt (·.opened head) id
  | property definition =>
      rw [← Node.tale_perform]
      exact tale_modify hs.scope_node_lt (·.define definition) id
  | deleteProperty delete =>
      rw [← Node.tale_perform]
      exact tale_modify hs.scope_node_lt _ id
  | deleteNode delete =>
      refine hquiet ?_ rfl
      rw [step, deleteNode]
      cases o.doomed? delete.target with
      | none => rfl
      | some target => exact tale_remove hs target delete.ref id

/-- After a run a node tells what the actions about it say. -/
theorem tale_run (hs : o.Sound) (as : List Action) (id : NodeId) :
    ((o.run as).tree.node id).tale =
      ((o.journal as).about id).foldl Node.perform (o.tree.node id).tale := by
  induction as generalizing o with
  | nil => rfl
  | cons a as ih =>
      rw [run_cons, ih (hs.step a), tale_step hs a, journal, Journal.about_cons]
      split <;> rfl

/-- A block that names a child is about that child of the node whose body it stands in. -/
theorem child_of_enter (hs : o.Sound) {head : BlockHead} {name : NodeName}
    (htarget : head.target = .child name) :
    o.subject (.enter head) ∈ ((o.enter head).tree.node o.scope.node).children ∧
      ((o.enter head).tree.node (o.subject (.enter head))).name = name.value := by
  have hopened : ∀ (t : Tree) (node : NodeId), t.SameShape (t.modify node (·.opened head)) :=
    fun t node => Tree.sameShape_modify t node (·.sameShape_opened head)
  cases hf : o.tree.findChild? o.scope.node name.value with
  | some child =>
      have he : o.enter head = o.define head child o.scope.detached := by
        rw [enter, htarget]
        simp only [hf]
      have hsame := hopened o.tree child
      obtain ⟨hmem, hname⟩ := Tree.mem_of_findChild? hf
      rw [subject, he]
      exact ⟨(hsame.node o.scope.node).children ▸ hmem, (hsame.node child).name ▸ hname⟩
  | none =>
      let t := o.tree.addChild o.scope.node name.value
      have he : o.enter head =
          { o with tree := t }.define head o.tree.nextId o.scope.detached := by
        rw [enter, htarget]
        simp only [hf]
        rfl
      have hsame := hopened t o.tree.nextId
      have hmem : o.tree.nextId ∈ (t.node o.scope.node).children := by
        rw [Tree.addChild_children hs.scope_node_lt]
        simp
      have hname : (t.node o.tree.nextId).name = name.value := by
        rw [Tree.addChild_name hs.scope_node_lt, if_pos rfl]
      rw [subject, he]
      exact ⟨(hsame.node o.scope.node).children ▸ hmem,
        (hsame.node o.tree.nextId).name ▸ hname⟩

end Outline

namespace Linkage

/-- The journal of linking some files. -/
def journalOf (files : List SourceFile) : Journal :=
  Outline.start.journal (actionsOf files)

theorem about_sublist (files : List SourceFile) (id : NodeId) :
    ((journalOf files).about id).Sublist (actionsOf files) := by
  rw [← Outline.map_fst_journal .start (actionsOf files)]
  exact List.filter_sublist.map _

/-- A linked node tells what the actions about it say. -/
theorem tale_link (files : List SourceFile) (reportUnresolved : Bool) (generation : Nat)
    (id : NodeId) :
    ((link files reportUnresolved generation).tree.node id).tale =
      ((journalOf files).about id).foldl Node.perform (.blank ⟨"", none⟩ none) := by
  have hstart : (Outline.start.tree.node id).tale = .blank ⟨"", none⟩ none := by
    change (Tree.start.node id).tale = _
    rw [Tree.node_start]
    split <;> rfl
  have hbare : (((link files reportUnresolved generation).tree.node id).bare).tale =
      ((link files reportUnresolved generation).tree.node id).tale := rfl
  rw [← hbare, ← Tree.node_bare, link_tree_bare, outlineOf, Outline.tale_run .start, hstart]
  rfl

end Linkage

end Devicetree
