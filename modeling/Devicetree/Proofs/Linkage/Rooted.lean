import Devicetree.Proofs.Linkage.Bindings
import Devicetree.Proofs.Linkage.Growth

/-!
# Where nodes come from

A node is rooted if its line of parents ends at the root, whether or not someone on the line was
deleted; only stand-ins and what was put below them are not. Lines of parents never change. The
main result is that labels name rooted nodes, and that an open body is detached exactly if its
node is not rooted.
-/

namespace Devicetree

namespace Tree

/-- Whether the parents of a node lead up to the root. -/
def isRooted (t : Tree) (id : NodeId) : Bool :=
  t.reachesRoot id fun _ => true

theorem isRooted_eq {t : Tree} {id : NodeId} :
    t.isRooted id = ((t.lineage id).getLast? == some root) := by
  simp [isRooted, reachesRoot]

/-- A node is live if it is rooted and nobody on its line was deleted. -/
theorem isLive_iff_isRooted {t : Tree} {id : NodeId} :
    t.isLive id = true ↔
      t.isRooted id = true ∧ ∀ member ∈ t.lineage id, (t.node member).deleted = false := by
  simp [isLive, reachesRoot, isRooted_eq, and_comm]

theorem isRooted_of_none {t : Tree} {id : NodeId} (hp : (t.node id).parent = none) :
    t.isRooted id = decide (id = root) := by
  simp only [isRooted, reachesRoot_of_none hp, Bool.true_and]
  rfl

theorem isRooted_congr {t u : Tree} {id : NodeId} (h : u.lineage id = t.lineage id) :
    u.isRooted id = t.isRooted id := by
  rw [isRooted_eq, isRooted_eq, h]

theorem SameShape.isRooted {t u : Tree} (h : t.SameShape u) (id : NodeId) :
    t.isRooted id = u.isRooted id :=
  isRooted_congr (h.lineage id)

namespace WellFormed

variable {t u : Tree}

theorem isRooted_root (h : t.WellFormed) : t.isRooted root = true := by
  rw [isRooted_of_none h.root_parent, decide_eq_true rfl]

theorem isRooted_of_some (h : t.WellFormed) {id parent : NodeId}
    (hp : (t.node id).parent = some parent) : t.isRooted id = t.isRooted parent := by
  simp only [isRooted, h.reachesRoot_of_some hp, Bool.true_and]

/-- Of the rooted nodes, the root alone has no parent. -/
theorem parent_eq_none (h : t.WellFormed) {id : NodeId} (hr : t.isRooted id = true) :
    (t.node id).parent = none ↔ id = root := by
  constructor
  · intro hp
    rw [isRooted_of_none hp] at hr
    exact of_decide_eq_true hr
  · rintro rfl
    exact h.root_parent

theorem lt_size_of_isRooted (h : t.WellFormed) {id : NodeId} (hr : t.isRooted id = true) :
    id.index < t.size := by
  cases hp : (t.node id).parent with
  | some parent => exact lt_size_of_parent hp
  | none =>
      rw [(h.parent_eq_none hr).mp hp]
      exact h.size_pos

end WellFormed

namespace Edited

variable {mark : Span → Prop} {t u : Tree}

/-- An edit leaves the line of parents of a node as it was. -/
theorem lineage (he : t.Edited mark u) (ht : t.WellFormed) (hu : u.WellFormed) {id : NodeId}
    (hid : id.index < t.size) : u.lineage id = t.lineage id := by
  induction id using ht.up_induction with
  | step id ih =>
      have hparent := he.parent id hid
      cases hp : (t.node id).parent with
      | none => rw [lineage_of_none hp, lineage_of_none (hparent.trans hp)]
      | some parent =>
          have hlt := Nat.lt_trans (ht.parent_lt hp) hid
          rw [ht.lineage_of_some hp, hu.lineage_of_some (hparent.trans hp), ih parent hp hlt]

/-- An edit brings nothing back to life. -/
theorem isLive (he : t.Edited mark u) (ht : t.WellFormed) (hu : u.WellFormed) {id : NodeId}
    (hid : id.index < t.size) (hl : u.isLive id = true) : t.isLive id = true := by
  rw [isLive_iff_isRooted, he.lineage ht hu hid, isRooted_congr (he.lineage ht hu hid)] at hl
  refine isLive_iff_isRooted.mpr ⟨hl.1, fun member hm => ?_⟩
  apply Bool.eq_false_iff.mpr
  intro hd
  have hkept := hl.2 member hm
  rw [(he.node member).deleted hd] at hkept
  cases hkept

end Edited

end Tree

namespace Outline

/-- Labels name rooted nodes, and the detached bodies are those of the others. -/
structure Rooted (o : Outline) : Prop where
  label : ∀ e ∈ o.labels.entries, o.tree.isRooted e.2 = true
  scope : ∀ s ∈ o.scopes, o.tree.isRooted s.node = !s.detached

variable {o : Outline}

/-- A step edits the tree, whatever spans it leaves. -/
theorem edited_step_true (hs : o.Sound) (a : Action) :
    o.tree.Edited (fun _ => True) (o.step a).tree :=
  edited_step hs a fun _ _ => trivial

/-- A step leaves alone which of the present nodes are rooted. -/
theorem isRooted_step (hs : o.Sound) (a : Action) {id : NodeId} (hid : id.index < o.tree.size) :
    (o.step a).tree.isRooted id = o.tree.isRooted id :=
  Tree.isRooted_congr ((edited_step_true hs a).lineage hs.tree (hs.step a).tree hid)

/-- What is live after a step was so before. -/
theorem isLive_of_step (hs : o.Sound) (a : Action) {id : NodeId} (hid : id.index < o.tree.size)
    (hl : (o.step a).tree.isLive id = true) : o.tree.isLive id = true :=
  (edited_step_true hs a).isLive hs.tree (hs.step a).tree hid hl

namespace Rooted

theorem scope_node (h : o.Rooted) (hs : o.Sound) :
    o.tree.isRooted o.scope.node = !o.scope.detached := by
  unfold Outline.scope
  split
  · exact hs.tree.isRooted_root
  · rename_i s rest hrest
    exact h.scope s (hrest ▸ List.mem_cons_self)

theorem of_target? (h : o.Rooted) (hs : o.Sound) {ref : Reference} {node : NodeId}
    (ht : o.target? ref = some node) : o.tree.isRooted node = true := by
  cases ref with
  | label ref => exact h.label _ (Table.mem_of_get? ht)
  | path ref =>
      have hlive := hs.tree.isLive_iff_under.mpr (Sound.under_of_path ht)
      exact (Tree.isLive_iff_isRooted.mp hlive).1

end Rooted

/-- The node that a block opens is rooted, unless its body is detached. -/
theorem isRooted_enter (h : o.Rooted) (hs : o.Sound) (head : BlockHead) :
    (o.enter head).tree.isRooted (o.enter head).scope.node = !(o.enter head).scope.detached := by
  have hdefine : ∀ (q : Outline) (node : NodeId) (detached : Bool),
      q.tree.isRooted node = !detached →
      (q.define head node detached).tree.isRooted (q.define head node detached).scope.node =
        !(q.define head node detached).scope.detached := by
    intro q node detached hq
    exact ((q.tree.sameShape_modify node (·.sameShape_opened head)).isRooted node).symm.trans hq
  unfold enter
  split
  · exact hdefine o Tree.root false hs.tree.isRooted_root
  · rename_i name _
    cases hf : o.tree.findChild? o.scope.node name.value with
    | some child =>
        apply hdefine o child
        have hp := (hs.tree.mem_children.mp (Tree.mem_of_findChild? hf).1).1
        rw [hs.tree.isRooted_of_some hp, h.scope_node hs]
    | none =>
        have hlt := hs.scope_node_lt
        have hw := hs.tree.addChild hlt hf
        have hshape := (o.tree.addChild o.scope.node name.value).sameShape_modify o.tree.nextId
          (·.sameShape_opened head)
        have hedit : o.tree.Edited (fun _ => True) ((o.tree.addChild o.scope.node name.value).modify
            o.tree.nextId (·.opened head)) :=
          .addChild (fun _ _ => trivial) hlt name.value
        have hp : ((o.tree.addChild o.scope.node name.value).node o.tree.nextId).parent =
            some o.scope.node := by
          rw [Tree.addChild_parent hlt, if_pos rfl]
        apply hdefine { o with tree := o.tree.addChild o.scope.node name.value }
        rw [hw.isRooted_of_some hp, hshape.isRooted,
          Tree.isRooted_congr (hedit.lineage hs.tree (hw.of_sameShape hshape) hlt), h.scope_node hs]
  · rename_i ref _
    cases ht : o.target? ref with
    | some node => exact hdefine o node false (h.of_target? hs ht)
    | none =>
        have hne : o.tree.nextId ≠ Tree.root := (Tree.ne_nextId hs.tree.size_pos).symm
        apply hdefine { o with tree := o.tree.addStandIn }
        rw [Tree.isRooted_of_none, decide_eq_false hne]
        · rfl
        · rw [Tree.node_addStandIn, Tree.node_nextId]
          rfl

theorem mem_bound {a : Action} {b : String × NodeId} (h : b ∈ o.bound a) :
    ∃ head, a = .enter head ∧ (o.enter head).scope.detached = false ∧
      (∃ label ∈ head.labels, label.value = b.1) ∧ b.2 = (o.enter head).scope.node := by
  cases a with
  | enter head =>
      simp only [bound] at h
      split at h
      · cases h
      · rename_i hd
        obtain ⟨label, hl, rfl⟩ := List.mem_map.mp h
        exact ⟨head, rfl, Bool.eq_false_iff.mpr hd, ⟨label, hl, rfl⟩, rfl⟩
  | _ => cases h

theorem Rooted.of_bound (h : o.Rooted) (hs : o.Sound) {a : Action} {b : String × NodeId}
    (hb : b ∈ o.bound a) : (o.step a).tree.isRooted b.2 = true := by
  obtain ⟨head, rfl, hd, -, hn⟩ := mem_bound hb
  rw [hn]
  refine (isRooted_enter h hs head).trans ?_
  rw [hd]
  rfl

theorem Rooted.step (h : o.Rooted) (hs : o.Sound) (a : Action) : (o.step a).Rooted := by
  have hlabels : ∀ e ∈ o.labels.entries, (o.step a).tree.isRooted e.2 = true := by
    intro e he
    rw [isRooted_step hs a (hs.label_lt e he)]
    exact h.label e he
  have hscopes : ∀ s ∈ o.scopes, (o.step a).tree.isRooted s.node = !s.detached := by
    intro s hm
    rw [isRooted_step hs a (hs.scope_lt s hm)]
    exact h.scope s hm
  constructor
  · intro e he
    rcases labels_step hs a with hl | ⟨-, target, deletedBy, -, -, hl⟩
    · rw [hl] at he
      rcases Table.mem_entries_insertAll he with he | he
      · exact h.of_bound hs he
      · exact hlabels e he
    · rw [hl] at he
      exact hlabels e (List.mem_of_mem_filter he)
  · intro s hm
    cases a with
    | enter head =>
        change s ∈ (o.enter head).scopes at hm
        rw [scopes_enter hs] at hm
        rcases List.mem_cons.mp hm with rfl | hm
        · exact isRooted_enter h hs head
        · exact hscopes s hm
    | leave => exact hscopes s (List.mem_of_mem_tail hm)
    | deleteNode delete =>
        apply hscopes s
        simp only [Outline.step, Outline.deleteNode] at hm
        split at hm
        · rwa [scopes_remove] at hm
        · exact hm
    | _ => exact hscopes s hm

theorem Rooted.run (h : o.Rooted) (hs : o.Sound) (as : List Action) : (o.run as).Rooted := by
  induction as generalizing o with
  | nil => exact h
  | cons a as ih => exact ih (h.step hs a) (hs.step a)

theorem rooted_start : start.Rooted where
  label := fun _ h => by cases h
  scope := fun _ h => by cases h

end Outline

end Devicetree
