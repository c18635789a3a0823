import Devicetree.Proofs.Linkage.Continuity
import Devicetree.Source.Parser

/-!
# A deleted node is not taken up again

As the record of a pass goes on, no node comes back to life: neither it nor an ancestor that was
deleted is ever in force again. A block that names a deleted node anew is therefore about a node
that was not there while the deleted one was in force.
-/

namespace Devicetree

namespace Tree.Continues

variable {t u : Tree}

/-- A node that is deleted later on may be in force now, but not the other way round. -/
theorem kept (h : t.Continues u) {id : NodeId} (hid : id.index < t.size)
    (hk : (u.node id).deleted = false) : (t.node id).deleted = false := by
  cases hd : (t.node id).deleted with
  | false => rfl
  | true =>
      rw [((h.node id hid).closed hd).1] at hk
      cases hk

/-- What is live later on was live before. -/
theorem isLive (h : t.Continues u) (ht : t.WellFormed) (hu : u.WellFormed) {id : NodeId}
    (hid : id.index < t.size) (hl : u.isLive id = true) : t.isLive id = true := by
  induction id using ht.up_induction with
  | step id ih =>
      have hkept := h.kept hid (hu.kept_of_isLive hl)
      have hparent := (h.node id hid).parent
      cases hp : (t.node id).parent with
      | none =>
          rw [hp] at hparent
          simp only [Tree.isLive, reachesRoot_of_none hparent, Bool.and_eq_true] at hl
          simp [Tree.isLive, reachesRoot_of_none hp, hkept, hl.2]
      | some parent =>
          rw [hp] at hparent
          rw [hu.isLive_of_some hparent, Bool.and_eq_true] at hl
          have hlt : parent.index < t.size := Nat.lt_trans (ht.parent_lt hp) hid
          simp [ht.isLive_of_some hp, hkept, ih parent hp hlt hl.2]

end Tree.Continues

namespace Linkage

/-- The next action opens a block that names a deleted node anew, in a body of its parent. -/
structure Redefines (files : List SourceFile) (count : Nat) (head : BlockHead) (id : NodeId) :
    Prop where
  action : (actionsOf files)[count]? = some (.enter head)
  deleted : ((passAt files count).tree.node id).deleted = true
  parent : ((passAt files count).tree.node id).parent = some (passAt files count).scope.node
  name : ∃ name, head.target = .child name ∧
    name.value = ((passAt files count).tree.node id).name

variable {files : List SourceFile}

theorem wellFormed_passAt (files : List SourceFile) (count : Nat) :
    (passAt files count).tree.WellFormed :=
  wellFormed_of_bare (sound_passAt files count).tree

theorem passAt_succ {count : Nat} {a : Action} (h : (actionsOf files)[count]? = some a) :
    passAt files (count + 1) = (passAt files count).step a := by
  obtain ⟨hlt, rfl⟩ := List.getElem?_eq_some_iff.mp h
  rw [passAt, List.take_succ_eq_append_getElem hlt, Pass.run_append]
  rfl

section Enter

variable {count : Nat} {head : BlockHead} (h : (actionsOf files)[count]? = some (.enter head))
include h

/-- A block is written down as that of the node it is about. -/
theorem owner_of_enter :
    (passAt files (count + 1)).owners.get? head.id =
      some ((passAt files count).outline.subject (.enter head)) := by
  rw [passAt_succ h, (Pass.advances_step (sound_passAt files count) (.enter head)).owners]
  exact (Table.get?_insert ..).trans (if_pos rfl)

/-- A block that names a child is about that child of the node whose body it stands in. -/
theorem child_of_name {name : NodeName} (htarget : head.target = .child name) :
    let child := (passAt files count).outline.subject (.enter head)
    child ∈ ((passAt files (count + 1)).tree.node (passAt files count).scope.node).children ∧
      ((passAt files (count + 1)).tree.node child).name = name.value := by
  obtain ⟨hmem, hname⟩ := Outline.child_of_enter (sound_passAt files count) htarget
  have hstep : (passAt files (count + 1)).outline = (passAt files count).outline.enter head := by
    rw [passAt_succ h]
    exact Pass.outline_step _ (.enter head)
  rw [← hstep, Pass.outline, Tree.node_bare] at hmem hname
  exact ⟨hmem, hname⟩

end Enter

/-- The node that takes the place of a deleted one was not there while that one was in force. -/
theorem new_of_redefines {count more : Nat} {head : BlockHead} {id : NodeId}
    (hid : id.index < (passAt files count).tree.size)
    (hkept : ((passAt files count).tree.node id).deleted = false)
    (h : Redefines files (count + more) head id) :
    ∃ other, (passAt files (count + more + 1)).owners.get? head.id = some other ∧
      ((passAt files (count + more + 1)).tree.node other).parent =
        ((passAt files (count + more)).tree.node id).parent ∧
      ((passAt files (count + more + 1)).tree.node other).name =
        ((passAt files (count + more)).tree.node id).name ∧
      (passAt files count).tree.size ≤ other.index := by
  obtain ⟨name, htarget, hname⟩ := h.name
  obtain ⟨hmem, hother⟩ := child_of_name h.action htarget
  let other := (passAt files (count + more)).outline.subject (.enter head)
  obtain ⟨hparent, hin⟩ := (wellFormed_passAt files (count + more + 1)).mem_children.mp hmem
  refine ⟨other, owner_of_enter h.action, hparent.trans h.parent.symm, hother.trans hname, ?_⟩
  apply Nat.le_of_not_lt
  intro hlt
  -- Otherwise the two were siblings of one name, so the same node, which is deleted by now.
  let scope := (passAt files (count + more)).scope.node
  have hfirst := (continues_passAt files count more).tree
  have hall := (continues_passAt files count (more + 1)).tree
  have hchild : other ∈ ((passAt files count).tree.node scope).children :=
    (wellFormed_passAt files count).mem_children.mpr
      ⟨(hall.node other hlt).parent.symm.trans hparent, hall.kept hlt hin⟩
  have hself : id ∈ ((passAt files count).tree.node scope).children :=
    (wellFormed_passAt files count).mem_children.mpr
      ⟨(hfirst.node id hid).parent.symm.trans h.parent, hkept⟩
  have hsame : ((passAt files count).tree.node id).name =
      ((passAt files count).tree.node other).name :=
    calc ((passAt files count).tree.node id).name
        = ((passAt files (count + more)).tree.node id).name := (hfirst.node id hid).name.symm
      _ = name.value := hname.symm
      _ = ((passAt files (count + more + 1)).tree.node other).name := hother.symm
      _ = ((passAt files count).tree.node other).name := (hall.node other hlt).name
  have heq := (wellFormed_passAt files count).siblings hself hchild hsame
  subst heq
  have hlast := (continues_passAt files (count + more) 1).tree
  have hd := hlast.kept (Nat.lt_of_lt_of_le hid hfirst.size_le) hin
  rw [h.deleted] at hd
  cases hd

/-- The record of a pass is only ever added to, up to the result of linking: see
`Record.Continues`. What is not live stays so, and where a deleted node is named anew a node is
defined that was not there while the deleted one was in force. -/
theorem record_append_only (files : List SourceFile) (reportUnresolved : Bool)
    (generation : Nat) :
    let l := link files reportUnresolved generation
    (∀ count more,
      (passAt files count).toRecord.Continues (passAt files (count + more)).toRecord) ∧
    (∀ count, (passAt files count).toRecord.Continues l.toRecord) ∧
    (∀ count more id, id.index < (passAt files count).tree.size →
      (passAt files count).tree.isLive id = false →
      (passAt files (count + more)).tree.isLive id = false ∧ l.tree.isLive id = false) ∧
    (∀ count more head id, id.index < (passAt files count).tree.size →
      ((passAt files count).tree.node id).deleted = false →
      Redefines files (count + more) head id →
      ∃ other, (passAt files (count + more + 1)).owners.get? head.id = some other ∧
        ((passAt files (count + more + 1)).tree.node other).parent =
          ((passAt files (count + more)).tree.node id).parent ∧
        ((passAt files (count + more + 1)).tree.node other).name =
          ((passAt files (count + more)).tree.node id).name ∧
        (passAt files count).tree.size ≤ other.index) := by
  have hdead : ∀ {t u : Tree} {id : NodeId}, t.Continues u → t.WellFormed → u.WellFormed →
      id.index < t.size → t.isLive id = false → u.isLive id = false := by
    intro t u id h ht hu hid hl
    apply Bool.eq_false_iff.mpr
    intro hlive
    rw [h.isLive ht hu hid hlive] at hl
    cases hl
  refine ⟨continues_passAt files, continues_link files reportUnresolved generation, ?_,
    fun count more head id hid hkept h => new_of_redefines hid hkept h⟩
  intro count more id hid hl
  have hw := wellFormed_passAt files
  constructor
  · exact hdead (continues_passAt files count more).tree (hw count) (hw _) hid hl
  · exact hdead (continues_link files reportUnresolved generation count).tree (hw count)
      (wellFormed_link ..) hid hl

/-- A child that is deleted through its label, and named anew in a second block of the root. -/
def renewedFile : SourceFile :=
  .read ⟨0⟩ "/\x7ba:n\x7b\x7d;\x7d;/delete-node/&a;/\x7bn\x7b\x7d;\x7d;".toList

/-- The head of the second block of the child. -/
def renewedHead : BlockHead :=
  ⟨⟨⟨0⟩, 5⟩, [], .child ⟨⟨"n", none⟩, ⟨⟨0⟩, 28, 29, ⟨0, 28⟩, ⟨0, 29⟩⟩⟩,
    ⟨⟨0⟩, 28, 32, ⟨0, 28⟩, ⟨0, 32⟩⟩⟩

/-- After four actions the child is there, and the seventh opens the block that names it anew. -/
theorem renewedFile_defines_new :
    Redefines [renewedFile] (4 + 2) renewedHead ⟨1⟩ ∧
      ∃ other, (passAt [renewedFile] 7).owners.get? renewedHead.id = some other ∧
        2 ≤ other.index := by
  have hredefines : Redefines [renewedFile] (4 + 2) renewedHead ⟨1⟩ :=
    ⟨by decide +kernel, by decide +kernel, by decide +kernel, _, rfl, by decide +kernel⟩
  obtain ⟨other, howner, -, -, hnew⟩ := (record_append_only [renewedFile] true 0).2.2.2 4 2
    renewedHead ⟨1⟩ (by decide +kernel) (by decide +kernel) hredefines
  have hsize : (passAt [renewedFile] 4).tree.size = 2 := by decide +kernel
  exact ⟨hredefines, other, howner, hsize ▸ hnew⟩

end Linkage

end Devicetree
