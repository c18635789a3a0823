import Devicetree.Source.Parser

/-!
# The numbers of a file

Numbering a file gives its statements and references consecutive numbers in the order of
writing, without a gap and without a repetition.
-/

namespace Devicetree

namespace Statement

/-- Statements and all below them, in the order of writing. -/
def allIn (ss : List Statement) : List Statement :=
  (preorderAll 0 ss).map (·.2)

/-- A statement and all below it, in the order of writing. -/
def all (s : Statement) : List Statement :=
  (preorder 0 s).map (·.2)

mutual

theorem map_preorder (depth depth' : Nat) :
    ∀ s : Statement, (preorder depth s).map (·.2) = (preorder depth' s).map (·.2)
  | .block head body => by
      simp only [preorder, List.map_cons]
      rw [map_preorderAll (depth + 1) (depth' + 1) body]
  | .property p => rfl
  | .deleteNode d => rfl
  | .deleteProperty d => rfl

/-- The depth that is counted along does not matter to what is listed. -/
theorem map_preorderAll (depth depth' : Nat) :
    ∀ ss : List Statement, (preorderAll depth ss).map (·.2) = (preorderAll depth' ss).map (·.2)
  | [] => rfl
  | s :: ss => by
      simp only [preorderAll, List.map_append]
      rw [map_preorder depth depth' s, map_preorderAll depth depth' ss]

end

@[simp] theorem allIn_nil : allIn [] = [] := rfl

@[simp] theorem allIn_cons (s : Statement) (ss : List Statement) :
    allIn (s :: ss) = s.all ++ allIn ss := by
  simp only [allIn, all, preorderAll, List.map_append]

@[simp] theorem all_block (head : BlockHead) (body : List Statement) :
    (block head body).all = block head body :: allIn body := by
  simp only [all, allIn, preorder, List.map_cons]
  rw [map_preorderAll 1 0 body]

@[simp] theorem all_property (p : PropertyDef) : (property p).all = [property p] := rfl

@[simp] theorem all_deleteNode (d : DeleteNode) : (deleteNode d).all = [deleteNode d] := rfl

@[simp] theorem all_deleteProperty (d : DeleteProperty) :
    (deleteProperty d).all = [deleteProperty d] := rfl

theorem self_mem_all (s : Statement) : s ∈ s.all := by
  cases s <;> simp

theorem allIn_eq_flatMap (ss : List Statement) : allIn ss = ss.flatMap all := by
  induction ss with
  | nil => rfl
  | cons s ss ih => rw [allIn_cons, List.flatMap_cons, ih]

theorem mem_allIn {s : Statement} {ss : List Statement} :
    s ∈ allIn ss ↔ ∃ t ∈ ss, s ∈ t.all := by
  rw [allIn_eq_flatMap, List.mem_flatMap]

/-- The numbers of a statement and of the references written in it. -/
def ids (s : Statement) : List AstId :=
  s.id :: s.references.map (·.id)

end Statement

/-- All numbers of a file from one on up to another. -/
def AstId.Consecutive (file : FileId) (next after : Nat) (ids : List AstId) : Prop :=
  ∃ count, after = next + count ∧ ids = (List.range' next count).map (AstId.mk file)

namespace AstId.Consecutive

variable {file : FileId} {next mid after : Nat} {ids ids' : List AstId}

theorem nil : Consecutive file next next [] :=
  ⟨0, rfl, rfl⟩

theorem one : Consecutive file next (next + 1) [⟨file, next⟩] :=
  ⟨1, rfl, rfl⟩

theorem append (h : Consecutive file next mid ids) (h' : Consecutive file mid after ids') :
    Consecutive file next after (ids ++ ids') := by
  obtain ⟨m, rfl, rfl⟩ := h
  obtain ⟨n, rfl, rfl⟩ := h'
  refine ⟨m + n, Nat.add_assoc _ _ _, ?_⟩
  rw [← List.map_append, List.range'_append_1]

theorem cons (h : Consecutive file (next + 1) after ids) :
    Consecutive file next after (⟨file, next⟩ :: ids) :=
  one.append h

theorem nodup (h : Consecutive file next after ids) : ids.Nodup := by
  obtain ⟨count, -, rfl⟩ := h
  apply List.Pairwise.map (R := (· ≠ ·)) _ _ List.nodup_range'
  intro a b hne he
  exact hne (congrArg AstId.index he)

theorem file_eq (h : Consecutive file next after ids) {id : AstId} (hm : id ∈ ids) :
    id.file = file := by
  obtain ⟨count, -, rfl⟩ := h
  obtain ⟨index, -, rfl⟩ := List.mem_map.mp hm
  rfl

end AstId.Consecutive

section Numbering

open AstId (Consecutive)

variable (file : FileId)

theorem Reference.id_withId (id : AstId) (ref : Reference) : (ref.withId id).id = id := by
  cases ref <;> rfl

theorem Cell.ids_renumber (next : Nat) (c : Cell) :
    Consecutive file next (c.renumber file next).2
      ((c.renumber file next).1.reference?.toList.map (·.id)) := by
  cases c with
  | number value => exact .nil
  | symbol name => exact .nil
  | reference ref =>
      simp only [renumber, reference?, Option.toList_some, List.map_cons, List.map_nil,
        Reference.id_withId]
      exact .one

theorem Cell.ids_numberAll (next : Nat) (cs : List Cell) :
    Consecutive file next (numberAll file next cs).2
      (((numberAll file next cs).1.filterMap reference?).map (·.id)) := by
  induction cs generalizing next with
  | nil => exact .nil
  | cons c cs ih =>
      have happend := (c.ids_renumber file next).append (ih (c.renumber file next).2)
      simp only [numberAll, List.filterMap_cons]
      cases hc : (c.renumber file next).1.reference? with
      | none => simpa only [hc, Option.toList_none, List.map_nil, List.nil_append] using happend
      | some ref => simpa only [hc, Option.toList_some, List.map_cons, List.map_nil,
          List.cons_append, List.nil_append] using happend

theorem Value.ids_number (next : Nat) (v : Value) :
    Consecutive file next (v.number file next).2
      ((v.number file next).1.references.map (·.id)) := by
  cases v with
  | string content => exact .nil
  | bytes content => exact .nil
  | cells cs span => exact Cell.ids_numberAll file next cs
  | reference ref =>
      simp only [number, references, List.map_cons, List.map_nil, Reference.id_withId]
      exact .one

theorem Value.ids_numberAll (next : Nat) (vs : List Value) :
    Consecutive file next (numberAll file next vs).2
      (((numberAll file next vs).1.flatMap references).map (·.id)) := by
  induction vs generalizing next with
  | nil => exact .nil
  | cons v vs ih =>
      simp only [numberAll, List.flatMap_cons, List.map_append]
      exact (v.ids_number file next).append (ih _)

namespace Statement

mutual

/-- A statement and all below it take the numbers from one on. -/
theorem ids_number (next : Nat) :
    ∀ s : Statement, Consecutive file next (number file next s).2
      ((number file next s).1.all.flatMap ids)
  | .block ⟨id, labels, target, span⟩ body => by
      cases target with
      | root slash =>
          simp only [number, BlockTarget.number, all_block, List.flatMap_cons]
          exact (ids_numberAll (next + 1) body).cons
      | child name =>
          simp only [number, BlockTarget.number, all_block, List.flatMap_cons]
          exact (ids_numberAll (next + 1) body).cons
      | reference ref =>
          simp only [number, BlockTarget.number, all_block, List.flatMap_cons, ids, references,
            List.map_cons, List.map_nil, Reference.id_withId]
          exact (ids_numberAll (next + 1 + 1) body).cons.cons
  | .property p => by
      simp only [number, all_property, List.flatMap_cons, List.flatMap_nil, List.append_nil]
      exact (Value.ids_numberAll file (next + 1) p.values).cons
  | .deleteNode ⟨id, keyword, target, span⟩ => by
      cases target with
      | name name => exact .one
      | reference ref =>
          simp only [number, DeleteTarget.number, all_deleteNode, List.flatMap_cons,
            List.flatMap_nil, List.append_nil, ids, references, List.map_cons, List.map_nil,
            Reference.id_withId]
          exact .cons .one
  | .deleteProperty d => .one

theorem ids_numberAll (next : Nat) :
    ∀ ss : List Statement, Consecutive file next (numberAll file next ss).2
      ((allIn (numberAll file next ss).1).flatMap ids)
  | [] => .nil
  | s :: ss => by
      simp only [numberAll, allIn_cons, List.flatMap_append]
      exact (ids_number next s).append (ids_numberAll _ ss)

end

end Statement

end Numbering

/-- The statements and references of a file as read have the numbers from zero on. -/
theorem SourceFile.ids_read (file : FileId) (text : Text) :
    ∃ count, AstId.Consecutive file 0 count
      ((Statement.allIn (SourceFile.read file text).statements).flatMap Statement.ids) :=
  ⟨_, Statement.ids_numberAll file 0 _⟩

end Devicetree
