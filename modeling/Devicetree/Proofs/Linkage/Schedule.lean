import Devicetree.Proofs.Linkage.Outline
import Devicetree.Proofs.Source.References

/-!
# Every statement has its turn

Linking takes the blocks of a body first, so actions come in another order than the statements
they belong to. Still every statement, at any depth, is taken up by exactly one action. What
actions bring along is therefore what the statements hold, each once, in another order.
-/

namespace Devicetree

/-- The action that takes up a statement. -/
def Statement.opening : Statement → Action
  | .block head _ => .enter head
  | .property p => .property p
  | .deleteNode d => .deleteNode d
  | .deleteProperty d => .deleteProperty d

/-- What actions bring along, where those that take up no statement bring nothing. -/
structure Action.Cargo {β : Type} (g : Action → List β) : Prop where
  clash : ∀ name first, g (.clash name first) = []
  leave : g .leave = []

namespace Statement

variable {β : Type} {g : Action → List β}

theorem flatMap_clashes (hg : Action.Cargo g) (body : List Statement) :
    (clashes body).flatMap g = [] := by
  apply List.flatMap_eq_nil_iff.mpr
  intro a ha
  obtain ⟨name, first, rfl⟩ := exists_of_mem_clashesFrom ha
  exact hg.clash name first

/-- A statement without a body comes after the blocks beside it. -/
theorem perm_leaf {s : Statement} {ss : List Statement} (hs : s.isBlock = false)
    (hleaf : s.leafAction? = some s.opening) (hall : s.all = [s])
    (ih : ((blockActions ss ++ ss.filterMap leafAction?).flatMap g).Perm
      ((allIn ss).flatMap fun s => g s.opening)) :
    ((blockActions (s :: ss) ++ (s :: ss).filterMap leafAction?).flatMap g).Perm
      ((allIn (s :: ss)).flatMap fun s => g s.opening) := by
  rw [blockActions, hs, List.filterMap_cons_some hleaf, allIn_cons, hall, List.singleton_append,
    List.flatMap_cons]
  calc ((blockActions ss ++ s.opening :: ss.filterMap leafAction?).flatMap g).Perm
        ((s.opening :: (blockActions ss ++ ss.filterMap leafAction?)).flatMap g) :=
        List.perm_middle.flatMap_right g
    _ = g s.opening ++ (blockActions ss ++ ss.filterMap leafAction?).flatMap g :=
        List.flatMap_cons
    List.Perm _ (g s.opening ++ (allIn ss).flatMap fun s => g s.opening) := ih.append_left _

mutual

theorem actions_perm (hg : Action.Cargo g) :
    ∀ s : Statement, (s.actions.flatMap g).Perm (s.all.flatMap fun s => g s.opening)
  | .block head body => by
      simp only [actions, List.cons_append, List.flatMap_cons, List.flatMap_append,
        flatMap_clashes hg, hg.leave, List.flatMap_nil, List.append_nil, List.nil_append,
        all_block]
      rw [← List.flatMap_append]
      exact (body_perm hg body).append_left _
  | .property p => .refl _
  | .deleteNode d => .refl _
  | .deleteProperty d => .refl _

/-- The blocks of a body and then the rest of it, against the order of writing. -/
theorem body_perm (hg : Action.Cargo g) :
    ∀ ss : List Statement, ((blockActions ss ++ ss.filterMap leafAction?).flatMap g).Perm
      ((allIn ss).flatMap fun s => g s.opening)
  | [] => .refl _
  | .block head body :: ss => by
      simp only [blockActions, isBlock, if_true, List.filterMap_cons, leafAction?, allIn_cons,
        List.append_assoc, List.flatMap_append]
      rw [← List.flatMap_append]
      exact (actions_perm hg (.block head body)).append (body_perm hg ss)
  | .property p :: ss => perm_leaf rfl rfl rfl (body_perm hg ss)
  | .deleteNode d :: ss => perm_leaf rfl rfl rfl (body_perm hg ss)
  | .deleteProperty d :: ss => perm_leaf rfl rfl rfl (body_perm hg ss)

end

end Statement

namespace Linkage

/-- The statements of some files at every depth, in the order of writing. -/
def statementsOf (files : List SourceFile) : List Statement :=
  files.flatMap fun f => Statement.allIn f.statements

/-- What the actions of some files bring along is what their statements hold. -/
theorem actionsOf_perm {β : Type} {g : Action → List β} (hg : Action.Cargo g)
    (files : List SourceFile) :
    ((actionsOf files).flatMap g).Perm ((statementsOf files).flatMap fun s => g s.opening) := by
  have hfile : ∀ ss : List Statement, ((ss.flatMap Statement.actions).flatMap g).Perm
      ((Statement.allIn ss).flatMap fun s => g s.opening) := by
    intro ss
    induction ss with
    | nil => exact .refl _
    | cons s ss ih =>
        simp only [List.flatMap_cons, List.flatMap_append, Statement.allIn_cons]
        exact (Statement.actions_perm hg s).append ih
  induction files with
  | nil => exact .refl _
  | cons f files ih =>
      simp only [actionsOf, statementsOf, List.flatMap_cons, List.flatMap_append] at ih ⊢
      exact (hfile f.statements).append ih

end Linkage

end Devicetree
