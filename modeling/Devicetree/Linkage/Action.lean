import Devicetree.Linkage.Issue
import Devicetree.Source.Statement

/-!
# Actions

Linking takes statements apart into single actions, in the order in which they take effect.
A body's blocks come before its properties and deletes, so a statement may refer to a
sibling node defined later in the same body. The top level keeps the order of writing.
-/

namespace Devicetree

inductive Action
  /-- Two blocks of one body define the same child. -/
  | clash (name : NodeName) (first : Span)
  /-- Opens a block. -/
  | enter (head : BlockHead)
  /-- Closes the block opened last. -/
  | leave
  | property (definition : PropertyDef)
  | deleteNode (delete : DeleteNode)
  | deleteProperty (delete : DeleteProperty)
deriving DecidableEq, Repr

namespace Statement

/-- The clashes of a body. A name is seen from its first block on, until it is deleted. -/
def clashesFrom (seen : List NodeName) : List Statement → List Action
  | [] => []
  | .block ⟨_, _, .child name, _⟩ _ :: rest =>
    match seen.find? (·.value = name.value) with
    | some first => .clash name first.span :: clashesFrom seen rest
    | none => clashesFrom (seen ++ [name]) rest
  | .deleteNode ⟨_, _, .name name, _⟩ :: rest =>
    clashesFrom (seen.filter (·.value ≠ name.value)) rest
  | _ :: rest => clashesFrom seen rest

theorem exists_of_mem_clashesFrom {seen : List NodeName} {body : List Statement} {a : Action}
    (h : a ∈ clashesFrom seen body) : ∃ name first, a = .clash name first := by
  induction body generalizing seen with
  | nil => cases h
  | cons s rest ih =>
      unfold clashesFrom at h
      split at h
      · cases h
      · rename_i heq
        cases heq
        split at h
        · rcases List.mem_cons.mp h with rfl | h
          · exact ⟨_, _, rfl⟩
          · exact ih h
        · exact ih h
      · rename_i heq
        cases heq
        exact ih h
      · rename_i heq
        cases heq
        exact ih h

def clashes (body : List Statement) : List Action :=
  clashesFrom [] body

/-- The action of a statement that is no block. -/
def leafAction? : Statement → Option Action
  | .block _ _ => none
  | .property p => some (.property p)
  | .deleteNode d => some (.deleteNode d)
  | .deleteProperty d => some (.deleteProperty d)

mutual

def actions : Statement → List Action
  | .block head body =>
    .enter head :: clashes body ++ blockActions body ++ body.filterMap leafAction? ++ [.leave]
  | .property p => [.property p]
  | .deleteNode d => [.deleteNode d]
  | .deleteProperty d => [.deleteProperty d]

/-- The actions of the blocks of a body. -/
def blockActions : List Statement → List Action
  | [] => []
  | s :: ss => if s.isBlock then actions s ++ blockActions ss else blockActions ss

end

end Statement

/-- The actions of a whole file. -/
def SourceFile.actions (f : SourceFile) : List Action :=
  f.statements.flatMap Statement.actions

end Devicetree
