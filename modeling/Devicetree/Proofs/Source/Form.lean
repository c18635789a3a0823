import Devicetree.Source.Numbering

/-!
# Forms

A form is what a file says without where it says it: no spans and no numbers. Two statements of
one form are about the same nodes and properties, and only their places differ.
-/

namespace Devicetree

inductive ReferenceForm
  | label (name : String)
  | path (segments : List UnitName)
deriving DecidableEq, Repr

inductive CellForm
  | number (value : UInt64)
  | symbol (name : String)
  | reference (ref : ReferenceForm)
deriving DecidableEq, Repr

inductive ValueForm
  | string (content : String)
  | cells (cells : List CellForm)
  | bytes (content : List UInt8)
  | reference (ref : ReferenceForm)
deriving DecidableEq, Repr

structure PropertyForm where
  labels : List String
  name : String
  values : List ValueForm
deriving DecidableEq, Repr

inductive DeleteForm
  | name (name : UnitName)
  | reference (ref : ReferenceForm)
deriving DecidableEq, Repr

inductive TargetForm
  | root
  | child (name : UnitName)
  | reference (ref : ReferenceForm)
deriving DecidableEq, Repr

/-- A statement without a body. -/
inductive LeafForm
  | property (definition : PropertyForm)
  | deleteNode (target : DeleteForm)
  | deleteProperty (name : String)
deriving DecidableEq, Repr

inductive StatementForm
  | leaf (leaf : LeafForm)
  | block (labels : List String) (target : TargetForm) (body : List StatementForm)
deriving Repr

structure IncludeForm where
  path : String
  quoted : Bool
deriving DecidableEq, Repr

structure FileForm where
  statements : List StatementForm
  includes : List IncludeForm
deriving Repr

def Reference.form : Reference → ReferenceForm
  | label ref => .label ref.label
  | path ref => .path (ref.segments.map (·.value))

def Cell.form : Cell → CellForm
  | number value => .number value.value
  | symbol name => .symbol name.value
  | reference ref => .reference ref.form

def Value.form : Value → ValueForm
  | string content => .string content.value
  | cells cs _ => .cells (cs.map Cell.form)
  | bytes content => .bytes content.value
  | reference ref => .reference ref.form

def PropertyDef.form (p : PropertyDef) : PropertyForm :=
  ⟨p.labels.map (·.value), p.name.value, p.values.map Value.form⟩

def DeleteTarget.form : DeleteTarget → DeleteForm
  | name n => .name n.value
  | reference ref => .reference ref.form

def BlockTarget.form : BlockTarget → TargetForm
  | root _ => .root
  | child name => .child name.value
  | reference ref => .reference ref.form

namespace Statement

mutual

def form : Statement → StatementForm
  | .block head body => .block (head.labels.map (·.value)) head.target.form (forms body)
  | .property p => .leaf (.property p.form)
  | .deleteNode d => .leaf (.deleteNode d.target.form)
  | .deleteProperty d => .leaf (.deleteProperty d.name.value)

def forms : List Statement → List StatementForm
  | [] => []
  | s :: ss => s.form :: forms ss

end

theorem forms_eq_map (ss : List Statement) : forms ss = ss.map form := by
  induction ss with
  | nil => rfl
  | cons s ss ih => rw [forms, ih, List.map_cons]

end Statement

def Include.form (i : Include) : IncludeForm :=
  ⟨i.path.value, i.quoted⟩

def SourceFile.form (f : SourceFile) : FileForm :=
  ⟨Statement.forms f.statements, f.includes.map Include.form⟩

/-! ### Numbering -/

section Numbering

variable (file : FileId)

@[simp] theorem Reference.form_withId (id : AstId) (ref : Reference) :
    (ref.withId id).form = ref.form := by
  cases ref <;> rfl

theorem Cell.form_renumber (next : Nat) (c : Cell) : (c.renumber file next).1.form = c.form := by
  cases c with
  | reference ref => simp only [Cell.renumber, Cell.form, Reference.form_withId]
  | number value => rfl
  | symbol name => rfl

theorem Cell.forms_numberAll (next : Nat) (cs : List Cell) :
    (numberAll file next cs).1.map form = cs.map form := by
  induction cs generalizing next with
  | nil => rfl
  | cons c cs ih => simp only [numberAll, List.map_cons, form_renumber, ih]

theorem Value.form_number (next : Nat) (v : Value) : (v.number file next).1.form = v.form := by
  cases v with
  | reference ref => simp only [Value.number, Value.form, Reference.form_withId]
  | cells cs span => simp only [Value.number, Value.form, Cell.forms_numberAll]
  | string content => rfl
  | bytes content => rfl

theorem Value.forms_numberAll (next : Nat) (vs : List Value) :
    (numberAll file next vs).1.map form = vs.map form := by
  induction vs generalizing next with
  | nil => rfl
  | cons v vs ih => simp only [numberAll, List.map_cons, form_number, ih]

theorem BlockTarget.form_number (next : Nat) (target : BlockTarget) :
    (target.number file next).1.form = target.form := by
  cases target with
  | reference ref => simp only [BlockTarget.number, BlockTarget.form, Reference.form_withId]
  | root slash => rfl
  | child name => rfl

theorem DeleteTarget.form_number (next : Nat) (target : DeleteTarget) :
    (target.number file next).1.form = target.form := by
  cases target with
  | reference ref => simp only [DeleteTarget.number, DeleteTarget.form, Reference.form_withId]
  | name n => rfl

namespace Statement

mutual

/-- Numbering changes no form. -/
theorem form_number (next : Nat) : ∀ s : Statement, (number file next s).1.form = s.form
  | .block head body => by
      simp only [number, form, BlockTarget.form_number, forms_numberAll]
  | .property p => by
      simp only [number, form, PropertyDef.form, Value.forms_numberAll]
  | .deleteNode d => by
      simp only [number, form, DeleteTarget.form_number]
  | .deleteProperty d => rfl

theorem forms_numberAll (next : Nat) :
    ∀ ss : List Statement, forms (numberAll file next ss).1 = forms ss
  | [] => rfl
  | s :: ss => by
      simp only [numberAll, forms, form_number, forms_numberAll]

end

end Statement

end Numbering

end Devicetree
