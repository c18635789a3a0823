import Mathlib.Data.List.Forall2
import Devicetree.Proofs.Source.Form
import Devicetree.Token.Basic

/-!
# The grammar

How forms are written as tokens without trivia. The relations here do not follow the reader: they
say what may stand in a file, not how it is found there.
-/

namespace Devicetree

namespace ReferenceForm

/-- The names between the slashes of a path. Between two slashes there may be no name. -/
def segmentsOf (path : String) : List UnitName :=
  ((path.toList.splitOn '/').filter (!·.isEmpty)).map fun segment =>
    UnitName.read (String.ofList segment)

inductive Written : ReferenceForm → Token → Prop
  | label (name : String) : Written (.label name) (.labelRef name)
  | path (path : String) : Written (.path (segmentsOf path)) (.pathRef path)

end ReferenceForm

/-- A word that denotes a number stands for the number, and any other word for itself. -/
inductive CellForm.Written : CellForm → Token → Prop
  | number {text : String} {n : UInt64} (h : Numeral.cell? text = some n) :
      Written (.number n) (.word text)
  | symbol {text : String} (h : Numeral.cell? text = none) : Written (.symbol text) (.word text)
  | reference {ref : ReferenceForm} {t : Token} (h : ref.Written t) : Written (.reference ref) t

/-- The bytes that one word of a byte string denotes. -/
inductive BytesWritten : List UInt8 → Token → Prop
  | word {text : String} {bytes : List UInt8} (h : Numeral.bytePairs? text.toList = some bytes) :
      BytesWritten bytes (.word text)

namespace ValueForm

inductive Written : ValueForm → List Token → Prop
  | string (content : String) : Written (.string content) [.string content]
  | cells {cs : List CellForm} {ts : List Token} (h : List.Forall₂ CellForm.Written cs ts) :
      Written (.cells cs) (.leftAngle :: (ts ++ [.rightAngle]))
  | bytes {words : List (List UInt8)} {ts : List Token} (h : List.Forall₂ BytesWritten words ts) :
      Written (.bytes words.flatten) (.leftBracket :: (ts ++ [.rightBracket]))
  | reference {ref : ReferenceForm} {t : Token} (h : ref.Written t) : Written (.reference ref) [t]

/-- Values with a comma before each. -/
inductive MoreWritten : List ValueForm → List Token → Prop
  | nil : MoreWritten [] []
  | cons {v : ValueForm} {vs : List ValueForm} {ts us : List Token} (hv : v.Written ts)
      (hvs : MoreWritten vs us) : MoreWritten (v :: vs) (.comma :: (ts ++ us))

/-- What a property is set to: nothing, or one or more values after an equals sign. -/
inductive Assigned : List ValueForm → List Token → Prop
  | nothing : Assigned [] []
  | values {v : ValueForm} {vs : List ValueForm} {ts us : List Token} (hv : v.Written ts)
      (hvs : MoreWritten vs us) : Assigned (v :: vs) (.equals :: (ts ++ us))

end ValueForm

inductive DeleteForm.Written : DeleteForm → Token → Prop
  | name (text : String) : Written (.name (UnitName.read text)) (.word text)
  | reference {ref : ReferenceForm} {t : Token} (h : ref.Written t) : Written (.reference ref) t

inductive TargetForm.Written : TargetForm → Token → Prop
  | root : Written .root .slash
  | child (text : String) : Written (.child (UnitName.read text)) (.word text)
  | reference {ref : ReferenceForm} {t : Token} (h : ref.Written t) : Written (.reference ref) t

/-- A statement without a body, up to its semicolon. -/
inductive LeafForm.Written : LeafForm → List Token → Prop
  | property (labels : List String) (name : String) {vs : List ValueForm} {ts : List Token}
      (h : ValueForm.Assigned vs ts) :
      Written (.property ⟨labels, name, vs⟩)
        (labels.map .label ++ .word name :: (ts ++ [.semicolon]))
  | deleteNode {target : DeleteForm} {t : Token} (h : target.Written t) :
      Written (.deleteNode target) [.deleteNode, t, .semicolon]
  | deleteProperty (name : String) :
      Written (.deleteProperty name) [.deleteProperty, .word name, .semicolon]

namespace StatementForm

mutual

inductive Written : StatementForm → List Token → Prop
  | leaf {leaf : LeafForm} {ts : List Token} (h : leaf.Written ts) : Written (.leaf leaf) ts
  | block (labels : List String) {target : TargetForm} {t : Token} {body : List StatementForm}
      {ts : List Token} (ht : target.Written t) (hbody : AllWritten body ts) :
      Written (.block labels target body)
        (labels.map .label ++ [t, .leftBrace] ++ ts ++ [.rightBrace, .semicolon])

/-- Statements one after another. -/
inductive AllWritten : List StatementForm → List Token → Prop
  | nil : AllWritten [] []
  | cons {s : StatementForm} {ss : List StatementForm} {ts us : List Token} (hs : Written s ts)
      (hss : AllWritten ss us) : AllWritten (s :: ss) (ts ++ us)

end

theorem AllWritten.append {ss ss' : List StatementForm} {ts us : List Token}
    (h : AllWritten ss ts) (h' : AllWritten ss' us) : AllWritten (ss ++ ss') (ts ++ us) := by
  induction ss generalizing ts with
  | nil =>
      cases h
      exact h'
  | cons s ss ih =>
      cases h with
      | cons hs hss =>
          rw [List.append_assoc]
          exact .cons hs (ih hss)

end StatementForm

/-- What stands at the top level of a file. -/
inductive ItemForm
  | directive
  | inclusion (found : IncludeForm)
  | statement (statement : StatementForm)
deriving Repr

namespace ItemForm

inductive Written : ItemForm → List Token → Prop
  | version : Written .directive [.version, .semicolon]
  | plugin : Written .directive [.plugin, .semicolon]
  | memoryReserve (address length : String) :
      Written .directive [.memoryReserve, .word address, .word length, .semicolon]
  | includeFile (path : String) : Written (.inclusion ⟨path, true⟩) [.includeFile, .string path]
  | hashInclude (path : String) (quoted : Bool) :
      Written (.inclusion ⟨path, quoted⟩) [.hashInclude path quoted]
  | statement {s : StatementForm} {ts : List Token} (h : s.Written ts) : Written (.statement s) ts

/-- Items one after another. -/
inductive AllWritten : List ItemForm → List Token → Prop
  | nil : AllWritten [] []
  | cons {i : ItemForm} {is : List ItemForm} {ts us : List Token} (hi : i.Written ts)
      (his : AllWritten is us) : AllWritten (i :: is) (ts ++ us)

def statement? : ItemForm → Option StatementForm
  | statement s => some s
  | _ => none

def inclusion? : ItemForm → Option IncludeForm
  | inclusion found => some found
  | _ => none

end ItemForm

namespace FileForm

/-- The statements and the includes among some items, in order. -/
def ofItems (items : List ItemForm) : FileForm :=
  ⟨items.filterMap ItemForm.statement?, items.filterMap ItemForm.inclusion?⟩

/-- A file is any number of items. -/
def Written (f : FileForm) (ts : List Token) : Prop :=
  ∃ items, ItemForm.AllWritten items ts ∧ ofItems items = f

end FileForm

end Devicetree
