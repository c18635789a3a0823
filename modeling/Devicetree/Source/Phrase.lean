import Devicetree.Source.Statement
import Devicetree.Token.Basic

/-!
# Phrases

The parts of the grammar that need no recursion: names, values, properties, deletes, and the
openings of blocks. A phrase is read from the front of a list of lexemes without trivia. One
that fails says what it expected and where; the lexemes before that place did fit.
-/

namespace Devicetree

/-- What the grammar required where reading failed. -/
inductive Expected
  | semicolon
  | leftBrace
  | rightBrace
  | rightAngle
  | rightBracket
  | name
  | propertyValue
  | nodeOrProperty
  | deleteTarget
  | includePath
deriving DecidableEq, Repr

def Expected.text : Expected → String
  | semicolon => "`;`"
  | leftBrace => "`\x7b`"
  | rightBrace => "`\x7d`"
  | rightAngle => "`>`"
  | rightBracket => "`]`"
  | name => "name"
  | propertyValue => "property value"
  | nodeOrProperty => "node or property"
  | deleteTarget => "node name or reference"
  | includePath => "include path"

/-- What was expected, and the lexemes found instead. -/
structure Failure where
  expected : Expected
  rest : List Lexeme
deriving DecidableEq, Repr

/-- A failure is reported at the lexeme found, or at the end of what there is. -/
def Failure.diagnostic (f : Failure) (lastSpan : Span) : Diagnostic :=
  match f.rest with
  | l :: _ =>
    .errorAt .unexpectedToken ("expected " ++ f.expected.text ++ ", found `" ++ l.token.text ++ "`")
      l.span "unexpected token" (some "the rest of this statement is skipped")
  | [] =>
    .errorAt .incompleteInput ("unexpected end of input, expected " ++ f.expected.text)
      lastSpan "incomplete" (some "check for an unclosed `\x7b`")

/-- A reader of one phrase: what was read, and the lexemes that follow it. -/
abbrev Phrase (α : Type) : Type :=
  List Lexeme → Except Failure (α × List Lexeme)

namespace PathRef

/-- The non-empty segments of a path, the first of which begins at `offset` in the text of
the reference. -/
def segmentsFrom (span : Span) (text : Text) (offset : Nat) : List Text → List NodeName
  | [] => []
  | segment :: rest =>
    let stop := offset + segment.size
    let names := segmentsFrom span text (stop + 1) rest
    if segment.isEmpty then names
    else ⟨UnitName.read (String.ofList segment), span.part text offset stop⟩ :: names

/-- The reference written `&{path}`. -/
def read (path : String) (span : Span) : PathRef :=
  let text := (Token.pathRef path).text.toList
  ⟨default, segmentsFrom span text 2 (path.toList.splitOn '/'), span⟩

end PathRef

namespace Lexeme

def label? (l : Lexeme) : Option Label :=
  match l.token with
  | .label name => some ⟨name, l.span⟩
  | _ => none

def word? (l : Lexeme) : Option (Spanned String) :=
  match l.token with
  | .word text => some ⟨text, l.span⟩
  | _ => none

def string? (l : Lexeme) : Option (Spanned String) :=
  match l.token with
  | .string content => some ⟨content, l.span⟩
  | _ => none

def reference? (l : Lexeme) : Option Reference :=
  match l.token with
  | .labelRef name => some (.label ⟨default, name, l.span⟩)
  | .pathRef path => some (.path (PathRef.read path l.span))
  | _ => none

def cell? (l : Lexeme) : Option Cell :=
  match l.token with
  | .word text =>
    match Numeral.cell? text with
    | some n => some (.number ⟨n, l.span⟩)
    | none => some (.symbol ⟨text, l.span⟩)
  | _ => l.reference?.map .reference

def bytes? (l : Lexeme) : Option (List UInt8) :=
  match l.token with
  | .word text => Numeral.bytePairs? text.toList
  | _ => none

end Lexeme

namespace Phrase

instance : Monad Phrase where
  pure a := fun ls => .ok (a, ls)
  bind p f := fun ls =>
    match p ls with
    | .ok (a, rest) => f a rest
    | .error failure => .error failure

theorem pure_ok {α : Type} {a b : α} {ls rest : List Lexeme} :
    (pure a : Phrase α) ls = .ok (b, rest) ↔ a = b ∧ ls = rest := by
  change (Except.ok (a, ls) : Except Failure (α × List Lexeme)) = .ok (b, rest) ↔ _
  simp

theorem bind_ok {α β : Type} {p : Phrase α} {f : α → Phrase β} {b : β} {ls rest : List Lexeme} :
    (p >>= f) ls = .ok (b, rest) ↔ ∃ a mid, p ls = .ok (a, mid) ∧ f a mid = .ok (b, rest) := by
  change (match p ls with
    | .ok (a, mid) => f a mid
    | .error failure => .error failure) = .ok (b, rest) ↔ _
  cases p ls with
  | ok read =>
    cases read
    simp [and_assoc]
  | error => simp

theorem bind_error {α β : Type} {p : Phrase α} {f : α → Phrase β} {ls : List Lexeme}
    {failure : Failure} :
    (p >>= f) ls = .error failure ↔
      p ls = .error failure ∨ ∃ a mid, p ls = .ok (a, mid) ∧ f a mid = .error failure := by
  change (match p ls with
    | .ok (a, mid) => f a mid
    | .error failure => .error failure) = .error failure ↔ _
  cases p ls with
  | ok read =>
    cases read
    simp [and_assoc]
  | error => simp

/-- A phrase that reads at least one lexeme. -/
def Advances {α : Type} (p : Phrase α) : Prop :=
  ∀ ⦃ls rest a⦄, p ls = .ok (a, rest) → rest.length < ls.length

/-- A phrase that puts nothing back. -/
def Consumes {α : Type} (p : Phrase α) : Prop :=
  ∀ ⦃ls rest a⦄, p ls = .ok (a, rest) → rest.length ≤ ls.length

theorem Advances.consumes {α : Type} {p : Phrase α} (h : Advances p) : Consumes p :=
  fun _ _ _ hp => Nat.le_of_lt (h hp)

theorem consumes_pure {α : Type} (a : α) : Consumes (pure a : Phrase α) := by
  intro ls rest b h
  obtain ⟨-, rfl⟩ := pure_ok.mp h
  exact Nat.le_refl _

theorem Consumes.bind {α β : Type} {p : Phrase α} {f : α → Phrase β} (hp : Consumes p)
    (hf : ∀ a, Consumes (f a)) : Consumes (p >>= f) := by
  intro ls rest b h
  obtain ⟨a, mid, ha, hb⟩ := bind_ok.mp h
  exact Nat.le_trans (hf a hb) (hp ha)

theorem Advances.bind {α β : Type} {p : Phrase α} {f : α → Phrase β} (hp : Advances p)
    (hf : ∀ a, Consumes (f a)) : Advances (p >>= f) := by
  intro ls rest b h
  obtain ⟨a, mid, ha, hb⟩ := bind_ok.mp h
  exact Nat.lt_of_le_of_lt (hf a hb) (hp ha)

/-- One lexeme of a kind. -/
def one {α : Type} (expected : Expected) (f : Lexeme → Option α) : Phrase α
  | [] => .error ⟨expected, []⟩
  | l :: ls =>
    match f l with
    | some a => .ok (a, ls)
    | none => .error ⟨expected, l :: ls⟩

theorem advances_one {α : Type} (expected : Expected) (f : Lexeme → Option α) :
    Advances (one expected f) := by
  intro ls rest a h
  unfold one at h
  split at h
  · cases h
  · split at h <;> cases h
    simp

/-- The lexemes of a kind at the front of a list, and the rest of it. -/
def splitMany {α : Type} (f : Lexeme → Option α) : List Lexeme → List α × List Lexeme
  | [] => ([], [])
  | l :: ls =>
    match f l with
    | some a => (a :: (splitMany f ls).1, (splitMany f ls).2)
    | none => ([], l :: ls)

theorem splitMany_length {α : Type} (f : Lexeme → Option α) (ls : List Lexeme) :
    (splitMany f ls).2.length ≤ ls.length := by
  induction ls with
  | nil => simp [splitMany]
  | cons l ls ih =>
    unfold splitMany
    split
    · simp only [List.length_cons]
      omega
    · simp

/-- As many lexemes of a kind as there are. -/
def many {α : Type} (f : Lexeme → Option α) : Phrase (List α) :=
  fun ls => .ok (splitMany f ls)

theorem consumes_many {α : Type} (f : Lexeme → Option α) : Consumes (many f) := by
  intro ls rest as h
  simp only [many, Except.ok.injEq] at h
  have := splitMany_length f ls
  rwa [h] at this

/-- The span of one given token. -/
def mark (token : Token) (expected : Expected) : Phrase Span :=
  one expected fun l => if l.token = token then some l.span else none

def semicolon : Phrase Span :=
  mark .semicolon .semicolon

theorem consumes_semicolon : Consumes semicolon :=
  (advances_one _ _).consumes

def word : Phrase (Spanned String) :=
  one .name Lexeme.word?

/-- A cell list past its `<`. -/
def cells (start : Span) : Phrase Value := do
  let cs ← many Lexeme.cell?
  let stop ← mark .rightAngle .rightAngle
  return .cells cs (start.union stop)

theorem consumes_cells (start : Span) : Consumes (cells start) :=
  (consumes_many _).bind fun _ => (advances_one _ _).consumes.bind fun _ => consumes_pure _

/-- A byte string past its `[`. -/
def bytes (start : Span) : Phrase Value := do
  let bs ← many Lexeme.bytes?
  let stop ← mark .rightBracket .rightBracket
  return .bytes ⟨bs.flatten, start.union stop⟩

theorem consumes_bytes (start : Span) : Consumes (bytes start) :=
  (consumes_many _).bind fun _ => (advances_one _ _).consumes.bind fun _ => consumes_pure _

def value : Phrase Value
  | [] => .error ⟨.propertyValue, []⟩
  | l :: ls =>
    match l.token with
    | .string content => .ok (.string ⟨content, l.span⟩, ls)
    | .leftAngle => cells l.span ls
    | .leftBracket => bytes l.span ls
    | _ =>
      match l.reference? with
      | some ref => .ok (.reference ref, ls)
      | none => .error ⟨.propertyValue, l :: ls⟩

theorem advances_value : Advances value := by
  intro ls rest v h
  unfold value at h
  split at h
  · cases h
  · split at h
    · cases h
      simp
    · exact Nat.lt_succ_of_le (consumes_cells _ h)
    · exact Nat.lt_succ_of_le (consumes_bytes _ h)
    · split at h <;> cases h
      simp

/-- The values that follow a first one, each after a comma. -/
def moreValues : Phrase (List Value)
  | [] => .ok ([], [])
  | l :: ls =>
    if l.token = .comma then
      match h : value ls with
      | .error failure => .error failure
      | .ok (v, rest) =>
        have := advances_value h
        match moreValues rest with
        | .error failure => .error failure
        | .ok (vs, rest) => .ok (v :: vs, rest)
    else .ok ([], l :: ls)
termination_by ls => ls.length
decreasing_by simp only [List.length_cons]; omega

theorem consumes_moreValues : Consumes moreValues := by
  intro ls
  induction ls using moreValues.induct with
  | case1 =>
    intro rest vs h
    rw [moreValues] at h
    cases h
    simp
  | case2 l ls hl failure hv =>
    intro rest vs h
    rw [moreValues, if_pos hl] at h
    split at h <;> simp_all
  | case3 l ls hl v after hv hlt failure hm ih =>
    intro rest vs h
    rw [moreValues, if_pos hl] at h
    split at h <;> simp_all
  | case4 l ls hl v after hv hlt ws last hm ih =>
    intro rest vs h
    rw [moreValues, if_pos hl] at h
    split at h
    · cases h
    · rename_i v' after' hv'
      rw [hv] at hv'
      cases hv'
      rw [hm] at h
      cases h
      have := ih hm
      simp only [List.length_cons]
      omega
  | case5 l ls hl =>
    intro rest vs h
    rw [moreValues, if_neg hl] at h
    cases h
    simp

/-- One or more values. -/
def values : Phrase (List Value) := do
  let v ← value
  let vs ← moreValues
  return v :: vs

theorem consumes_values : Consumes values :=
  advances_value.consumes.bind fun _ => consumes_moreValues.bind fun _ => consumes_pure _

/-- What a property is set to, if anything. -/
def assigned : Phrase (List Value)
  | [] => .ok ([], [])
  | l :: ls => if l.token = .equals then values ls else .ok ([], l :: ls)

theorem consumes_assigned : Consumes assigned := by
  intro ls rest vs h
  unfold assigned at h
  split at h
  · cases h
    simp
  · split at h
    · exact Nat.le_succ_of_le (consumes_values h)
    · cases h
      simp

/-- Where a statement with labels begins. -/
def startSpan (labels : List Label) (otherwise : Span) : Span :=
  match labels with
  | [] => otherwise
  | label :: _ => label.span

/-- A property past its labels. -/
def property (labels : List Label) : Phrase Statement := do
  let name ← word
  let values ← assigned
  let stop ← semicolon
  return .property ⟨default, labels, name, values, (startSpan labels name.span).union stop⟩

theorem advances_property (labels : List Label) : Advances (property labels) :=
  (advances_one _ _).bind fun _ => consumes_assigned.bind fun _ =>
    consumes_semicolon.bind fun _ => consumes_pure _

def deleteTarget : Phrase DeleteTarget :=
  one .deleteTarget fun l =>
    match l.word? with
    | some name => some (.name ⟨UnitName.read name.value, name.span⟩)
    | none => l.reference?.map .reference

/-- A node delete past its keyword. -/
def deleteNode (keyword : Span) : Phrase Statement := do
  let target ← deleteTarget
  let stop ← semicolon
  return .deleteNode ⟨default, keyword, target, keyword.union stop⟩

theorem consumes_deleteNode (keyword : Span) : Consumes (deleteNode keyword) :=
  (advances_one _ _).consumes.bind fun _ => consumes_semicolon.bind fun _ => consumes_pure _

/-- A property delete past its keyword. -/
def deleteProperty (keyword : Span) : Phrase Statement := do
  let name ← word
  let stop ← semicolon
  return .deleteProperty ⟨default, keyword, name, keyword.union stop⟩

theorem consumes_deleteProperty (keyword : Span) : Consumes (deleteProperty keyword) :=
  (advances_one _ _).consumes.bind fun _ => consumes_semicolon.bind fun _ => consumes_pure _

/-- A statement read up to its end, or up to the body that its block opens. -/
inductive Opening
  | complete (statement : Statement)
  | block (labels : List Label) (target : BlockTarget)

/-- The brace that opens the body of a block. -/
def braced (labels : List Label) (target : BlockTarget) : Phrase Opening := do
  let _ ← mark .leftBrace .leftBrace
  return .block labels target

theorem consumes_braced (labels : List Label) (target : BlockTarget) :
    Consumes (braced labels target) :=
  (advances_one _ _).consumes.bind fun _ => consumes_pure _

def complete (p : Phrase Statement) : Phrase Opening := do
  let statement ← p
  return .complete statement

/-- Whether the next lexeme is a given token. -/
def nextIs (token : Token) : List Lexeme → Bool
  | [] => false
  | l :: _ => l.token == token

/-- A block's opening or a property, past the labels. A name is that of a child if a brace
follows it. -/
def labelled (labels : List Label) : Phrase Opening
  | [] => .error ⟨.nodeOrProperty, []⟩
  | l :: ls =>
    match l.token with
    | .slash => braced labels (.root l.span) ls
    | .word text =>
      if nextIs .leftBrace ls then braced labels (.child ⟨UnitName.read text, l.span⟩) ls
      else complete (property labels) (l :: ls)
    | _ =>
      match l.reference? with
      | some ref => braced labels (.reference ref) ls
      | none => .error ⟨.nodeOrProperty, l :: ls⟩

theorem advances_labelled (labels : List Label) : Advances (labelled labels) := by
  intro ls rest o h
  unfold labelled at h
  split at h
  · cases h
  · split at h
    · exact Nat.lt_succ_of_le (consumes_braced _ _ h)
    · split at h
      · exact Nat.lt_succ_of_le (consumes_braced _ _ h)
      · exact (advances_property labels).bind (fun _ => consumes_pure _) h
    · split at h
      · exact Nat.lt_succ_of_le (consumes_braced _ _ h)
      · cases h

/-- The opening of any statement. -/
def opening : Phrase Opening
  | [] => .error ⟨.nodeOrProperty, []⟩
  | l :: ls =>
    match l.token with
    | .deleteNode => complete (deleteNode l.span) ls
    | .deleteProperty => complete (deleteProperty l.span) ls
    | _ => (many Lexeme.label? >>= labelled) (l :: ls)

theorem advances_opening : Advances opening := by
  intro ls rest o h
  unfold opening at h
  split at h
  · cases h
  · split at h
    · exact Nat.lt_succ_of_le ((consumes_deleteNode _).bind (fun _ => consumes_pure _) h)
    · exact Nat.lt_succ_of_le ((consumes_deleteProperty _).bind (fun _ => consumes_pure _) h)
    · obtain ⟨labels, mid, hm, hl⟩ := bind_ok.mp h
      exact Nat.lt_of_lt_of_le (advances_labelled labels hl) (consumes_many _ hm)

end Phrase

end Devicetree
