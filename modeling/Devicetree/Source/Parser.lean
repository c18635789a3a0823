import Devicetree.Source.Numbering
import Devicetree.Source.Phrase
import Devicetree.Token.Lexer

/-!
# Reading a source file

Statements nest, and a statement that cannot be read is left out: the failure is reported
and the lexemes up to the semicolon that would have ended it are skipped. What was read of
its neighbours stays.
-/

namespace Devicetree

/-- Whether statements stand on their own or in the body of a block. -/
inductive Level
  | top
  | nested
deriving DecidableEq, Repr

/-- The lexemes after the next semicolon outside braces, or, in a body, from the brace that
closes it. -/
def skipStatement (level : Level) : Nat → List Lexeme → List Lexeme
  | _, [] => []
  | depth, l :: ls =>
    match l.token, depth with
    | .leftBrace, depth => skipStatement level (depth + 1) ls
    | .rightBrace, depth + 1 => skipStatement level depth ls
    | .rightBrace, 0 =>
      match level with
      | .top => skipStatement level 0 ls
      | .nested => l :: ls
    | .semicolon, 0 => ls
    | _, depth => skipStatement level depth ls

theorem skipStatement_length_le (level : Level) (depth : Nat) (ls : List Lexeme) :
    (skipStatement level depth ls).length ≤ ls.length := by
  induction ls generalizing depth with
  | nil => simp [skipStatement]
  | cons l ls ih =>
    unfold skipStatement
    split
    · exact Nat.le_succ_of_le (ih _)
    · exact Nat.le_succ_of_le (ih _)
    · split
      · exact Nat.le_succ_of_le (ih _)
      · exact Nat.le_refl _
    · exact Nat.le_succ _
    · exact Nat.le_succ_of_le (ih _)

theorem skipStatement_length_lt (level : Level) (l : Lexeme) (ls : List Lexeme)
    (h : level = .top ∨ l.token ≠ .rightBrace) :
    (skipStatement level 0 (l :: ls)).length < (l :: ls).length := by
  have le := fun depth => Nat.lt_succ_of_le (skipStatement_length_le level depth ls)
  unfold skipStatement
  split
  · exact le _
  · exact le _
  · split
    · exact le _
    · simp_all
  · exact Nat.lt_succ_self _
  · exact le _

/-- A statement read from the front of some lexemes, or the failure to read one, and what was
reported inside it. -/
structure Attempt (ls : List Lexeme) where
  result : Except Failure { read : Statement × List Lexeme // read.2.length < ls.length }
  reports : List Diagnostic

/-- The statements of a body at the front of some lexemes, the lexemes after them, and what was
reported. -/
structure Body (ls : List Lexeme) where
  statements : List Statement
  rest : List Lexeme
  reports : List Diagnostic
  rest_le : rest.length ≤ ls.length

/-- A missing semicolon after a block. -/
def unendedBlock (close : Span) : Diagnostic :=
  .errorAt .unexpectedToken "expected `;` after node" close "node ends here"
    (some "terminate node definitions with `\x7d;`")

/-- Ends a block after its body. A missing semicolon is reported and the block is kept. -/
def closeBlock (labels : List Label) (target : BlockTarget) (body : List Statement)
    (ls : List Lexeme) : Except Failure (Statement × List Lexeme) × List Diagnostic :=
  let block (stop : Span) : Statement :=
    .block ⟨default, labels, target, (Phrase.startSpan labels target.span).union stop⟩ body
  match Phrase.mark .rightBrace .rightBrace ls with
  | .error failure => (.error failure, [])
  | .ok (close, rest) =>
    match Phrase.semicolon rest with
    | .ok (stop, rest) => (.ok (block stop, rest), [])
    | .error _ => (.ok (block close, rest), [unendedBlock close])

theorem closeBlock_length_lt {labels : List Label} {target : BlockTarget} {body : List Statement}
    {ls rest : List Lexeme} {statement : Statement} {reports : List Diagnostic}
    (h : closeBlock labels target body ls = (.ok (statement, rest), reports)) :
    rest.length < ls.length := by
  unfold closeBlock at h
  split at h
  · cases h
  · rename_i close after hclose
    have closed := Phrase.advances_one _ _ hclose
    split at h
    · rename_i stop last hstop
      have ended := Phrase.consumes_semicolon hstop
      cases h
      exact Nat.lt_of_le_of_lt ended closed
    · cases h
      exact closed

mutual

/-- Reads one statement. Failures at the end of input are reported at `last`. -/
def readStatement (last : Span) (ls : List Lexeme) : Attempt ls :=
  match h : Phrase.opening ls with
  | .error failure => ⟨.error failure, []⟩
  | .ok (.complete statement, rest) => ⟨.ok ⟨(statement, rest), Phrase.advances_opening h⟩, []⟩
  | .ok (.block labels target, rest) =>
    have opened := Phrase.advances_opening h
    let body := readBody last rest
    match hc : closeBlock labels target body.statements body.rest with
    | (.error failure, reports) => ⟨.error failure, body.reports ++ reports⟩
    | (.ok (statement, after), reports) =>
      have closed := closeBlock_length_lt hc
      ⟨.ok ⟨(statement, after), Nat.lt_of_lt_of_le closed (Nat.le_trans body.rest_le
        (Nat.le_of_lt opened))⟩, body.reports ++ reports⟩
termination_by 2 * ls.length
decreasing_by omega

/-- Reads the statements of a body, up to the brace that closes it. -/
def readBody (last : Span) (ls : List Lexeme) : Body ls :=
  match ls with
  | [] => ⟨[], [], [], Nat.le_refl _⟩
  | l :: rest =>
    if hl : l.token = .rightBrace then ⟨[], l :: rest, [], Nat.le_refl _⟩
    else
      let attempt := readStatement last (l :: rest)
      match attempt.result with
      | .ok ⟨(statement, after), shorter⟩ =>
        let body := readBody last after
        ⟨statement :: body.statements, body.rest, attempt.reports ++ body.reports,
          Nat.le_trans body.rest_le (Nat.le_of_lt shorter)⟩
      | .error failure =>
        have skipped := skipStatement_length_lt .nested l rest (.inr hl)
        let body := readBody last (skipStatement .nested 0 (l :: rest))
        ⟨body.statements, body.rest, attempt.reports ++ failure.diagnostic last :: body.reports,
          Nat.le_trans body.rest_le (Nat.le_of_lt skipped)⟩
termination_by 2 * ls.length + 1
decreasing_by
  · omega
  · dsimp only at shorter
    omega
  · omega

end

/-- The part of a token's span between its delimiters, given what stands there. -/
def Span.enclosed (s : Span) (content : String) : Span :=
  let stop := s.stop - 1
  let stopColumn := s.stopPos.column - 1
  ⟨s.file, stop - content.utf8ByteSize, stop,
    ⟨s.stopPos.line, stopColumn - content.length⟩, ⟨s.stopPos.line, stopColumn⟩⟩

/-- What stands at the top level of a file. A directive leaves nothing behind. -/
inductive Item
  | directive
  | inclusion (found : Include)
  | statement (statement : Statement)

namespace Item

/-- The semicolon of a directive without arguments. -/
def bareDirective : Phrase Item := do
  let _ ← Phrase.semicolon
  return .directive

/-- The address, the length and the semicolon of a memory reservation. -/
def memoryReserve : Phrase Item := do
  let _ ← Phrase.word
  let _ ← Phrase.word
  let _ ← Phrase.semicolon
  return .directive

/-- The path of an include directive. -/
def includePath (keyword : Span) : Phrase Item := do
  let path ← Phrase.one .includePath Lexeme.string?
  return .inclusion ⟨⟨path.value, path.span.enclosed path.value⟩, true, keyword.union path.span⟩

/-- Reads one item, and gives what was reported inside it. -/
def read (last : Span) : List Lexeme → Except Failure (Item × List Lexeme) × List Diagnostic
  | [] => (.error ⟨.nodeOrProperty, []⟩, [])
  | l :: ls =>
    match l.token with
    | .version => (bareDirective ls, [])
    | .plugin => (bareDirective ls, [])
    | .memoryReserve => (memoryReserve ls, [])
    | .includeFile => (includePath l.span ls, [])
    | .hashInclude path quoted =>
      (.ok (.inclusion ⟨⟨path, l.span.enclosed path⟩, quoted, l.span⟩, ls), [])
    | _ =>
      let attempt := readStatement last (l :: ls)
      (attempt.result.map fun read => (.statement read.1.1, read.1.2), attempt.reports)

theorem advances_bareDirective : Phrase.Advances bareDirective :=
  (Phrase.advances_one _ _).bind fun _ => Phrase.consumes_pure _

theorem advances_memoryReserve : Phrase.Advances memoryReserve :=
  (Phrase.advances_one _ _).bind fun _ => (Phrase.advances_one _ _).consumes.bind fun _ =>
    Phrase.consumes_semicolon.bind fun _ => Phrase.consumes_pure _

theorem advances_includePath (keyword : Span) : Phrase.Advances (includePath keyword) :=
  (Phrase.advances_one _ _).bind fun _ => Phrase.consumes_pure _

theorem read_length_lt {last : Span} {ls rest : List Lexeme} {item : Item}
    {reports : List Diagnostic} (h : read last ls = (.ok (item, rest), reports)) :
    rest.length < ls.length := by
  unfold read at h
  split at h
  · cases h
  · split at h
    · exact Nat.lt_succ_of_lt (advances_bareDirective (Prod.mk.inj h).1)
    · exact Nat.lt_succ_of_lt (advances_bareDirective (Prod.mk.inj h).1)
    · exact Nat.lt_succ_of_lt (advances_memoryReserve (Prod.mk.inj h).1)
    · exact Nat.lt_succ_of_lt (advances_includePath _ (Prod.mk.inj h).1)
    · cases h
      exact Nat.lt_succ_self _
    · rename_i l ls _ _ _ _ _ _
      obtain ⟨found, -⟩ := Prod.mk.inj h
      cases hr : (readStatement last (l :: ls)).result with
      | error failure => simp [hr, Except.map] at found
      | ok read =>
        simp only [hr, Except.map, Except.ok.injEq, Prod.mk.injEq] at found
        exact found.2 ▸ read.2

end Item

/-- The items of a file and what was reported. -/
structure Items where
  items : List Item
  reports : List Diagnostic

namespace Items

/-- Reads items to the end of input. -/
def read (last : Span) (ls : List Lexeme) : Items :=
  match ls with
  | [] => ⟨[], []⟩
  | l :: rest =>
    match h : Item.read last (l :: rest) with
    | (.ok (item, after), reports) =>
      have := Item.read_length_lt h
      let items := read last after
      ⟨item :: items.items, reports ++ items.reports⟩
    | (.error failure, reports) =>
      have := skipStatement_length_lt .top l rest (.inl rfl)
      let items := read last (skipStatement .top 0 (l :: rest))
      ⟨items.items, reports ++ failure.diagnostic last :: items.reports⟩
termination_by ls.length
decreasing_by all_goals assumption

def statements (items : Items) : List Statement :=
  items.items.filterMap fun
    | .statement statement => some statement
    | _ => none

def includes (items : Items) : List Include :=
  items.items.filterMap fun
    | .inclusion found => some found
    | _ => none

end Items

namespace SourceFile

/-- The file that lexemes without trivia make up. -/
def ofLexemes (file : FileId) (ls : List Lexeme) : SourceFile :=
  let last := (ls.getLast?.map (·.span)).getD Span.origin
  let items := Items.read last ls
  ⟨file, (Statement.numberAll file 0 items.statements).1, items.includes, items.reports⟩

/-- Reads the text of a file. Lexical faults are reported before those of the grammar. -/
def read (file : FileId) (text : Text) : SourceFile :=
  let tokens := Tokens.read file text
  let parsed := ofLexemes file (tokens.lexemes.filter fun l => !l.token.isTrivia)
  { parsed with diagnostics := tokens.faults ++ parsed.diagnostics }

def hasErrors (f : SourceFile) : Bool :=
  f.diagnostics.any Diagnostic.isError

end SourceFile

end Devicetree
