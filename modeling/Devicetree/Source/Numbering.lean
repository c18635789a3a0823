import Devicetree.Source.Statement

/-!
# Numbering

Statements and references are numbered in the order of writing: a statement first, then the
references it holds itself, then its body. Nothing but the numbers changes.
-/

namespace Devicetree

/-- A list with every member numbered, and the next free number. -/
abbrev Numbered (α : Type) := α × Nat

namespace Cell

def renumber (file : FileId) (next : Nat) : Cell → Numbered Cell
  | reference ref => (reference (ref.withId ⟨file, next⟩), next + 1)
  | cell => (cell, next)

def numberAll (file : FileId) (next : Nat) : List Cell → Numbered (List Cell)
  | [] => ([], next)
  | c :: cs =>
    let (c, next) := c.renumber file next
    let (cs, next) := numberAll file next cs
    (c :: cs, next)

end Cell

namespace Value

def number (file : FileId) (next : Nat) : Value → Numbered Value
  | reference ref => (reference (ref.withId ⟨file, next⟩), next + 1)
  | cells cs span =>
    let (cs, next) := Cell.numberAll file next cs
    (cells cs span, next)
  | value => (value, next)

def numberAll (file : FileId) (next : Nat) : List Value → Numbered (List Value)
  | [] => ([], next)
  | v :: vs =>
    let (v, next) := v.number file next
    let (vs, next) := numberAll file next vs
    (v :: vs, next)

end Value

def BlockTarget.number (file : FileId) (next : Nat) : BlockTarget → Numbered BlockTarget
  | .reference ref => (.reference (ref.withId ⟨file, next⟩), next + 1)
  | target => (target, next)

def DeleteTarget.number (file : FileId) (next : Nat) : DeleteTarget → Numbered DeleteTarget
  | .reference ref => (.reference (ref.withId ⟨file, next⟩), next + 1)
  | target => (target, next)

namespace Statement

mutual

/-- Numbers a statement and all below it from `next` on. -/
def number (file : FileId) (next : Nat) : Statement → Numbered Statement
  | .block head body =>
    let (target, after) := head.target.number file (next + 1)
    let (body, after) := numberAll file after body
    (.block { head with id := ⟨file, next⟩, target := target } body, after)
  | .property p =>
    let (values, after) := Value.numberAll file (next + 1) p.values
    (.property { p with id := ⟨file, next⟩, values := values }, after)
  | .deleteNode d =>
    let (target, after) := d.target.number file (next + 1)
    (.deleteNode { d with id := ⟨file, next⟩, target := target }, after)
  | .deleteProperty d => (.deleteProperty { d with id := ⟨file, next⟩ }, next + 1)

def numberAll (file : FileId) (next : Nat) : List Statement → Numbered (List Statement)
  | [] => ([], next)
  | s :: ss =>
    let (s, next) := number file next s
    let (ss, next) := numberAll file next ss
    (s :: ss, next)

end

end Statement

end Devicetree
