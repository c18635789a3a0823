/-!
# Files and positions

A position is a zero-based line and column, ordered line first. A file is known by the
number under which it was registered.
-/

namespace Devicetree

/-- The number under which a source file was registered. It has no bound, and agrees with one of
thirty-two bits as long as fewer than `2 ^ 32` files are registered. -/
structure FileId where
  index : Nat
deriving DecidableEq, Repr, Inhabited

/-- The written form `file#3`. -/
def FileId.text (file : FileId) : String :=
  "file#" ++ Nat.repr file.index

/-- A zero-based line and a zero-based column counted in characters. They have no bound, and agree
with those of thirty-two bits in a text of fewer than `2 ^ 32` bytes. -/
structure Position where
  line : Nat
  column : Nat
deriving DecidableEq, Repr, Inhabited

namespace Position

/-- The first position of every text. -/
def origin : Position := ⟨0, 0⟩

instance : LE Position where
  le p q := p.line < q.line ∨ (p.line = q.line ∧ p.column ≤ q.column)

instance : LT Position where
  lt p q := p.line < q.line ∨ (p.line = q.line ∧ p.column < q.column)

theorem le_def {p q : Position} :
    p ≤ q ↔ p.line < q.line ∨ (p.line = q.line ∧ p.column ≤ q.column) := Iff.rfl

theorem lt_def {p q : Position} :
    p < q ↔ p.line < q.line ∨ (p.line = q.line ∧ p.column < q.column) := Iff.rfl

instance (p q : Position) : Decidable (p ≤ q) :=
  decidable_of_iff _ le_def.symm

instance (p q : Position) : Decidable (p < q) :=
  decidable_of_iff _ lt_def.symm

theorem le_refl (p : Position) : p ≤ p :=
  le_def.mpr (Or.inr ⟨rfl, Nat.le_refl _⟩)

theorem le_trans {p q r : Position} (hpq : p ≤ q) (hqr : q ≤ r) : p ≤ r := by
  rw [le_def] at *
  omega

theorem lt_iff_not_le {p q : Position} : p < q ↔ ¬ q ≤ p := by
  rw [lt_def, le_def]
  omega

/-- The written form `line:column`, both counted from one. -/
def text (p : Position) : String :=
  Nat.repr (p.line + 1) ++ ":" ++ Nat.repr (p.column + 1)

end Position

end Devicetree
