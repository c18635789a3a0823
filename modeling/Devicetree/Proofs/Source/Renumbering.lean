import Devicetree.Proofs.Source.References

/-!
# Numbers and nothing else

The bare form of a statement is the statement with no numbers in it. Numbering leaves it as it is.
A list of statements is determined by its bare form together with its numbers in the order of
writing, so there is one way to number it from zero on, and the main result says that this is how
it is numbered.
-/

namespace Devicetree

/-! ### Bare forms -/

def Reference.bare (ref : Reference) : Reference :=
  ref.withId default

def Cell.bare : Cell → Cell
  | reference ref => reference ref.bare
  | cell => cell

def Value.bare : Value → Value
  | reference ref => reference ref.bare
  | cells cs span => cells (cs.map Cell.bare) span
  | value => value

def BlockTarget.bare : BlockTarget → BlockTarget
  | .reference ref => .reference ref.bare
  | target => target

def DeleteTarget.bare : DeleteTarget → DeleteTarget
  | .reference ref => .reference ref.bare
  | target => target

namespace Statement

mutual

/-- A statement with the default in the place of every number in it and below it. -/
def bare : Statement → Statement
  | .block head body =>
    .block { head with id := default, target := head.target.bare } (bareAll body)
  | .property p => .property { p with id := default, values := p.values.map Value.bare }
  | .deleteNode d => .deleteNode { d with id := default, target := d.target.bare }
  | .deleteProperty d => .deleteProperty { d with id := default }

def bareAll : List Statement → List Statement
  | [] => []
  | s :: ss => s.bare :: bareAll ss

end

end Statement

/-! ### Numbering keeps the bare form -/

section Kept

variable (file : FileId)

theorem Reference.bare_withId (id : AstId) (ref : Reference) : (ref.withId id).bare = ref.bare := by
  cases ref <;> rfl

theorem Cell.bare_renumber (next : Nat) (c : Cell) : (c.renumber file next).1.bare = c.bare := by
  cases c with
  | reference ref => exact congrArg Cell.reference (ref.bare_withId _)
  | _ => rfl

theorem Cell.bare_numberAll (next : Nat) (cs : List Cell) :
    (numberAll file next cs).1.map bare = cs.map bare := by
  induction cs generalizing next with
  | nil => rfl
  | cons c cs ih => simp only [numberAll, List.map_cons, bare_renumber, ih]

theorem Value.bare_number (next : Nat) (v : Value) : (v.number file next).1.bare = v.bare := by
  cases v with
  | reference ref => exact congrArg Value.reference (ref.bare_withId _)
  | cells cs span => simp only [number, bare, Cell.bare_numberAll]
  | _ => rfl

theorem Value.bare_numberAll (next : Nat) (vs : List Value) :
    (numberAll file next vs).1.map bare = vs.map bare := by
  induction vs generalizing next with
  | nil => rfl
  | cons v vs ih => simp only [numberAll, List.map_cons, bare_number, ih]

theorem BlockTarget.bare_number (next : Nat) (t : BlockTarget) :
    (t.number file next).1.bare = t.bare := by
  cases t with
  | reference ref => exact congrArg BlockTarget.reference (ref.bare_withId _)
  | _ => rfl

theorem DeleteTarget.bare_number (next : Nat) (t : DeleteTarget) :
    (t.number file next).1.bare = t.bare := by
  cases t with
  | reference ref => exact congrArg DeleteTarget.reference (ref.bare_withId _)
  | _ => rfl

namespace Statement

mutual

theorem bare_number (next : Nat) : ∀ s : Statement, (number file next s).1.bare = s.bare
  | .block head body => by
      simp only [number, bare, BlockTarget.bare_number, bareAll_numberAll]
  | .property p => by
      simp only [number, bare, Value.bare_numberAll]
  | .deleteNode d => by
      simp only [number, bare, DeleteTarget.bare_number]
  | .deleteProperty d => by
      simp only [number, bare]

theorem bareAll_numberAll (next : Nat) :
    ∀ ss : List Statement, bareAll (numberAll file next ss).1 = bareAll ss
  | [] => rfl
  | s :: ss => by
      simp only [numberAll, bareAll, bare_number, bareAll_numberAll]

end

end Statement

end Kept

/-! ### Bare forms and numbers determine statements -/

/-- Two things of one bare form are equal if the lists that begin with their numbers are, and then
so is what follows. -/
def ToldByIds {α : Type} (bare : α → α) (ids : α → List AstId) : Prop :=
  ∀ ⦃a b : α⦄ ⦃rest rest' : List AstId⦄, bare a = bare b → ids a ++ rest = ids b ++ rest' →
    a = b ∧ rest = rest'

theorem ToldByIds.list {α : Type} {bare : α → α} {ids : α → List AstId} (h : ToldByIds bare ids) :
    ToldByIds (List.map bare) (List.flatMap ids) := by
  intro as bs rest rest' hbare hids
  induction as generalizing bs with
  | nil =>
      obtain rfl := List.map_eq_nil_iff.mp hbare.symm
      exact ⟨rfl, hids⟩
  | cons a as ih =>
      cases bs with
      | nil => cases hbare
      | cons b bs =>
          obtain ⟨hhead, htail⟩ := List.cons.inj hbare
          rw [List.flatMap_cons, List.flatMap_cons, List.append_assoc, List.append_assoc] at hids
          obtain ⟨rfl, hlater⟩ := h hhead hids
          obtain ⟨rfl, hrest⟩ := ih htail hlater
          exact ⟨rfl, hrest⟩

theorem Reference.toldByIds : ToldByIds bare fun ref => [ref.id] := by
  intro ref ref' rest rest' hbare hids
  have hrestore : ∀ r : Reference, r.bare.withId r.id = r := by
    intro r
    cases r <;> rfl
  obtain ⟨hid, hrest⟩ := List.cons.inj hids
  refine ⟨?_, hrest⟩
  rw [← hrestore ref, ← hrestore ref', hbare, hid]

theorem Cell.toldByIds : ToldByIds bare fun c => c.reference?.toList.map (·.id) := by
  intro c d rest rest' hbare hids
  cases c <;> cases d
  case reference.reference ref ref' =>
    obtain ⟨rfl, hrest⟩ := Reference.toldByIds (Cell.reference.inj hbare) hids
    exact ⟨rfl, hrest⟩
  all_goals cases hbare <;> exact ⟨rfl, hids⟩

theorem Value.toldByIds : ToldByIds bare fun v => v.references.map (·.id) := by
  intro v w rest rest' hbare hids
  cases v <;> cases w
  case reference.reference ref ref' =>
    obtain ⟨rfl, hrest⟩ := Reference.toldByIds (Value.reference.inj hbare) hids
    exact ⟨rfl, hrest⟩
  case cells.cells cs span cs' span' =>
    obtain ⟨hcells, rfl⟩ := Value.cells.inj hbare
    simp only [references, List.filterMap_eq_flatMap_toList, List.map_flatMap] at hids
    obtain ⟨rfl, hrest⟩ := Cell.toldByIds.list hcells hids
    exact ⟨rfl, hrest⟩
  all_goals cases hbare <;> exact ⟨rfl, hids⟩

theorem BlockTarget.toldByIds : ToldByIds bare fun t => t.references.map (·.id) := by
  intro t u rest rest' hbare hids
  cases t <;> cases u
  case reference.reference ref ref' =>
    obtain ⟨rfl, hrest⟩ := Reference.toldByIds (BlockTarget.reference.inj hbare) hids
    exact ⟨rfl, hrest⟩
  all_goals cases hbare <;> exact ⟨rfl, hids⟩

def DeleteTarget.references : DeleteTarget → List Reference
  | .reference ref => [ref]
  | _ => []

theorem Statement.references_deleteNode (d : DeleteNode) :
    (deleteNode d).references = d.target.references := by
  obtain ⟨id, keyword, target, span⟩ := d
  cases target <;> rfl

theorem DeleteTarget.toldByIds : ToldByIds bare fun t => t.references.map (·.id) := by
  intro t u rest rest' hbare hids
  cases t <;> cases u
  case reference.reference ref ref' =>
    obtain ⟨rfl, hrest⟩ := Reference.toldByIds (DeleteTarget.reference.inj hbare) hids
    exact ⟨rfl, hrest⟩
  all_goals cases hbare <;> exact ⟨rfl, hids⟩

namespace Statement

mutual

/-- A statement is told by its bare form and the numbers in it and below it. -/
theorem toldByIds : ∀ (s t : Statement) (rest rest' : List AstId), s.bare = t.bare →
    s.all.flatMap ids ++ rest = t.all.flatMap ids ++ rest' → s = t ∧ rest = rest'
  | .block head body, t, rest, rest', hbare, hids => by
      cases t with
      | block head' body' =>
          obtain ⟨id, labels, target, span⟩ := head
          obtain ⟨id', labels', target', span'⟩ := head'
          simp only [bare, block.injEq, BlockHead.mk.injEq, true_and] at hbare
          obtain ⟨⟨rfl, htarget, rfl⟩, hbody⟩ := hbare
          -- The number of the block comes first, then that of its target, then those of its body.
          simp only [all_block, List.flatMap_cons, ids, references_block, Statement.id,
            List.cons_append, List.append_assoc, List.cons.injEq] at hids
          obtain ⟨rfl, hlater⟩ := hids
          obtain ⟨rfl, hbelow⟩ := BlockTarget.toldByIds htarget hlater
          obtain ⟨rfl, hrest⟩ := toldByIdsIn body body' rest rest' hbody hbelow
          exact ⟨rfl, hrest⟩
      | _ => simp only [bare, reduceCtorEq] at hbare
  | .property p, t, rest, rest', hbare, hids => by
      cases t with
      | property q =>
          obtain ⟨id, labels, name, values, span⟩ := p
          obtain ⟨id', labels', name', values', span'⟩ := q
          simp only [bare, property.injEq, PropertyDef.mk.injEq, true_and] at hbare
          obtain ⟨rfl, rfl, hvalues, rfl⟩ := hbare
          simp only [all_property, List.flatMap_singleton, ids, references, Statement.id,
            PropertyDef.references, List.map_flatMap, List.cons_append, List.cons.injEq] at hids
          obtain ⟨rfl, hlater⟩ := hids
          obtain ⟨rfl, hrest⟩ := Value.toldByIds.list hvalues hlater
          exact ⟨rfl, hrest⟩
      | _ => simp only [bare, reduceCtorEq] at hbare
  | .deleteNode d, t, rest, rest', hbare, hids => by
      cases t with
      | deleteNode e =>
          obtain ⟨id, keyword, target, span⟩ := d
          obtain ⟨id', keyword', target', span'⟩ := e
          simp only [bare, deleteNode.injEq, DeleteNode.mk.injEq, true_and] at hbare
          obtain ⟨rfl, htarget, rfl⟩ := hbare
          simp only [all_deleteNode, List.flatMap_singleton, ids, references_deleteNode,
            Statement.id, List.cons_append, List.cons.injEq] at hids
          obtain ⟨rfl, hlater⟩ := hids
          obtain ⟨rfl, hrest⟩ := DeleteTarget.toldByIds htarget hlater
          exact ⟨rfl, hrest⟩
      | _ => simp only [bare, reduceCtorEq] at hbare
  | .deleteProperty d, t, rest, rest', hbare, hids => by
      cases t with
      | deleteProperty e =>
          obtain ⟨id, keyword, name, span⟩ := d
          obtain ⟨id', keyword', name', span'⟩ := e
          simp only [bare, deleteProperty.injEq, DeleteProperty.mk.injEq, true_and] at hbare
          obtain ⟨rfl, rfl, rfl⟩ := hbare
          obtain ⟨rfl, hrest⟩ := List.cons.inj hids
          exact ⟨rfl, hrest⟩
      | _ => simp only [bare, reduceCtorEq] at hbare

theorem toldByIdsIn : ∀ (ss ts : List Statement) (rest rest' : List AstId),
    bareAll ss = bareAll ts →
    (allIn ss).flatMap ids ++ rest = (allIn ts).flatMap ids ++ rest' → ss = ts ∧ rest = rest'
  | [], ts, rest, rest', hbare, hids => by
      cases ts with
      | nil => exact ⟨rfl, hids⟩
      | cons t ts => simp only [bareAll, reduceCtorEq] at hbare
  | s :: ss, ts, rest, rest', hbare, hids => by
      cases ts with
      | nil => simp only [bareAll, reduceCtorEq] at hbare
      | cons t ts =>
          simp only [bareAll, List.cons.injEq] at hbare
          simp only [allIn_cons, List.flatMap_append, List.append_assoc] at hids
          obtain ⟨rfl, hlater⟩ := toldByIds s t _ _ hbare.1 hids
          obtain ⟨rfl, hrest⟩ := toldByIdsIn ss ts rest rest' hbare.2 hlater
          exact ⟨rfl, hrest⟩

end

/-- Numbering statements gives them and their references the numbers from zero on, in the order of
writing, and changes nothing else. There is no other way to do both. -/
theorem numbered_from_zero (file : FileId) (ss : List Statement) :
    let numbered := (numberAll file 0 ss).1
    let count := (numberAll file 0 ss).2
    (allIn numbered).flatMap ids = (List.range count).map (AstId.mk file) ∧
    bareAll numbered = bareAll ss ∧
    ∀ ts n, bareAll ts = bareAll ss →
      (allIn ts).flatMap ids = (List.range n).map (AstId.mk file) → ts = numbered := by
  intro numbered count
  have hids : (allIn numbered).flatMap ids = (List.range count).map (AstId.mk file) := by
    obtain ⟨length, hcount, hids⟩ := ids_numberAll file 0 ss
    rw [List.range_eq_range', show count = length from hcount.trans (Nat.zero_add _)]
    exact hids
  have hbare : bareAll numbered = bareAll ss := bareAll_numberAll file 0 ss
  refine ⟨hids, hbare, fun ts n htsBare htsIds => ?_⟩
  -- The two lists of numbers need not be of one length, so both are continued up to one end.
  have hcontinued : (allIn ts).flatMap ids ++ (List.range count).map (AstId.mk file ∘ (n + ·)) =
      (allIn numbered).flatMap ids ++ (List.range n).map (AstId.mk file ∘ (count + ·)) := by
    calc (allIn ts).flatMap ids ++ (List.range count).map (AstId.mk file ∘ (n + ·))
        = (List.range (n + count)).map (AstId.mk file) := by
          rw [htsIds, List.range_add, List.map_append, List.map_map]
      _ = (List.range (count + n)).map (AstId.mk file) := by rw [Nat.add_comm]
      _ = (allIn numbered).flatMap ids ++ (List.range n).map (AstId.mk file ∘ (count + ·)) := by
          rw [hids, List.range_add, List.map_append, List.map_map]
  exact (toldByIdsIn _ _ _ _ (htsBare.trans hbare.symm) hcontinued).1

/-- A block about a label, with references in its body. -/
def referringBlock : Statement :=
  .block ⟨default, [], .reference (.label ⟨default, "soc", .origin⟩), .origin⟩
    [.property ⟨default, [], ⟨"clocks", .origin⟩,
      [.cells [.symbol ⟨"CLK", .origin⟩, .reference (.label ⟨default, "osc", .origin⟩)] .origin,
        .reference (.path ⟨default, [], .origin⟩)], .origin⟩,
      .deleteNode ⟨default, .origin, .reference (.label ⟨default, "osc", .origin⟩), .origin⟩,
      .deleteProperty ⟨default, .origin, ⟨"reg", .origin⟩, .origin⟩]

/-- Numbered anew after having had the numbers of another file, it is as if numbered once. -/
theorem referringBlock_numbered_anew :
    let anew := (numberAll ⟨3⟩ 0 (numberAll ⟨8⟩ 5 [referringBlock]).1).1
    bareAll anew = bareAll [referringBlock] ∧
    (allIn anew).flatMap ids = (List.range 8).map (AstId.mk ⟨3⟩) ∧
    anew = (numberAll ⟨3⟩ 0 [referringBlock]).1 := by
  intro anew
  have hbare : bareAll anew = bareAll [referringBlock] := rfl
  have hids : (allIn anew).flatMap ids = (List.range 8).map (AstId.mk ⟨3⟩) := by decide
  exact ⟨hbare, hids, (numbered_from_zero ⟨3⟩ [referringBlock]).2.2 anew 8 hbare hids⟩

end Statement

end Devicetree
