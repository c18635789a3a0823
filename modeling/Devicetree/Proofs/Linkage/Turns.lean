import Devicetree.Proofs.Linkage.AppendOnly
import Devicetree.Proofs.Linkage.Schedule

/-!
# The turn of a statement

The actions of a statement, with all that its body holds, follow one another without a gap, and
after them the same bodies are open as before. So when a statement of a body has its turn, the
innermost open body is the one that it is written in. This is how the reordering of blocks within
a body leaves it alone.
-/

namespace Devicetree

/-- Actions that close every body they open, and no other. -/
def Action.Even (as : List Action) : Prop :=
  ∀ o : Outline, o.Sound → (o.run as).scopes = o.scopes

namespace Action.Even

variable {as bs : List Action}

theorem nil : Even [] :=
  fun _ _ => rfl

theorem append (h : Even as) (h' : Even bs) : Even (as ++ bs) := by
  intro o hs
  rw [Outline.run_append, h' _ (hs.run as), h _ hs]

/-- What neither opens nor closes a body leaves the open ones alone. -/
theorem single {a : Action} (hb : a.block? = none) (hl : a ≠ .leave) : Even [a] := by
  intro o _
  cases a with
  | clash name first => rfl
  | enter head => cases hb
  | leave => exact absurd rfl hl
  | property definition => rfl
  | deleteProperty delete => rfl
  | deleteNode delete =>
      change (o.deleteNode delete).scopes = o.scopes
      rw [Outline.deleteNode]
      cases o.doomed? delete.target with
      | none => rfl
      | some target => exact o.scopes_remove target delete.ref

theorem flatMap {α : Type} {xs : List α} {f : α → List Action} (h : ∀ x ∈ xs, Even (f x)) :
    Even (xs.flatMap f) := by
  induction xs with
  | nil => exact nil
  | cons x xs ih =>
      rw [List.flatMap_cons]
      exact (h x List.mem_cons_self).append (ih fun y hy => h y (List.mem_cons_of_mem _ hy))

theorem of_forall (h : ∀ a ∈ as, Even [a]) : Even as := by
  rw [← List.flatMap_singleton' as]
  exact flatMap h

/-- A block closes the body it opens. -/
theorem block (h : Even as) (head : BlockHead) : Even (.enter head :: as ++ [.leave]) := by
  intro o hs
  rw [List.cons_append, Outline.run_cons, Outline.run_append]
  change ((o.enter head).run as).scopes.tail = o.scopes
  rw [h _ (hs.enter head), Outline.scopes_enter hs]
  rfl

end Action.Even

namespace Statement

theorem even_clashes (body : List Statement) : Action.Even (clashes body) := by
  apply Action.Even.of_forall
  intro a ha
  obtain ⟨name, first, rfl⟩ := exists_of_mem_clashesFrom ha
  exact .single rfl nofun

theorem even_leaf {s : Statement} {a : Action} (h : s.leafAction? = some a) : Action.Even [a] := by
  cases s with
  | block head body => cases h
  | property p => cases h; exact .single rfl nofun
  | deleteNode d => cases h; exact .single rfl nofun
  | deleteProperty d => cases h; exact .single rfl nofun

theorem even_leaves (body : List Statement) : Action.Even (body.filterMap leafAction?) := by
  apply Action.Even.of_forall
  intro a ha
  obtain ⟨s, -, hs⟩ := List.mem_filterMap.mp ha
  exact even_leaf hs

mutual

theorem even_actions : ∀ s : Statement, Action.Even s.actions
  | .block head body => by
      have hbody := ((even_clashes body).append (even_blockActions body)).append (even_leaves body)
      rw [actions, List.cons_append, List.cons_append]
      exact hbody.block head
  | .property p => even_leaf (s := .property p) rfl
  | .deleteNode d => even_leaf (s := .deleteNode d) rfl
  | .deleteProperty d => even_leaf (s := .deleteProperty d) rfl

theorem even_blockActions : ∀ ss : List Statement, Action.Even (blockActions ss)
  | [] => .nil
  | s :: ss => by
      rw [blockActions]
      split
      · exact (even_actions s).append (even_blockActions ss)
      · exact even_blockActions ss

end

/-- The first action of a statement is the one that takes it up. -/
theorem actions_eq_cons (s : Statement) : ∃ rest, s.actions = s.opening :: rest := by
  cases s with
  | block head body => exact ⟨_, by rw [actions]; rfl⟩
  | property p => exact ⟨_, rfl⟩
  | deleteNode d => exact ⟨_, rfl⟩
  | deleteProperty d => exact ⟨_, rfl⟩

theorem blockActions_append (ss ss' : List Statement) :
    blockActions (ss ++ ss') = blockActions ss ++ blockActions ss' := by
  induction ss with
  | nil => rfl
  | cons s ss ih =>
      rw [List.cons_append, blockActions, blockActions, ih]
      split
      · rw [List.append_assoc]
      · rfl

/-- The actions between the two ends of a block. -/
def bodyActions (body : List Statement) : List Action :=
  clashes body ++ blockActions body ++ body.filterMap leafAction?

/-- In a body every statement finds the same bodies open. -/
theorem exists_turn_in_body {s : Statement} {body : List Statement} (h : s ∈ body) :
    ∃ front back, bodyActions body = front ++ s.actions ++ back ∧ Action.Even front := by
  obtain ⟨before, after, rfl⟩ := List.append_of_mem h
  have hclashes := even_clashes (before ++ s :: after)
  have hleaf : ∀ a : Action, s.leafAction? = some a → s.actions = [a] → ∃ front back,
      bodyActions (before ++ s :: after) = front ++ s.actions ++ back ∧ Action.Even front := by
    intro a ha hactions
    refine ⟨_, after.filterMap leafAction?, ?_,
      (hclashes.append (even_blockActions (before ++ s :: after))).append (even_leaves before)⟩
    rw [bodyActions, List.filterMap_append, List.filterMap_cons_some ha, hactions]
    simp only [List.append_assoc, List.singleton_append]
  cases s with
  | block head body =>
      refine ⟨_, blockActions after ++ (before ++ .block head body :: after).filterMap leafAction?,
        ?_, hclashes.append (even_blockActions before)⟩
      rw [bodyActions, blockActions_append, blockActions, isBlock, if_pos rfl]
      simp only [List.append_assoc]
  | property p => exact hleaf _ rfl rfl
  | deleteNode d => exact hleaf _ rfl rfl
  | deleteProperty d => exact hleaf _ rfl rfl

end Statement

namespace Linkage

variable {files : List SourceFile}

/-- After so many actions a statement has its turn. -/
def TurnAt (files : List SourceFile) (s : Statement) (count : Nat) : Prop :=
  s.actions <+: (actionsOf files).drop count

namespace TurnAt

variable {s : Statement} {count : Nat}

theorem action (h : TurnAt files s count) : (actionsOf files)[count]? = some s.opening := by
  obtain ⟨rest, hrest⟩ := s.actions_eq_cons
  obtain ⟨back, hback⟩ := h
  rw [hrest] at hback
  rw [← List.head?_drop, ← hback]
  rfl

/-- What follows on actions that close every body they open has its turn with the same bodies
open. -/
theorem of_even {front back : List Action} (heven : Action.Even front)
    (h : front ++ s.actions ++ back <+: (actionsOf files).drop count) :
    TurnAt files s (count + front.length) ∧
      (passAt files (count + front.length)).outline.scopes =
        (passAt files count).outline.scopes := by
  obtain ⟨rest, hrest⟩ := h
  rw [List.append_assoc, List.append_assoc] at hrest
  constructor
  · rw [TurnAt, ← List.drop_drop, ← hrest, List.drop_left]
    exact List.prefix_append _ _
  · rw [passAt_add, ← hrest, List.take_left, Pass.outline_run]
    exact heven _ (sound_passAt files count)

/-- At the top level no body is open. -/
theorem exists_top {f : SourceFile} (hf : f ∈ files) (hs : s ∈ f.statements) :
    ∃ count, TurnAt files s count ∧ (passAt files count).outline.scopes = [] := by
  have hall : actionsOf files = (files.flatMap (·.statements)).flatMap Statement.actions :=
    (List.flatMap_assoc ..).symm
  have hmem : s ∈ files.flatMap (·.statements) := List.mem_flatMap.mpr ⟨f, hf, hs⟩
  obtain ⟨before, after, hsplit⟩ := List.append_of_mem hmem
  have heven : Action.Even (before.flatMap Statement.actions) :=
    .flatMap fun t _ => t.even_actions
  have hfirst : before.flatMap Statement.actions ++ s.actions ++ after.flatMap Statement.actions <+:
      (actionsOf files).drop 0 := by
    refine ⟨[], ?_⟩
    rw [List.append_nil, List.drop_zero, hall, hsplit, List.flatMap_append, List.flatMap_cons,
      List.append_assoc]
  exact ⟨_, of_even heven hfirst⟩

/-- Once a block is open the actions of its body follow. -/
theorem drop_body {head : BlockHead} {body : List Statement}
    (h : TurnAt files (.block head body) count) :
    ∃ rest, (actionsOf files).drop (count + 1) = Statement.bodyActions body ++ rest := by
  obtain ⟨rest, hrest⟩ := h
  refine ⟨.leave :: rest, ?_⟩
  rw [← List.drop_drop, ← hrest, Statement.actions, Statement.bodyActions]
  simp only [List.cons_append, List.drop_succ_cons, List.drop_zero, List.append_assoc,
    List.nil_append]

/-- In a body, the innermost open body is that of the node its block is about. -/
theorem in_body {head : BlockHead} {body : List Statement} {front back : List Action}
    (h : TurnAt files (.block head body) count) (heven : Action.Even front)
    (hbody : Statement.bodyActions body = front ++ s.actions ++ back) :
    TurnAt files s (count + 1 + front.length) ∧
      (passAt files (count + 1 + front.length)).outline.scope.node =
        (passAt files count).outline.subject (.enter head) := by
  have hblock : front ++ s.actions ++ back <+: (actionsOf files).drop (count + 1) := by
    obtain ⟨rest, hrest⟩ := h.drop_body
    rw [hrest, hbody]
    exact List.prefix_append _ _
  obtain ⟨hturn, hscopes⟩ := of_even heven hblock
  refine ⟨hturn, ?_⟩
  have hscope : (passAt files (count + 1 + front.length)).outline.scope =
      (passAt files (count + 1)).outline.scope := by
    rw [Outline.scope, hscopes]
    rfl
  rw [hscope, passAt_succ h.action, Pass.outline_step]
  rfl

theorem exists_of_mem_body {head : BlockHead} {body : List Statement}
    (h : TurnAt files (.block head body) count) (hs : s ∈ body) :
    ∃ later, TurnAt files s later ∧ (passAt files later).outline.scope.node =
      (passAt files count).outline.subject (.enter head) := by
  obtain ⟨front, back, hbody, heven⟩ := Statement.exists_turn_in_body hs
  exact ⟨_, h.in_body heven hbody⟩

end TurnAt

mutual

theorem turnAt_all {s : Statement} : ∀ t : Statement, ∀ {count}, TurnAt files t count →
    s ∈ t.all → ∃ later, TurnAt files s later
  | .block head body, count, h, hs => by
      rw [Statement.all_block] at hs
      rcases List.mem_cons.mp hs with rfl | hs
      · exact ⟨count, h⟩
      · exact turnAt_allIn body (fun t ht => (h.exists_of_mem_body ht).imp fun _ h => h.1) hs
  | .property p, count, h, hs => ⟨count, List.mem_singleton.mp hs ▸ h⟩
  | .deleteNode d, count, h, hs => ⟨count, List.mem_singleton.mp hs ▸ h⟩
  | .deleteProperty d, count, h, hs => ⟨count, List.mem_singleton.mp hs ▸ h⟩

theorem turnAt_allIn {s : Statement} : ∀ ts : List Statement,
    (∀ t ∈ ts, ∃ count, TurnAt files t count) → s ∈ Statement.allIn ts →
      ∃ later, TurnAt files s later
  | [], _, hs => by cases hs
  | t :: ts, h, hs => by
      rw [Statement.allIn_cons] at hs
      rcases List.mem_append.mp hs with hs | hs
      · obtain ⟨count, ht⟩ := h t List.mem_cons_self
        exact turnAt_all t ht hs
      · exact turnAt_allIn ts (fun u hu => h u (List.mem_cons_of_mem _ hu)) hs

end

/-- Every statement has its turn, at whatever depth it is written. -/
theorem exists_turnAt {s : Statement} (h : s ∈ statementsOf files) :
    ∃ count, TurnAt files s count := by
  obtain ⟨f, hf, hs⟩ := List.mem_flatMap.mp h
  exact turnAt_allIn f.statements (fun t ht => (TurnAt.exists_top hf ht).imp fun _ h => h.1) hs

end Linkage

end Devicetree
