import Devicetree.Linkage.Query
import Devicetree.Proofs.Linkage.Ownership
import Devicetree.Proofs.Source.Covering

/-!
# The node at a position

The element at a position is the last on the way down to it, and the node there is the owner of
the innermost statement on that way. A position has an element exactly if a statement at the top
level of its file covers it: from there on every statement met has an owner, since linking took it
up, at whatever depth it is written.
-/

namespace Devicetree

namespace Element

variable {file : FileId} {p : Position} {es chain : List Element}

/-- The last statement of a chain of elements. -/
def Innermost (chain : List Element) (s : Statement) : Prop :=
  ∃ outer inner, chain = outer ++ .statement s :: inner ∧ ∀ e ∈ inner, ∀ t, e ≠ .statement t

/-- Statements are looked for from the innermost element outwards. -/
theorem innermost_of_findSome? {f : Element → Option Statement}
    (hf : ∀ e s, f e = some s ↔ e = .statement s) {s : Statement}
    (h : chain.reverse.findSome? f = some s) : Innermost chain s := by
  obtain ⟨inner, e, outer, hsplit, he, hinner⟩ := List.findSome?_eq_some_iff.mp h
  obtain rfl := (hf e s).mp he
  refine ⟨outer.reverse, inner.reverse, ?_, fun d hd t ht => ?_⟩
  · rw [← List.reverse_reverse chain, hsplit, List.reverse_append, List.reverse_cons,
      List.append_assoc, List.singleton_append]
  · have hnone := hinner d (List.mem_reverse.mp hd)
    rw [(hf d t).mpr ht] at hnone
    cases hnone

/-- If a chain holds a statement, one is found in it. -/
theorem exists_of_findSome? {α : Type} {f : Element → Option Statement}
    (hf : ∀ e s, f e = some s ↔ e = .statement s) {g : Statement → Option α} {t : Statement}
    (ht : .statement t ∈ chain) (h : (chain.reverse.findSome? f).bind g = none) :
    ∃ s, .statement s ∈ chain ∧ g s = none := by
  cases hfound : chain.reverse.findSome? f with
  | none =>
      have hnone := List.findSome?_eq_none_iff.mp hfound _ (List.mem_reverse.mpr ht)
      rw [(hf _ t).mpr rfl] at hnone
      cases hnone
  | some s =>
      obtain ⟨outer, inner, rfl, -⟩ := innermost_of_findSome? hf hfound
      rw [hfound] at h
      exact ⟨s, List.mem_append_right _ List.mem_cons_self, h⟩

/-- A way down is not empty if there is something to begin with. -/
theorem Descent.ne_nil_iff (h : Descent file p es chain) :
    chain ≠ [] ↔ ∃ e ∈ es, e.span.covers file p = true := by
  cases h with
  | stop hnone =>
      refine ⟨fun hne => absurd rfl hne, ?_⟩
      rintro ⟨e, he, hcovers⟩
      rw [hnone e he] at hcovers
      cases hcovers
  | @step _ rest e hlast _ =>
      obtain ⟨before, after, rfl, hcovers, -⟩ := hlast
      refine ⟨fun _ => ⟨e, ?_, hcovers⟩, fun _ => List.cons_ne_nil _ _⟩
      exact List.mem_append_right _ List.mem_cons_self

/-- A way down from statements begins with one. -/
theorem Descent.exists_statement {ss : List Statement}
    (h : Descent file p (ss.map .statement) chain) (hne : chain ≠ []) :
    ∃ t, .statement t ∈ chain := by
  cases h with
  | stop _ => exact absurd rfl hne
  | @step _ rest e hlast _ =>
      obtain ⟨before, after, hsplit, -, -⟩ := hlast
      have he : e ∈ ss.map statement := hsplit ▸ List.mem_append_right _ List.mem_cons_self
      obtain ⟨t, -, rfl⟩ := List.mem_map.mp he
      exact ⟨t, List.mem_cons_self⟩

end Element

namespace Linkage

variable {files : List SourceFile} {f : SourceFile} {p : Position}

/-- The statements on the way down are statements of the file. -/
theorem statement_of_mem_ancestry (hf : f ∈ files) {s : Statement}
    (h : .statement s ∈ f.ancestry p) : s ∈ statementsOf files := by
  obtain ⟨e, he, hholds⟩ := (f.descent_ancestry p).holds _ h
  obtain ⟨t, ht, rfl⟩ := List.mem_map.mp he
  obtain ⟨t', heq, hs⟩ := Element.mem_all_of_holds hholds
  cases heq
  exact List.mem_flatMap.mpr ⟨f, hf, Statement.mem_allIn.mpr ⟨t, ht, hs⟩⟩

/-- Among files with numbers of their own each is found by its number. -/
theorem source?_link (hnodup : (files.map (·.file)).Nodup) (hf : f ∈ files)
    (reportUnresolved : Bool) (generation : Nat) :
    (link files reportUnresolved generation).source? f.file = some f := by
  change files.find? (fun g => g.file = f.file) = some f
  rw [← List.head?_filter, filter_key_eq SourceFile.file hnodup hf]
  rfl

/-- The element found at a position is the last on the way down, with the innermost statement
there and the owner of that one. -/
theorem deepest?_eq_some {l : Linkage} {c : Cursor} {d : Deepest}
    (hsource : l.source? c.file = some f) (h : l.deepest? c = some d) :
    (f.ancestry c.position).getLast? = some d.element ∧
      Element.Innermost (f.ancestry c.position) d.statement ∧
      l.owner? d.statement.id = some d.node := by
  obtain ⟨_, hfile, h⟩ := Option.bind_eq_some_iff.mp h
  obtain rfl := Option.some_inj.mp (hsource.symm.trans hfile)
  obtain ⟨element, helement, h⟩ := Option.bind_eq_some_iff.mp h
  obtain ⟨statement, hstatement, h⟩ := Option.bind_eq_some_iff.mp h
  obtain ⟨node, hnode, h⟩ := Option.bind_eq_some_iff.mp h
  cases h
  refine ⟨?_, ?_, hnode⟩
  · rw [← List.head?_reverse]
    exact helement
  · refine Element.innermost_of_findSome? (fun e s => ?_) hstatement
    cases e <;> simp

/-- Where a statement at the top level covers a position, an element is found. -/
theorem deepest?_ne_none (hparsed : ∀ f ∈ files, f.Parsed) (hnodup : (files.map (·.file)).Nodup)
    (hf : f ∈ files) {s : Statement} (hs : s ∈ f.statements)
    (hcovers : s.span.covers f.file p = true) (reportUnresolved : Bool) (generation : Nat) :
    (link files reportUnresolved generation).deepest? ⟨f.file, p⟩ ≠ none := by
  intro hnone
  have hdescent := f.descent_ancestry p
  have hne : f.ancestry p ≠ [] :=
    hdescent.ne_nil_iff.mpr ⟨.statement s, List.mem_map_of_mem hs, hcovers⟩
  obtain ⟨t, ht⟩ := hdescent.exists_statement hne
  have hlast : (f.ancestry p).reverse.head? = some ((f.ancestry p).getLast hne) := by
    rw [List.head?_reverse, List.getLast?_eq_some_getLast hne]
  have hrest := Option.bind_eq_none_iff.mp hnone f (source?_link hnodup hf _ _)
  have hfound := Option.bind_eq_none_iff.mp hrest _ hlast
  obtain ⟨u, hu, howner⟩ := Element.exists_of_findSome? (fun e s => by cases e <;> simp) ht hfound
  obtain ⟨count, hturn⟩ := exists_turnAt (statement_of_mem_ancestry hf hu)
  have hnode := Option.bind_eq_none_iff.mp howner _ (hturn.owner? hparsed hnodup)
  cases hnode

/-- The elements at a position of a file as read are the way down to it from the statements of the
file: see `Element.Descent`. Among them is every element, at any depth, that has the position
strictly between its ends. Where files with numbers of their own are linked, an element is found at
a position exactly if a statement at the top level of its file covers it. It is the last on the way
down, and its node is the owner of the innermost statement there. -/
theorem positions_looked_up :
    (∀ (file : FileId) (text : Text) (p : Position),
      let f := SourceFile.read file text
      Element.Descent file p (f.statements.map .statement) (f.ancestry p) ∧
        ∀ e, f.Holds e → e.span.Surrounds p → e ∈ f.ancestry p) ∧
    ∀ (files : List SourceFile) (reportUnresolved : Bool) (generation : Nat),
      (∀ f ∈ files, f.Parsed) → (files.map (·.file)).Nodup →
      let l := link files reportUnresolved generation
      ∀ c : Cursor,
        ((l.deepest? c).isSome = true ↔ ∃ f ∈ files, f.file = c.file ∧
          ∃ s ∈ f.statements, s.span.covers c.file c.position = true) ∧
        ∀ d, l.deepest? c = some d → ∃ f ∈ files, f.file = c.file ∧
          (f.ancestry c.position).getLast? = some d.element ∧
          Element.Innermost (f.ancestry c.position) d.statement ∧
          l.owner? d.statement.id = some d.node := by
  refine ⟨fun file text p => ⟨?_, fun e => SourceFile.mem_ancestry⟩, ?_⟩
  · exact (SourceFile.read file text).descent_ancestry p
  intro files reportUnresolved generation hparsed hnodup l c
  -- What is found is found in the file with the number of the cursor.
  have hfound : ∀ d, l.deepest? c = some d → ∃ f ∈ files, f.file = c.file ∧
      (f.ancestry c.position).getLast? = some d.element ∧
      Element.Innermost (f.ancestry c.position) d.statement ∧
      l.owner? d.statement.id = some d.node := by
    intro d hd
    obtain ⟨f, hsource, -⟩ := Option.bind_eq_some_iff.mp hd
    have hfile : f.file = c.file := by simpa using List.find?_some hsource
    exact ⟨f, List.mem_of_find?_eq_some hsource, hfile, deepest?_eq_some hsource hd⟩
  refine ⟨⟨fun h => ?_, ?_⟩, hfound⟩
  · obtain ⟨d, hd⟩ := Option.isSome_iff_exists.mp h
    obtain ⟨f, hf, hfile, hlast, -, -⟩ := hfound d hd
    have hne : f.ancestry c.position ≠ [] := by
      intro hnil
      rw [hnil] at hlast
      cases hlast
    obtain ⟨e, he, hcovers⟩ := (f.descent_ancestry c.position).ne_nil_iff.mp hne
    obtain ⟨s, hs, rfl⟩ := List.mem_map.mp he
    exact ⟨f, hf, hfile, s, hs, hfile ▸ hcovers⟩
  · rintro ⟨f, hf, hfile, s, hs, hcovers⟩
    obtain ⟨file, p⟩ := c
    obtain rfl : f.file = file := hfile
    exact Option.isSome_iff_ne_none.mpr
      (deepest?_ne_none hparsed hnodup hf hs hcovers reportUnresolved generation)

/-- A property in a block in a block, read from `/{n{x;};};`. -/
def nestedFile : SourceFile :=
  .read ⟨0⟩ "/\x7bn\x7bx;\x7d;\x7d;".toList

/-- Between the name of the property and its semicolon the property is found, and it belongs to
the inner block. -/
theorem nestedFile_looked_up :
    (∃ e, nestedFile.Holds e ∧ e.span.Surrounds ⟨0, 5⟩ ∧ e.children.length = 1 ∧
      e ∈ nestedFile.ancestry ⟨0, 5⟩) ∧
    ∃ d, (link [nestedFile] true 0).deepest? ⟨⟨0⟩, ⟨0, 5⟩⟩ = some d ∧
      (link [nestedFile] true 0).owner? d.statement.id = some d.node := by
  have hparsed : ∀ f ∈ [nestedFile], f.Parsed := List.forall_mem_singleton.mpr ⟨_, rfl⟩
  have helement : ∃ s ∈ nestedFile.statements, ∃ b ∈ (Element.statement s).children,
      ∃ e ∈ b.children, (e.span.startPos < ⟨0, 5⟩ ∧ ⟨0, 5⟩ < e.span.stopPos) ∧
        e.children.length = 1 := by
    decide +kernel
  obtain ⟨s, hs, b, hb, e, he, hp, hlength⟩ := helement
  have hholds : nestedFile.Holds e := ⟨s, hs, .tail (.tail .refl hb) he⟩
  have hcovers : ∃ f ∈ [nestedFile], f.file = ⟨0⟩ ∧
      ∃ s ∈ f.statements, s.span.covers ⟨0⟩ ⟨0, 5⟩ = true := by
    decide +kernel
  have hlookup := positions_looked_up.2 [nestedFile] true 0 hparsed (by decide) ⟨⟨0⟩, ⟨0, 5⟩⟩
  obtain ⟨d, hd⟩ := Option.isSome_iff_exists.mp (hlookup.1.mpr hcovers)
  obtain ⟨-, -, -, -, -, howner⟩ := hlookup.2 d hd
  exact ⟨⟨e, hholds, hp, hlength, (positions_looked_up.1 _ _ _).2 e hholds hp⟩, d, hd, howner⟩

end Linkage

end Devicetree
