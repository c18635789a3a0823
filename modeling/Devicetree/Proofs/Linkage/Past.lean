import Devicetree.Proofs.Linkage.Recall

/-!
# Visibility and the past

A cursor between two top-level statements divides what the files say into what comes before it
and what comes after it. The spans of the former are all in scope at the cursor, and those of
the latter are not. So the queries about what is visible there give what linking the former
alone would give, whatever the rest replaces, deletes or adds.
-/

namespace Devicetree

/-- A file cut down to the top-level statements that end at a position at the latest. -/
def SourceFile.upTo (f : SourceFile) (p : Position) : SourceFile :=
  { f with statements := f.statements.filter (·.span.stopPos ≤ p) }

namespace Statement.InOrder

variable {file : FileId} {lo : Edge} {ss : List Statement}

theorem placed (h : InOrder file lo ss) {s : Statement} (hs : s ∈ ss) :
    lo ≤ s.span.first ∧ s.Placed file s.span.first s.span.last := by
  induction ss generalizing lo with
  | nil => cases hs
  | cons r ss ih =>
      obtain ⟨hlo, hplaced, hrest⟩ := h
      rcases List.mem_cons.mp hs with rfl | hs
      · exact ⟨hlo, hplaced⟩
      · obtain ⟨hafter, hs⟩ := ih hrest hs
        exact ⟨Edge.le_trans hlo (Edge.le_trans (Edge.le_of_lt hplaced.lo_lt) hafter), hs⟩

/-- At a position inside none of them, statements fall apart into those before and those after. -/
theorem exists_split (h : InOrder file lo ss) {p : Position}
    (hp : ∀ s ∈ ss, s.span.stopPos ≤ p ∨ p ≤ s.span.startPos) :
    ∃ later, ss = ss.filter (·.span.stopPos ≤ p) ++ later ∧ ∀ s ∈ later, p ≤ s.span.startPos := by
  induction ss generalizing lo with
  | nil => exact ⟨[], rfl, by simp⟩
  | cons r ss ih =>
      obtain ⟨hlo, hplaced, hrest⟩ := h
      by_cases hr : r.span.stopPos ≤ p
      · obtain ⟨later, hsplit, hlater⟩ := ih hrest fun s hs => hp s (List.mem_cons_of_mem _ hs)
        refine ⟨later, ?_, hlater⟩
        rw [List.filter_cons_of_pos (by simpa using hr), List.cons_append, ← hsplit]
      · -- The first statement that ends later starts at or after the position, and so do all
        -- that follow it.
        have hstart : p ≤ r.span.startPos :=
          (hp r List.mem_cons_self).resolve_left hr
        have hall : ∀ s ∈ r :: ss, p ≤ s.span.startPos ∧ ¬ s.span.stopPos ≤ p := by
          intro s hs
          have hown : InOrder file r.span.first (r :: ss) := ⟨Edge.le_refl _, hplaced, hrest⟩
          obtain ⟨hafter, hs⟩ := hown.placed hs
          have hle := Position.le_trans hstart hafter.2
          exact ⟨hle, Position.lt_iff_not_le.mp (Position.lt_of_le_of_lt hle hs.lo_lt.2)⟩
        refine ⟨r :: ss, ?_, fun s hs => (hall s hs).1⟩
        have hnone : (r :: ss).filter (·.span.stopPos ≤ p) = [] :=
          List.filter_eq_nil_iff.mpr fun s hs => by simpa using (hall s hs).2
        rw [hnone, List.nil_append]

end Statement.InOrder

namespace Linkage

/-! ### The order of files -/

theorem rankIn?_front {front : List FileId} {file : FileId} (h : file ∈ front)
    (back : List FileId) :
    ∃ rank, rankIn? (front ++ back) file = some rank ∧ rank < front.length := by
  cases hr : front.findIdx? (· = file) with
  | none => exact absurd (List.findIdx?_eq_none_iff.mp hr file h) (by simp)
  | some rank =>
      obtain ⟨hlt, -⟩ := List.findIdx?_eq_some_iff_getElem.mp hr
      refine ⟨rank, ?_, hlt⟩
      rw [rankIn?, List.findIdx?_append, hr, Option.some_or]

theorem findIdx?_of_not_mem {front : List FileId} {file : FileId} (h : file ∉ front) :
    front.findIdx? (· = file) = none := by
  apply List.findIdx?_eq_none_iff.mpr
  intro other hm
  apply decide_eq_false
  rintro rfl
  exact h hm

theorem rankIn?_self {front back : List FileId} {file : FileId} (h : file ∉ front) :
    rankIn? (front ++ file :: back) file = some front.length := by
  rw [rankIn?, List.findIdx?_append, findIdx?_of_not_mem h, List.findIdx?_cons]
  simp

theorem lt_of_rankIn?_back {front back : List FileId} {file own : FileId} {rank : Nat}
    (hf : file ∉ front) (hne : own ≠ file)
    (h : rankIn? (front ++ own :: back) file = some rank) : front.length < rank := by
  rw [rankIn?, List.findIdx?_append, findIdx?_of_not_mem hf, Option.none_or,
    List.findIdx?_cons, if_neg (by simpa using hne)] at h
  obtain ⟨next, hnext, rfl⟩ := Option.map_eq_some_iff.mp h
  obtain ⟨place, -, rfl⟩ := Option.map_eq_some_iff.mp hnext
  omega

section Scope

variable {front back : List FileId} {c : Cursor}
  (hn : (front ++ c.file :: back).Nodup) {s : Span}
include hn

theorem inScope_front (hs : s.file ∈ front) :
    Devicetree.inScope (front ++ c.file :: back) c s = true := by
  have hown : c.file ∉ front := fun hm =>
    (List.nodup_append.mp hn).2.2 _ hm _ List.mem_cons_self rfl
  have hne : s.file ≠ c.file := fun he => hown (he ▸ hs)
  obtain ⟨rank, hrank, hlt⟩ := rankIn?_front hs (c.file :: back)
  simp only [Devicetree.inScope, if_neg hne, hrank, rankIn?_self hown, hlt, decide_true]

theorem inScope_back (hs : s.file ∈ back) :
    Devicetree.inScope (front ++ c.file :: back) c s = false := by
  obtain ⟨-, hback, hdisjoint⟩ := List.nodup_append.mp hn
  have hown : c.file ∉ front := fun hm => hdisjoint _ hm _ List.mem_cons_self rfl
  have hfront : s.file ∉ front := fun hm =>
    hdisjoint _ hm _ (List.mem_cons_of_mem _ hs) rfl
  have hne : c.file ≠ s.file := fun he => (List.nodup_cons.mp hback).1 (he ▸ hs)
  simp only [Devicetree.inScope, if_neg (Ne.symm hne), rankIn?_self hown]
  split
  · rename_i rank own hrank hself
    cases hself
    exact decide_eq_false (Nat.not_lt_of_gt (lt_of_rankIn?_back hfront hne hrank))
  · rfl

end Scope

/-! ### The two sides of a cursor -/

theorem inOrder_of_parsed {f : SourceFile} (hf : f.Parsed) :
    Statement.InOrder f.file Place.origin.edge f.statements := by
  obtain ⟨text, hread⟩ := hf
  rw [hread]
  exact SourceFile.inOrder_read f.file text

/-- The spans that a file's statements leave lie inside them. -/
theorem within_of_mem_actions {f : SourceFile} (hf : f.Parsed) {ss : List Statement}
    (hss : ss ⊆ f.statements) {a : Action} (ha : a ∈ ss.flatMap Statement.actions) {t : Span}
    (ht : t ∈ a.spans) : ∃ s ∈ ss, t.Within f.file s.span.first s.span.last := by
  obtain ⟨s, hs, ha⟩ := List.mem_flatMap.mp ha
  obtain ⟨-, hplaced⟩ := (inOrder_of_parsed hf).placed (hss hs)
  exact ⟨s, hs, hplaced.spans_within t (Statement.spans_of_mem_actions s a ha ht)⟩

theorem file_of_mem_actionsOf {files : List SourceFile} (hf : ∀ g ∈ files, g.Parsed) {a : Action}
    (ha : a ∈ actionsOf files) {t : Span} (ht : t ∈ a.spans) : t.file ∈ files.map (·.file) := by
  obtain ⟨g, hg, ha⟩ := List.mem_flatMap.mp ha
  obtain ⟨s, -, hwithin⟩ := within_of_mem_actions (hf g hg) (List.Subset.refl _) ha ht
  exact List.mem_map.mpr ⟨g, hg, hwithin.file_eq.symm⟩

section Gap

variable {before after : List SourceFile} {f : SourceFile} {p : Position}
  (hparsed : ∀ g ∈ before ++ f :: after, g.Parsed)
  (hnodup : ((before ++ f :: after).map (·.file)).Nodup)
include hparsed hnodup

theorem inScope_past {a : Action} (ha : a ∈ actionsOf (before ++ [f.upTo p])) {t : Span}
    (ht : t ∈ a.spans) :
    Devicetree.inScope ((before ++ f :: after).map (·.file)) ⟨f.file, p⟩ t = true := by
  rw [List.map_append, List.map_cons] at hnodup ⊢
  rw [actionsOf, List.flatMap_append] at ha
  rcases List.mem_append.mp ha with ha | ha
  · refine inScope_front (c := ⟨f.file, p⟩) hnodup ?_
    exact file_of_mem_actionsOf (fun g hg => hparsed g (List.mem_append_left _ hg)) ha ht
  · rw [List.flatMap_singleton] at ha
    obtain ⟨s, hs, hwithin⟩ := within_of_mem_actions
      (hparsed f (List.mem_append_right _ List.mem_cons_self)) List.filter_sublist.subset ha ht
    have hstop : s.span.stopPos ≤ p := by simpa using (List.mem_filter.mp hs).2
    rw [Devicetree.inScope, if_pos hwithin.file_eq]
    exact decide_eq_true (Position.le_trans hwithin.le_hi.2 hstop)

theorem not_inScope_later {later : List Statement} (hsub : later ⊆ f.statements)
    (hlater : ∀ s ∈ later, p ≤ s.span.startPos) {a : Action}
    (ha : a ∈ later.flatMap Statement.actions ++ actionsOf after) {t : Span} (ht : t ∈ a.spans) :
    Devicetree.inScope ((before ++ f :: after).map (·.file)) ⟨f.file, p⟩ t = false := by
  rw [List.map_append, List.map_cons] at hnodup ⊢
  rcases List.mem_append.mp ha with ha | ha
  · obtain ⟨s, hs, hwithin⟩ := within_of_mem_actions
      (hparsed f (List.mem_append_right _ List.mem_cons_self)) hsub ha ht
    have hstart : p < t.stopPos := Position.lt_of_le_of_lt (hlater s hs)
      (Position.lt_of_le_of_lt hwithin.lo_le.2 hwithin.first_lt.2)
    rw [Devicetree.inScope, if_pos hwithin.file_eq]
    exact decide_eq_false (Position.lt_iff_not_le.mp hstart)
  · refine inScope_back (c := ⟨f.file, p⟩) hnodup ?_
    exact file_of_mem_actionsOf
      (fun g hg => hparsed g (List.mem_append_right _ (List.mem_cons_of_mem _ hg))) ha ht

/-- Linking all files goes on from where linking up to the position stopped, with what is not
in scope there. -/
theorem recalls_upTo (hgap : ∀ s ∈ f.statements, s.span.stopPos ≤ p ∨ p ≤ s.span.startPos)
    (reportUnresolved : Bool) (generation : Nat) :
    (link (before ++ f :: after) reportUnresolved generation).Recalls
      (link (before ++ [f.upTo p]) reportUnresolved generation) ⟨f.file, p⟩ := by
  have hf : f.Parsed := hparsed f (List.mem_append_right _ List.mem_cons_self)
  obtain ⟨later, hsplit, hlater⟩ := (inOrder_of_parsed hf).exists_split hgap
  have hsub : later ⊆ f.statements := hsplit ▸ List.subset_append_right _ _
  have hactions : actionsOf (before ++ f :: after) = actionsOf (before ++ [f.upTo p]) ++
      (later.flatMap Statement.actions ++ actionsOf after) := by
    have hfile : f.actions = (f.upTo p).actions ++ later.flatMap Statement.actions := by
      rw [SourceFile.actions, SourceFile.actions, SourceFile.upTo, ← List.flatMap_append,
        ← hsplit]
    simp only [actionsOf, List.flatMap_append, List.flatMap_cons, List.flatMap_nil, hfile,
      List.append_nil, List.append_assoc]
  have htold : (outlineOf (before ++ [f.upTo p])).tree.Told
      (Devicetree.inScope ((before ++ f :: after).map (·.file)) ⟨f.file, p⟩) :=
    Outline.told_run fun a ha t ht => inScope_past hparsed hnodup ha ht
  have hgrown := Outline.grown_run (sound_outlineOf _) htold fun a ha t ht =>
    not_inScope_later hparsed hnodup hsub hlater ha ht
  have hrun : (outlineOf (before ++ [f.upTo p])).run
      (later.flatMap Statement.actions ++ actionsOf after) = outlineOf (before ++ f :: after) :=
    (Outline.run_append _ _ _).symm.trans (congrArg Outline.start.run hactions.symm)
  rw [hrun] at hgrown
  rw [← link_tree_bare _ reportUnresolved generation] at htold hgrown
  rw [← link_tree_bare _ reportUnresolved generation] at hgrown
  exact ⟨wellFormed_link _ _ _, wellFormed_link _ _ _, .of_bare htold, .of_bare hgrown⟩

end Gap

/-- Between two top-level statements, visibility tells what linking up to there would give. -/
theorem visible_iff_linked_before (before : List SourceFile) (f : SourceFile)
    (after : List SourceFile) (p : Position)
    (hparsed : ∀ g ∈ before ++ f :: after, g.Parsed)
    (hnodup : ((before ++ f :: after).map (·.file)).Nodup)
    (hgap : ∀ s ∈ f.statements, s.span.stopPos ≤ p ∨ p ≤ s.span.startPos)
    (reportUnresolved : Bool) (generation : Nat) :
    let now := link (before ++ f :: after) reportUnresolved generation
    let past := link (before ++ [f.upTo p]) reportUnresolved generation
    let c : Cursor := ⟨f.file, p⟩
    (∀ label id, (label, id) ∈ now.visibleLabels c ↔
      past.tree.isLive id = true ∧ (past.node id).hasLabel label = true) ∧
    (∀ id child, child ∈ now.visibleChildren c id ↔
      past.tree.isLive id = true ∧ child ∈ (past.node id).children) ∧
    ∀ id name, (now.visibleProperties c id).filter (·.name.value = name) =
      ((past.node id).property? name).toList.map (·.definition) := by
  intro now past c
  have hrecalls : now.Recalls past c :=
    recalls_upTo hparsed hnodup hgap reportUnresolved generation
  refine ⟨fun label id => ?_, fun id child => ?_, fun id name => ?_⟩
  · exact hrecalls.mem_visibleLabels
  · exact hrecalls.mem_visibleChildren
  · exact hrecalls.visibleProperties_filter name

/-- A node with a label and a property, read from `/{l:n{x;};};`. -/
def boardFile : SourceFile := .read ⟨0⟩ "/\x7bl:n\x7bx;\x7d;\x7d;".toList

/-- A child and then a delete of the node it is in, read from `&l{m{};};/delete-node/&l;`. -/
def overlayFile : SourceFile := .read ⟨1⟩ "&l\x7bm\x7b\x7d;\x7d;/delete-node/&l;".toList

/-- Before the delete at the end of the second file the node, its label, its new child and its
property are visible, though none is left in the end. -/
theorem visible_before_delete :
    let now := link [boardFile, overlayFile] true 0
    let c : Cursor := ⟨⟨1⟩, ⟨0, 9⟩⟩
    now.tree.liveNodes = [⟨0⟩] ∧ ("l", ⟨1⟩) ∈ now.visibleLabels c ∧
      ⟨2⟩ ∈ now.visibleChildren c ⟨1⟩ ∧
      ((now.visibleProperties c ⟨1⟩).filter (·.name.value = "x")).length = 1 := by
  have h := visible_iff_linked_before [boardFile] overlayFile [] ⟨0, 9⟩
    (fun g hg => by
      rcases List.mem_cons.mp hg with rfl | hg
      · exact ⟨_, rfl⟩
      · rw [List.mem_singleton.mp hg]
        exact ⟨_, rfl⟩)
    (by decide +kernel) (by decide +kernel) true 0
  refine ⟨by decide +kernel, (h.1 _ _).mpr ?_, (h.2.1 _ _).mpr ?_,
    (congrArg List.length (h.2.2 ⟨1⟩ "x")).trans ?_⟩
  · decide +kernel
  · decide +kernel
  · decide +kernel

end Linkage

end Devicetree
