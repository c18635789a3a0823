import Devicetree.Proofs.Overlay.Refinement
import Devicetree.Proofs.Overlay.Render
import Devicetree.Proofs.Source.ReadBack
import Devicetree.Workspace.Registry

/-!
# A dump is source for its tree

The tree of parsed files, rendered without a registry, is read without diagnostics as one root
block, and linking that file alone gives the same tree up to spans and numbers. All that a linked
node tells was read from some file, so the lines of the dump are read as the tokens they were
made of; and since no two children of a node share a name, nor two properties, the block builds
the tree anew in the same order.
-/

namespace Devicetree

namespace Linkage

variable {files : List SourceFile}

theorem lexical_statementsOf (hparsed : ∀ f ∈ files, f.Parsed) :
    ∀ s ∈ statementsOf files, s.form.Lexical := by
  intro s hs
  obtain ⟨f, hf, hs⟩ := List.mem_flatMap.mp hs
  exact (hparsed f hf).lexical s hs

/-- All that the tree of parsed files tells was read from a text. -/
theorem lexical_link (hparsed : ∀ f ∈ files, f.Parsed) (reportUnresolved : Bool)
    (generation : Nat) : (link files reportUnresolved generation).tree.Lexical where
  named := named_link hparsed reportUnresolved generation
  labels id := by
    have hlabels : ((link files reportUnresolved generation).tree.node id).tale.labels = _ :=
      congrArg Node.labels (tale_link files reportUnresolved generation id)
    rw [Node.labels_perform] at hlabels
    change ∀ name ∈ ((link files reportUnresolved generation).tree.node id).tale.labels.map _, _
    rw [hlabels]
    refine List.forall_mem_map.mpr fun label hlabel => ?_
    obtain ⟨s, hs, hmem⟩ := exists_statement Action.cargo_labels hlabel
    cases s with
    | block head body =>
        have hform := lexical_statementsOf hparsed _ hs
        exact hform.block.1 _ (List.mem_map_of_mem hmem)
    | _ => cases hmem
  properties id p hp := by
    have hkeeps := keeps_link files reportUnresolved generation id
    have hdefined : p.definition ∈
        ((link files reportUnresolved generation).tree.node id).histories.flatMap
          Property.chronicle :=
      List.mem_flatMap.mpr ⟨p, hp, Property.mem_chronicle.mpr p.definition_mem_definitions⟩
    obtain ⟨s, hs, hmem⟩ :=
      exists_statement Action.cargo_definitions (hkeeps.complete.mem_iff.mp hdefined)
    cases s with
    | property d =>
        obtain rfl := List.mem_singleton.mp hmem
        exact (lexical_statementsOf hparsed _ hs).property
    | _ => cases hmem

/-- In a linked tree no two children of a node share a name, and no two properties do. -/
theorem distinct_link (files : List SourceFile) (reportUnresolved : Bool) (generation : Nat)
    (id : NodeId) : ((link files reportUnresolved generation).tree.rose id).form.Distinct := by
  have ht := wellFormed_link files reportUnresolved generation
  induction id using ht.down_induction with
  | step id ih =>
      have hkeyed := (keeps_link files reportUnresolved generation id).keyed
      rw [ht.form_rose]
      refine .node ?_ ?_ (List.forall_mem_map.mpr ih)
      · rw [List.map_map, Table.values, List.map_map]
        refine (List.map_congr_left fun e he => ?_) ▸ hkeyed.nodup
        exact (hkeyed.named e he _ e.2.definition_mem_definitions).symm
      · rw [List.map_map]
        refine (ht.nodup_children id).map_on fun a ha b hb hname => ht.siblings ha hb ?_
        exact (ht.name_form a).symm.trans (hname.trans (ht.name_form b))

/-! ### Reading and linking a dump -/

theorem newline_not_mem_locate (span : Span) : '\n' ∉ (Registry.empty.locate span).toList := by
  have hlocate : Registry.empty.locate span = span.text := rfl
  rw [hlocate, Span.text, FileId.text, Position.text]
  simp [Tree.newline_not_mem_toDigits]

/-- A text that is read as the tokens of one statement makes up a file of that statement. -/
theorem read_of_lexes {text : Text} {us : List Token} (hlexes : Lexes text us) {s : StatementForm}
    (hs : s.Written us) (file : FileId) :
    (SourceFile.read file text).diagnostics = [] ∧
      (SourceFile.read file text).form = ⟨[s], []⟩ := by
  have hitems : ItemForm.AllWritten [.statement s] us := by
    rw [← List.append_nil us]
    exact .cons (.statement hs) .nil
  exact (SourceFile.read_clean_iff file text _).mpr ⟨us, hlexes, _, hitems, rfl⟩

/-- A file that says one tree as a root block is linked into that tree. -/
theorem form_link_of_source {dump : SourceFile} {f : RoseForm} (hf : f.Distinct)
    (hname : f.name = ⟨"/", none⟩) (hdump : dump.statements.map Statement.form = [f.source .root])
    (reportUnresolved : Bool) (generation : Nat) :
    ((link [dump] reportUnresolved generation).tree.rose Tree.root).form = f := by
  obtain ⟨s, hstatements, hs⟩ := List.map_eq_singleton_iff.mp hdump
  have hextends := f.isExtension_of_source hs
  have hgrows := hf.grows hs
  obtain ⟨⟨id, labels, target, span⟩, body, rfl, -, htarget, -⟩ :=
    Statement.exists_of_form_block (hs.trans (f.source_eq .root))
  cases target with
  | child name => cases htarget
  | reference ref => cases htarget
  | root slash =>
      have hlayered : (Statement.block ⟨id, labels, .root slash, span⟩ body).isLayered = true :=
        Statement.areLocal_of_areAdditive body hextends
      obtain ⟨hfollows, -⟩ := Outline.follows_statement Outline.follows_start rfl hlayered
      have hactions : actionsOf [dump] =
          (Statement.block ⟨id, labels, .root slash, span⟩ body).actions := by
        rw [actionsOf, List.flatMap_singleton, SourceFile.actions, hstatements,
          List.flatMap_singleton]
      have hrose : (link [dump] reportUnresolved generation).tree.rose Tree.root =
          (outlineOf [dump]).tree.rose Tree.root :=
        congrArg Overlay.tree (overlay_link [dump] reportUnresolved generation)
      rw [hrose, outlineOf, hactions, hfollows.tree, Overlay.apply,
        Overlay.tree_block _ hextends, ← hgrows, hname]
      rfl

/-- The tree of parsed files whose strings in force need no escapes, rendered without a registry,
is read without diagnostics as one root block, and linking it alone gives the same tree up to spans
and numbers. -/
theorem link_render (hparsed : ∀ f ∈ files, f.Parsed) (reportUnresolved : Bool) (generation : Nat)
    (hplain : (link files reportUnresolved generation).tree.IsPlain)
    (file : FileId) (reportAgain : Bool) (generationAgain : Nat) :
    let t := (link files reportUnresolved generation).tree
    let dump := SourceFile.read file (t.render Registry.empty.locate).toList
    dump.diagnostics = [] ∧
      dump.form = ⟨[(t.rose Tree.root).form.source .root], []⟩ ∧
      ((link [dump] reportAgain generationAgain).tree.rose Tree.root).form =
        (t.rose Tree.root).form := by
  intro t dump
  have ht : t.WellFormed := wellFormed_link files reportUnresolved generation
  have hlex : t.Lexical := lexical_link hparsed reportUnresolved generation
  have htarget : (t.node Tree.root).target = .root := by
    rw [Node.target, ht.root_parent]
    rfl
  obtain ⟨us, hus, hprints⟩ :=
    ht.prints_lines hlex newline_not_mem_locate hplain Tree.root ht.isLive_root 0
  rw [htarget] at hus
  have hlexes : Lexes (t.render Registry.empty.locate).toList us := by
    rw [t.toList_render]
    simpa using hprints.lexes .nil
  obtain ⟨hclean, hform⟩ := read_of_lexes hlexes hus file
  refine ⟨hclean, hform, form_link_of_source (distinct_link files _ _ _) ?_ ?_ _ _⟩
  · exact (ht.name_form Tree.root).trans hlex.named.root
  · rw [← Statement.forms_eq_map]
    exact congrArg FileForm.statements hform

/-- Values of every kind, a property defined twice, and two deletes, read from
`/{a:b@01{x;x=<31 u #include &a>,"s",[0Aff],&{b@1};y;/delete-property/y;};c{};};` and
`/delete-node/&{/c};`. Of the cells one looks like a suffix without its number, and one like an
include without its argument. -/
def cellsFile : SourceFile :=
  .read ⟨0⟩ ("/\x7ba:b@01\x7bx;x=<31 u #include &a>,\"s\",[0Aff],&\x7bb@1\x7d;y;" ++
    "/delete-property/y;\x7d;c\x7b\x7d;\x7d;/delete-node/&\x7b/c\x7d;").toList

/-- Its dump, with one line for each delete. -/
def cellsDump : String :=
  "/ \x7b\n    a: b@1 \x7b\n        x = <0x1f u #include &a>, \"s\", [0a ff], &\x7b/b@1\x7d;" ++
    " // replaces 1 definition\n        // deleted property y at file#0:1:53\n    \x7d;\n" ++
    "    // deleted node c at file#0:1:80\n\x7d;\n"

theorem cellsFile_link_render :
    (∀ f ∈ [cellsFile], f.Parsed) ∧ (link [cellsFile] true 0).tree.IsPlain ∧
    (link [cellsFile] true 0).tree.render Registry.empty.locate = cellsDump ∧
    (SourceFile.read ⟨7⟩ cellsDump.toList).diagnostics = [] ∧
    ((link [.read ⟨7⟩ cellsDump.toList] true 1).tree.rose Tree.root).form =
      ((link [cellsFile] true 0).tree.rose Tree.root).form := by
  have hparsed : ∀ f ∈ [cellsFile], f.Parsed := by
    intro f hf
    rw [List.mem_singleton.mp hf]
    exact ⟨_, rfl⟩
  have hplain : (link [cellsFile] true 0).tree.IsPlain := by
    decide +kernel
  have hdump : (link [cellsFile] true 0).tree.render Registry.empty.locate = cellsDump := by
    decide +kernel
  obtain ⟨hclean, -, hform⟩ := link_render hparsed true 0 hplain ⟨7⟩ true 1
  rw [hdump] at hclean hform
  exact ⟨hparsed, hplain, hdump, hclean, hform⟩

end Linkage

end Devicetree
