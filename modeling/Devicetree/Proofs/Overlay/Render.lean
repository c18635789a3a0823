import Devicetree.Proofs.Linkage.Paths
import Devicetree.Proofs.Linkage.Provenance
import Devicetree.Proofs.Overlay.Source
import Devicetree.Proofs.Source.Display
import Devicetree.Tree.Render

/-!
# A rendered tree read back

Every line of a rendered tree is read as tokens, whatever lines come after it, and the lines of a
node are together read as the block that says the tree at that node. What is told in comments is
read as nothing.
-/

namespace Devicetree

/-- What the first line of a node says that it is about. -/
def Node.target (n : Node) : TargetForm :=
  if n.parent.isNone then .root else .child n.name

namespace Tree

def linesText (ls : List String) : Text :=
  ls.flatMap fun l => l.toList ++ ['\n']

theorem toList_render (t : Tree) (locate : Span → String) :
    (t.render locate).toList = linesText (t.lines locate 0 root) := by
  rw [render, String.toList_join, List.flatMap_map, linesText]
  simp

/-- Lines that are read as some tokens, whatever comes after them. -/
structure Prints (ls : List String) (us : List Token) : Prop where
  lexes : ∀ {rest ts}, Lexes rest ts → Lexes (linesText ls ++ rest) (us ++ ts)

theorem Prints.nil : Prints [] [] := ⟨fun h => h⟩

theorem Prints.append {ls ls' : List String} {us us' : List Token} (h : Prints ls us)
    (h' : Prints ls' us') : Prints (ls ++ ls') (us ++ us') := by
  refine ⟨fun hrest => ?_⟩
  rw [linesText, List.flatMap_append, List.append_assoc, List.append_assoc]
  exact h.lexes (h'.lexes hrest)

/-- A line alone, after its indent. -/
theorem prints_line {line : String} {us : List Token} (depth : Nat)
    (h : ∀ {rest ts}, Lexes rest ts → Lexes (line.toList ++ '\n' :: rest) (us ++ ts)) :
    Prints [indent depth ++ line] us := by
  refine ⟨fun hrest => ?_⟩
  have hline := (h hrest).blanks (4 * depth)
  simpa [linesText, indent] using hline

/-! ### Comments -/

theorem prints_comment {content : String} (h : '\n' ∉ content.toList) (depth : Nat) :
    Prints [indent depth ++ ("//" ++ content)] [] := by
  refine prints_line depth fun hrest => ?_
  rw [String.toList_append, List.append_assoc]
  exact hrest.comment h

theorem newline_not_mem_word {text : String} (h : (Token.word text).Spelled) :
    '\n' ∉ text.toList := fun hmem => absurd (h.all _ hmem) (by decide)

theorem newline_not_mem_toDigits (n : Nat) : '\n' ∉ Nat.toDigits 10 n := fun h =>
  absurd (Nat.isDigit_of_mem_toDigits (by decide) (by decide) h) (by decide)

theorem lexes_replacedText (n : Nat) {rest : Text} {ts : List Token} (h : Lexes rest ts) :
    Lexes ((replacedText n).toList ++ '\n' :: rest) ts := by
  have hcomment : ∀ {content : Text}, '\n' ∉ content →
      Lexes (' ' :: '/' :: '/' :: (content ++ '\n' :: rest)) ts :=
    fun hcontent => (h.comment hcontent).blank
  unfold replacedText
  split
  · exact h.newline
  · exact hcomment (by decide : '\n' ∉ " replaces 1 definition".toList)
  · have hline : '\n' ∉ " replaces ".toList ++ Nat.toDigits 10 n ++ " definitions".toList := by
      simp [newline_not_mem_toDigits]
    simpa using hcomment hline

/-! ### Labels and values -/

theorem lexes_labelsText {labels : List Label}
    (hlabels : ∀ name ∈ labels.map (·.value), (Token.label name).Spelled) {rest : Text}
    {ts : List Token} (h : Lexes rest ts) :
    Lexes ((labelsText labels).toList ++ rest)
      ((labels.map (·.value)).map Token.label ++ ts) := by
  induction labels with
  | nil => exact h
  | cons label labels ih =>
      obtain ⟨hlabel, hlabels⟩ := List.forall_mem_cons.mp hlabels
      have hlexes := (ih hlabels).blank.label hlabel
      simpa [labelsText, String.toList_join] using hlexes

/-- Values with commas between them, up to the semicolon. -/
theorem lexes_separated {v : Value} {vs : List Value} (hv : v.form.Lexical ∧ v.IsPlain)
    (hvs : ∀ w ∈ vs, w.form.Lexical ∧ w.IsPlain) :
    ∃ us ws, v.form.Written us ∧ ValueForm.MoreWritten (vs.map Value.form) ws ∧
      ∀ {rest ts}, Lexes rest ts →
        Lexes ([',', ' '].intercalate ((v :: vs).map (·.text.toList)) ++ ';' :: rest)
          (us ++ (ws ++ .semicolon :: ts)) := by
  obtain ⟨us, hus, hlexes⟩ := v.lexes_text hv.1 hv.2
  induction vs generalizing v us with
  | nil =>
      refine ⟨us, [], hus, .nil, fun {rest ts} hrest => ?_⟩
      have hend : Scan.EndsLabel (';' :: rest) := by
        rintro _ ⟨⟩
        decide
      have hmark : Lexes (';' :: rest) (.semicolon :: ts) := hrest.mark (by decide)
      simpa using hlexes hend hmark
  | cons w vs ih =>
      obtain ⟨hw, hvs⟩ := List.forall_mem_cons.mp hvs
      obtain ⟨us', hus', hlexes'⟩ := w.lexes_text hw.1 hw.2
      obtain ⟨xs, ws, hxs, hws, hmore⟩ := ih hw hvs us' hus' hlexes'
      refine ⟨us, .comma :: (xs ++ ws), hus, .cons hxs hws, fun {rest ts} hrest => ?_⟩
      have hcomma := (hmore hrest).blank.mark (by decide : (',', .comma) ∈ Scan.marks)
      have hall := hlexes (by rintro _ ⟨⟩; decide) hcomma
      simpa [List.intercalate_cons_cons] using hall

theorem lexes_valuesText {values : List Value}
    (hvalues : ∀ v ∈ values, v.form.Lexical ∧ v.IsPlain) :
    ∃ us, ValueForm.Assigned (values.map Value.form) us ∧ ∀ {rest ts}, Lexes rest ts →
      Scan.EndsWord ((valuesText values).toList ++ ';' :: rest) ∧
        Lexes ((valuesText values).toList ++ ';' :: rest) (us ++ .semicolon :: ts) := by
  cases values with
  | nil =>
      refine ⟨[], .nothing, fun {rest ts} hrest => ⟨.mark (by decide) (by decide) rest, ?_⟩⟩
      exact hrest.mark (by decide)
  | cons v vs =>
      obtain ⟨hv, hvs⟩ := List.forall_mem_cons.mp hvalues
      obtain ⟨us, ws, hus, hws, hlexes⟩ := lexes_separated hv hvs
      refine ⟨.equals :: (us ++ ws), .values hus hws, fun {rest ts} hrest => ?_⟩
      have hequals := (hlexes hrest).blank.mark (by decide : ('=', .equals) ∈ Scan.marks)
      have htext : (valuesText (v :: vs)).toList ++ ';' :: rest = ' ' :: '=' :: ' ' ::
          ([',', ' '].intercalate ((v :: vs).map (·.text.toList)) ++ ';' :: rest) := by
        simp [valuesText, String.toList_intercalate, Function.comp_def]
      rw [htext]
      exact ⟨.blank (by decide) _, by simpa using hequals.blank⟩

/-! ### Lines -/

theorem prints_propertyLine {p : Property} (hp : p.definition.form.Lexical)
    (hplain : ∀ v ∈ p.definition.values, v.IsPlain) (depth : Nat) :
    ∃ us, (StatementForm.leaf (.property p.definition.form)).Written us ∧
      Prints [propertyLine depth p] us := by
  have hvalues : ∀ v ∈ p.definition.values, v.form.Lexical ∧ v.IsPlain := fun v hv =>
    ⟨hp.values _ (List.mem_map_of_mem hv), hplain v hv⟩
  obtain ⟨us, hus, hlexes⟩ := lexes_valuesText hvalues
  refine ⟨_, .leaf (.property _ p.name hus), ?_⟩
  have hline : propertyLine depth p = indent depth ++ (labelsText p.definition.labels ++ (p.name ++
      (valuesText p.definition.values ++ (";" ++ replacedText p.replaced.length)))) := by
    simp only [propertyLine, String.append_assoc]
  rw [hline]
  refine prints_line depth fun {rest ts} hrest => ?_
  obtain ⟨hend, hassigned⟩ := hlexes (lexes_replacedText p.replaced.length hrest)
  have hword : Lexes (p.name.toList ++ _) (.word p.name :: _) := hassigned.word hp.name hend
  simpa using lexes_labelsText hp.labels hword

theorem prints_openLine {n : Node}
    (hlabels : ∀ name ∈ n.labels.map (·.value), (Token.label name).Spelled)
    (hname : ∀ parent, n.parent = some parent → n.name.Proper) (depth : Nat) :
    ∃ t, n.target.Written t ∧
      Prints [openLine depth n] ((n.labels.map (·.value)).map Token.label ++ [t, .leftBrace]) := by
  have hline : openLine depth n = indent depth ++ (labelsText n.labels ++
      ((if n.parent.isNone then "/" else n.name.text) ++ " \x7b")) := by
    simp only [openLine, String.append_assoc]
  rw [hline, Node.target]
  cases hparent : n.parent with
  | none =>
      refine ⟨.slash, .root, prints_line depth fun hrest => ?_⟩
      have hbrace := hrest.newline.mark (by decide : ('\x7b', .leftBrace) ∈ Scan.marks)
      have hslash := hbrace.blank.slash
      simpa using lexes_labelsText hlabels hslash
  | some parent =>
      have hproper := hname parent hparent
      have htarget := TargetForm.Written.child n.name.text
      rw [hproper.read_text] at htarget
      refine ⟨_, htarget, prints_line depth fun hrest => ?_⟩
      have hbrace := (hrest.newline.mark (by decide : ('\x7b', .leftBrace) ∈ Scan.marks)).blank
      have hword := hbrace.word hproper.spelled_text (.blank (by decide) _)
      simpa using lexes_labelsText hlabels hword

theorem prints_closeLine (depth : Nat) :
    Prints [indent depth ++ "\x7d;"] [.rightBrace, .semicolon] := by
  refine prints_line depth fun hrest => ?_
  exact (hrest.newline.mark (by decide)).mark (by decide)

theorem prints_deletionLine {kind name place : String} (hkind : '\n' ∉ kind.toList)
    (hname : '\n' ∉ name.toList) (hplace : '\n' ∉ place.toList) (depth : Nat) :
    Prints [deletionLine depth kind name place] [] := by
  have hline : deletionLine depth kind name place =
      indent depth ++ ("//" ++ (" deleted " ++ kind ++ " " ++ name ++ " at " ++ place)) := by
    apply String.toList_inj.mp
    simp [deletionLine]
  rw [hline]
  apply prints_comment
  simp [hkind, hname, hplace]

/-! ### Nodes -/

/-- Statements one after another, each with lines of its own. -/
theorem prints_statements {α : Type} {as : List α} {form : α → StatementForm}
    {lines : α → List String} (h : ∀ a ∈ as, ∃ us, (form a).Written us ∧ Prints (lines a) us) :
    ∃ us, StatementForm.AllWritten (as.map form) us ∧ Prints (as.flatMap lines) us := by
  induction as with
  | nil => exact ⟨[], .nil, .nil⟩
  | cons a as ih =>
      obtain ⟨⟨us, hus, hprints⟩, has⟩ := List.forall_mem_cons.mp h
      obtain ⟨ws, hws, hmore⟩ := ih has
      exact ⟨us ++ ws, .cons hus hws, hprints.append hmore⟩

theorem prints_properties (ps : List Property)
    (h : ∀ p ∈ ps, p.definition.form.Lexical ∧ ∀ v ∈ p.definition.values, v.IsPlain) (depth : Nat) :
    ∃ us, StatementForm.AllWritten (ps.map fun p => .leaf (.property p.definition.form)) us ∧
      Prints (ps.map (propertyLine depth)) us := by
  rw [List.map_eq_flatMap (f := propertyLine depth)]
  exact prints_statements fun p hp => prints_propertyLine (h p hp).1 (h p hp).2 depth

/-- Deletions are told in comments. -/
theorem prints_deletions {α : Type} {kind : String} (hkind : '\n' ∉ kind.toList)
    (stones : List (Tombstone α)) (name : α → String)
    (hname : ∀ s ∈ stones, '\n' ∉ (name s.target).toList) {locate : Span → String}
    (hlocate : ∀ span, '\n' ∉ (locate span).toList) (depth : Nat) :
    Prints (stones.map fun s => deletionLine depth kind (name s.target) (locate s.deletedBy.span))
      [] := by
  induction stones with
  | nil => exact .nil
  | cons s stones ih =>
      obtain ⟨hs, hstones⟩ := List.forall_mem_cons.mp hname
      exact (prints_deletionLine hkind hs (hlocate _) depth).append (ih hstones)

/-- All that is told of the nodes of a tree was read from a text. -/
structure Lexical (t : Tree) : Prop where
  named : t.Named UnitName.Proper
  labels : ∀ id, ∀ name ∈ (t.node id).labels.map (·.value), (Token.label name).Spelled
  properties : ∀ id, ∀ p ∈ (t.node id).histories, p.definition.form.Lexical

/-- The values in force on live nodes are written as they are read. -/
def IsPlain (t : Tree) : Prop :=
  ∀ id ∈ t.liveNodes, ∀ p ∈ (t.node id).properties.values, ∀ v ∈ p.definition.values, v.IsPlain

instance (t : Tree) : Decidable t.IsPlain :=
  inferInstanceAs (Decidable (∀ id ∈ t.liveNodes, ∀ p ∈ (t.node id).properties.values,
    ∀ v ∈ p.definition.values, v.IsPlain))

namespace WellFormed

variable {t : Tree} (ht : t.WellFormed)
include ht

theorem lines_eq (locate : Span → String) (depth : Nat) (id : NodeId) :
    t.lines locate depth id = [openLine depth (t.node id)] ++
      (t.node id).properties.values.map (propertyLine (depth + 1)) ++
      (t.node id).children.flatMap (t.lines locate (depth + 1)) ++
      (t.node id).deletedProperties.map (fun s =>
        deletionLine (depth + 1) "property" s.target.name (locate s.deletedBy.span)) ++
      (t.node id).deletedNodes.map (fun s =>
        deletionLine (depth + 1) "node" (t.node s.target).name.text (locate s.deletedBy.span)) ++
      [indent depth ++ "\x7d;"] := by
  have hchildren : ((t.node id).children.flatMap fun child =>
      if id.index < child.index ∧ child.index < t.size then t.lines locate (depth + 1) child
        else []) = (t.node id).children.flatMap (t.lines locate (depth + 1)) := by
    apply List.flatMap_congr
    intro child hc
    exact if_pos ⟨ht.lt_of_mem_children hc, ht.lt_size_of_mem_children hc⟩
  rw [lines, hchildren]

theorem form_rose (id : NodeId) :
    (t.rose id).form = ⟨(t.node id).name, (t.node id).labels.map (·.value),
      (t.node id).properties.values.map (·.definition.form),
      (t.node id).children.map fun child => (t.rose child).form⟩ := by
  rw [ht.rose_eq, Rose.form_eq]
  simp [Node.rose, Table.values, Table.mapValues, Function.comp_def]

theorem name_form (id : NodeId) : (t.rose id).form.name = (t.node id).name := by
  rw [ht.form_rose]

theorem target_child {id child : NodeId} (hc : child ∈ (t.node id).children) :
    (t.node child).target = .child (t.rose child).form.name := by
  rw [Node.target, (ht.mem_children.mp hc).1, ht.name_form]
  rfl

/-- The lines of a live node are read as the block that says the tree there. -/
theorem prints_lines (hlex : t.Lexical) {locate : Span → String}
    (hlocate : ∀ span, '\n' ∉ (locate span).toList) (hplain : t.IsPlain) (id : NodeId) :
    t.isLive id = true → ∀ depth, ∃ us,
      ((t.rose id).form.source (t.node id).target).Written us ∧
        Prints (t.lines locate depth id) us := by
  induction id using ht.down_induction with
  | step id ih =>
      intro hlive depth
      have hvalues := hplain id (ht.mem_liveNodes.mpr hlive)
      obtain ⟨token, htoken, hopen⟩ := prints_openLine (hlex.labels id)
        (fun parent hp => hlex.named.child hp) depth
      obtain ⟨us, hus, hproperties⟩ := prints_properties (t.node id).properties.values
        (fun p hp => ⟨hlex.properties id p (List.mem_append_right _ hp), hvalues p hp⟩)
        (depth + 1)
      have hchildren : ∃ ws, StatementForm.AllWritten (RoseForm.sources
          ((t.node id).children.map fun child => (t.rose child).form)) ws ∧
          Prints ((t.node id).children.flatMap (t.lines locate (depth + 1))) ws := by
        rw [RoseForm.sources_eq_map, List.map_map]
        refine prints_statements fun child hc => ?_
        rw [Function.comp_apply, ← ht.target_child hc]
        exact ih child hc ((ht.isLive_child hc).trans hlive) (depth + 1)
      obtain ⟨ws, hws, hchildren⟩ := hchildren
      have hbodiless := prints_deletions (by decide : '\n' ∉ "property".toList)
        (t.node id).deletedProperties Property.name (fun s hs => newline_not_mem_word
          (hlex.properties id _ (List.mem_append_left _ (List.mem_map_of_mem hs))).name)
        hlocate (depth + 1)
      have hburied := prints_deletions (by decide : '\n' ∉ "node".toList)
        (t.node id).deletedNodes (fun target => (t.node target).name.text)
        (fun s hs => newline_not_mem_word
          (hlex.named.child (ht.mem_tombstones.mp ⟨s, hs, rfl⟩).1).spelled_text)
        hlocate (depth + 1)
      have hlines := ((((hopen.append hproperties).append hchildren).append hbodiless).append
        hburied).append (prints_closeLine depth)
      rw [ht.lines_eq, ht.form_rose, RoseForm.source, List.map_map]
      refine ⟨_, .block _ htoken (hus.append hws), ?_⟩
      simpa using hlines

end WellFormed

end Tree

end Devicetree
