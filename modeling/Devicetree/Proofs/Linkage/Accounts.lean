import Mathlib.Data.List.Pairwise
import Devicetree.Proofs.Linkage.Reports
import Devicetree.Proofs.Linkage.Tally

/-!
# Every unresolved reference is reported once

In files as read, numbers and spans tell references apart. So the tally at the end of a pass says
of each reference whether it is linked, where its statement is listed, and whether there is an
issue at its place. The main result puts this together and says what changes when the references
of values are not reported.
-/

namespace Devicetree

/-- Where keys are distinct, a key picks out its own element. -/
theorem filter_key_eq {α κ : Type} [DecidableEq κ] (f : α → κ) {xs : List α}
    (hn : (xs.map f).Nodup) {x : α} (hx : x ∈ xs) : xs.filter (fun y => f y = f x) = [x] := by
  obtain ⟨front, back, rfl⟩ := List.append_of_mem hx
  have hother : ∀ y, y ∈ front ∨ y ∈ back → f y ≠ f x := by
    have hpair := List.pairwise_map.mp hn
    intro y hy
    rcases hy with hy | hy
    · exact List.pairwise_append.mp hpair |>.2.2 y hy x List.mem_cons_self
    · exact ((List.pairwise_cons.mp (List.pairwise_append.mp hpair).2.1).1 y hy).symm
  have hfront : front.filter (fun y => f y = f x) = [] :=
    List.filter_eq_nil_iff.mpr fun y hy => by simpa using hother y (.inl hy)
  have hback : back.filter (fun y => f y = f x) = [] :=
    List.filter_eq_nil_iff.mpr fun y hy => by simpa using hother y (.inr hy)
  rw [List.filter_append, hfront, List.filter_cons_of_pos (by simp), hback]
  rfl

/-- What occurs once in all belongs to one element. -/
theorem eq_of_nodup_flatMap {α β : Type} {xs : List α} {f : α → List β}
    (h : (xs.flatMap f).Nodup) {x y : α} (hx : x ∈ xs) (hy : y ∈ xs) {b : β} (hbx : b ∈ f x)
    (hby : b ∈ f y) : x = y := by
  by_contra hne
  have : Std.Symm (Function.onFun List.Disjoint f) := ⟨fun _ _ hapart _ hx hy => hapart hy hx⟩
  exact (List.nodup_flatMap.mp h).2.forall hx hy hne hbx hby

theorem Mention.failsIn_iff {links : Table AstId NodeId} {m : Mention} :
    m.failsIn links = true ↔ links.get? m.ref.id = none ∨
      m.role = .delete ∧ links.get? m.ref.id = some Tree.root := by
  cases hl : links.get? m.ref.id <;> simp [failsIn, hl]

namespace Linkage

variable {files : List SourceFile}

/-! ### Numbers and spans tell references apart -/

/-- What files have of their own differs from file to file. -/
theorem nodup_flatMap_files {β : Type} (owner : β → FileId) (g : SourceFile → List β)
    (hnodup : (files.map (·.file)).Nodup) (hg : ∀ f ∈ files, (g f).Nodup)
    (howner : ∀ f ∈ files, ∀ x ∈ g f, owner x = f.file) : (files.flatMap g).Nodup := by
  refine List.nodup_flatMap.mpr ⟨hg, ?_⟩
  refine (List.pairwise_map.mp hnodup).imp_of_mem ?_
  intro f f' hf hf' hne x hx hx'
  exact hne ((howner f hf x hx).symm.trans (howner f' hf' x hx'))

theorem refs_opening (s : Statement) : s.opening.mentions.map (·.ref) = s.references := by
  cases s with
  | block head body =>
      obtain ⟨id, labels, target, span⟩ := head
      cases target <;> rfl
  | property definition => exact (List.map_map ..).trans (List.map_id _)
  | deleteNode delete =>
      obtain ⟨id, keyword, target, span⟩ := delete
      cases target <;> rfl
  | deleteProperty delete => rfl

theorem statement_of_mem_opening {s : Statement} {m : Mention} (h : m ∈ s.opening.mentions) :
    m.statement.id = s.id ∧ (m.role ≠ .value → s.opening.mentions = [m]) := by
  cases s with
  | block head body =>
      obtain ⟨id, labels, target, span⟩ := head
      cases target with
      | reference ref =>
          obtain rfl := List.mem_singleton.mp h
          exact ⟨rfl, fun _ => rfl⟩
      | _ => cases h
  | property definition =>
      obtain ⟨ref, -, rfl⟩ := List.mem_map.mp h
      exact ⟨rfl, fun hv => absurd rfl hv⟩
  | deleteNode delete =>
      obtain ⟨id, keyword, target, span⟩ := delete
      cases target with
      | reference ref =>
          obtain rfl := List.mem_singleton.mp h
          exact ⟨rfl, fun _ => rfl⟩
      | _ => cases h
  | deleteProperty delete => cases h

theorem refs_mentionsOf (files : List SourceFile) :
    (mentionsOf files).map (·.ref) = (statementsOf files).flatMap Statement.references := by
  rw [mentionsOf, List.map_flatMap]
  exact List.flatMap_congr fun s _ => refs_opening s

theorem file_eq_of_own {f : SourceFile} (hparsed : f.Parsed) {own : Statement → List Span}
    (h : Statement.Successive own) {s : Statement} (hs : s ∈ Statement.allIn f.statements)
    {span : Span} (hspan : span ∈ own s) : span.file = f.file := by
  obtain ⟨text, hread⟩ := hparsed
  obtain ⟨hi, hrow⟩ := h.row_read f.file text
  rw [← hread] at hrow
  exact (hrow.within span (List.mem_flatMap.mpr ⟨s, hs, hspan⟩)).file_eq

section Parsed

variable (hparsed : ∀ f ∈ files, f.Parsed) (hnodup : (files.map (·.file)).Nodup)
include hparsed hnodup

theorem nodup_ids : ((statementsOf files).flatMap Statement.ids).Nodup := by
  rw [statementsOf, List.flatMap_assoc]
  apply nodup_flatMap_files (·.file) _ hnodup
  · intro f hf
    obtain ⟨text, hread⟩ := hparsed f hf
    rw [hread]
    obtain ⟨count, hids⟩ := SourceFile.ids_read f.file text
    exact hids.nodup
  · intro f hf id hid
    obtain ⟨text, hread⟩ := hparsed f hf
    obtain ⟨count, hids⟩ := SourceFile.ids_read f.file text
    rw [hread] at hid
    exact hids.file_eq hid

/-- Of spans that follow one another in each file, no two begin at one place. -/
theorem nodup_sites {own : Statement → List Span} (h : Statement.Successive own) :
    (((statementsOf files).flatMap own).map Span.site).Nodup := by
  rw [statementsOf, List.flatMap_assoc, List.map_flatMap]
  apply nodup_flatMap_files Prod.fst _ hnodup
  · intro f hf
    obtain ⟨text, hread⟩ := hparsed f hf
    obtain ⟨hi, hrow⟩ := h.row_read f.file text
    rw [hread]
    exact hrow.nodup_sites
  · intro f hf site hsite
    obtain ⟨span, hspan, rfl⟩ := List.mem_map.mp hsite
    obtain ⟨s, hs, hspan⟩ := List.mem_flatMap.mp hspan
    exact file_eq_of_own (hparsed f hf) h hs hspan

theorem nodup_mention_spans : ((mentionsOf files).map (·.ref.span)).Nodup := by
  have hspans : (mentionsOf files).map (·.ref.span) =
      (statementsOf files).flatMap fun s => s.references.map (·.span) := by
    rw [← List.map_flatMap, ← refs_mentionsOf, List.map_map]
    rfl
  rw [hspans]
  exact (nodup_sites hparsed hnodup Statement.successive_references).of_map _

theorem nodup_mention_ids : ((mentionsOf files).map (·.ref.id)).Nodup := by
  have hids : (mentionsOf files).map (·.ref.id) =
      (statementsOf files).flatMap fun s => s.references.map (·.id) := by
    rw [← List.map_flatMap, ← refs_mentionsOf, List.map_map]
    rfl
  obtain ⟨hnodup, hdisjoint⟩ := List.nodup_flatMap.mp (nodup_ids hparsed hnodup)
  rw [hids]
  refine List.nodup_flatMap.mpr ⟨fun s hs => (hnodup s hs).of_cons, hdisjoint.imp ?_⟩
  intro s s' h id hid hid'
  exact h (List.mem_cons_of_mem _ hid) (List.mem_cons_of_mem _ hid')

theorem nodup_statement_ids : ((statementsOf files).map Statement.id).Nodup := by
  obtain ⟨-, hdisjoint⟩ := List.nodup_flatMap.mp (nodup_ids hparsed hnodup)
  refine List.pairwise_map.mpr (hdisjoint.imp ?_)
  intro s s' h heq
  exact h List.mem_cons_self (heq ▸ List.mem_cons_self)

theorem statement_eq_of_id {s s' : Statement} (hs : s ∈ statementsOf files)
    (hs' : s' ∈ statementsOf files) (h : s.id = s'.id) : s = s' :=
  List.inj_on_of_nodup_map (nodup_statement_ids hparsed hnodup) hs hs' h

/-- A block or a delete has its statement to itself. -/
theorem mention_eq_of_statement {m m' : Mention} (hm : m ∈ mentionsOf files)
    (hm' : m' ∈ mentionsOf files) (hv : m.role ≠ .value) (h : m.statement = m'.statement) :
    m = m' := by
  obtain ⟨s, hs, hm⟩ := List.mem_flatMap.mp hm
  obtain ⟨s', hs', hm'⟩ := List.mem_flatMap.mp hm'
  obtain rfl : s = s' := by
    apply statement_eq_of_id hparsed hnodup hs hs'
    rw [← (statement_of_mem_opening hm).1, ← (statement_of_mem_opening hm').1, h]
  rw [(statement_of_mem_opening hm).2 hv] at hm'
  exact (List.mem_singleton.mp hm').symm

/-- The lists of a linkage tell which blocks and deletes by reference fail. -/
theorem lists_link (generation : Nat) :
    let l := link files true generation
    let listed := fun role fails =>
      Mention.statements l.links role fails ((actionsOf files).flatMap Action.mentions)
    l.referenceBlocks = listed .block false ∧ l.unlinkedReferenceBlocks = listed .block true ∧
      l.globalDeletes = listed .delete false ∧ l.unlinkedDeletes = listed .delete true := by
  have hclose := closingOf_eq_settled (nodup_mention_ids hparsed hnodup)
  rw [← link_links files true generation] at hclose
  refine ⟨?_, ?_, ?_, ?_⟩
  · exact (link_referenceBlocks files true generation).trans
      (congrArg Ledger.referenceBlocks hclose)
  · exact (link_unlinkedReferenceBlocks files true generation).trans
      (congrArg Ledger.unlinkedReferenceBlocks hclose)
  · exact (link_globalDeletes files true generation).trans (congrArg Ledger.globalDeletes hclose)
  · exact (link_unlinkedDeletes files true generation).trans
      (congrArg Ledger.unlinkedDeletes hclose)

theorem mem_statements (links : Table AstId NodeId) (fails : Bool) {m : Mention} {role : Role}
    (hm : m ∈ mentionsOf files) (hr : m.role = role) (hv : role ≠ .value) :
    m.statement ∈ Mention.statements links role fails
        ((actionsOf files).flatMap Action.mentions) ↔ m.failsIn links = fails := by
  have hall : ∀ {m}, m ∈ (actionsOf files).flatMap Action.mentions ↔ m ∈ mentionsOf files :=
    (mentionsOf_perm files).mem_iff
  simp only [Mention.statements, List.mem_map, List.mem_filter, Bool.and_eq_true,
    decide_eq_true_eq, beq_iff_eq]
  constructor
  · rintro ⟨m', ⟨hm', -, hf⟩, hs⟩
    obtain rfl := mention_eq_of_statement hparsed hnodup hm (hall.mp hm') (hr ▸ hv) hs.symm
    exact hf
  · intro hf
    exact ⟨m, ⟨hall.mpr hm, hr, hf⟩, rfl⟩

/-- The statements of one role, used or not, are listed once. -/
theorem nodup_statements (links : Table AstId NodeId) {role : Role} (hv : role ≠ .value) :
    (Mention.statements links role false ((actionsOf files).flatMap Action.mentions) ++
      Mention.statements links role true ((actionsOf files).flatMap Action.mentions)).Nodup := by
  have hmentions : ((actionsOf files).flatMap Action.mentions).Nodup :=
    (nodup_actionsOf (nodup_mention_ids hparsed hnodup)).of_map _
  have hall : ∀ {m}, m ∈ (actionsOf files).flatMap Action.mentions ↔ m ∈ mentionsOf files :=
    (mentionsOf_perm files).mem_iff
  have hinj : ∀ {p : Mention → Bool} {m m' : Mention},
      m ∈ ((actionsOf files).flatMap Action.mentions).filter (fun m => m.role = role && p m) →
      m' ∈ (actionsOf files).flatMap Action.mentions → m.statement = m'.statement → m = m' := by
    intro p m m' hm hm' h
    obtain ⟨hm, hr⟩ := List.mem_filter.mp hm
    rw [Bool.and_eq_true, decide_eq_true_eq] at hr
    exact mention_eq_of_statement hparsed hnodup (hall.mp hm) (hall.mp hm') (hr.1 ▸ hv) h
  refine List.nodup_append'.mpr ⟨?_, ?_, ?_⟩
  · exact (hmentions.filter _).map_on fun m hm m' hm' => hinj hm (List.mem_of_mem_filter hm')
  · exact (hmentions.filter _).map_on fun m hm m' hm' => hinj hm (List.mem_of_mem_filter hm')
  · intro r hr hr'
    obtain ⟨m, hm, rfl⟩ := List.mem_map.mp hr
    obtain ⟨m', hm', h⟩ := List.mem_map.mp hr'
    obtain rfl := hinj hm (List.mem_of_mem_filter hm') h.symm
    have hf := List.of_mem_filter hm
    have hf' := List.of_mem_filter hm'
    simp only [Bool.and_eq_true, beq_iff_eq] at hf hf'
    rw [hf.2] at hf'
    cases hf'.2

/-! ### The issues of references without a target -/

theorem unresolved_link (generation : Nat) :
    ((link files true generation).issues.filter (·.kind = .unresolvedReference)).Perm
      (((mentionsOf files).filter (·.failsIn (link files true generation).links)).map
        (·.ref.unresolved)) := by
  have hclose := closingOf_eq_settled (nodup_mention_ids hparsed hnodup)
  rw [filter_issues_link, link_links]
  calc (closingOf files true).unresolved
      = (Ledger.settled (closingOf files true).links
          ((actionsOf files).flatMap Action.mentions)).unresolved := congrArg _ hclose
    List.Perm _ ((((actionsOf files).flatMap Action.mentions).filter
          (·.failsIn (closingOf files true).links)).map (·.ref.unresolved)) :=
        Ledger.unresolved_perm _ _
    List.Perm _ (((mentionsOf files).filter (·.failsIn (closingOf files true).links)).map
          (·.ref.unresolved)) := ((mentionsOf_perm files).filter _).map _

end Parsed

/-- The issues of references without a target at some place. -/
def unresolvedAt (l : Linkage) (span : Span) : List Issue :=
  l.issues.filter fun i => i.span = span && i.kind = .unresolvedReference

/-- A reference has one issue at its place if it fails, and none if it does not. -/
theorem unresolvedAt_eq (hparsed : ∀ f ∈ files, f.Parsed) (hnodup : (files.map (·.file)).Nodup)
    (generation : Nat) {m : Mention} (hm : m ∈ mentionsOf files) :
    (link files true generation).unresolvedAt m.ref.span =
      if m.failsIn (link files true generation).links then [m.ref.unresolved] else [] := by
  generalize hlinks : (link files true generation).links = links
  have hkey : (mentionsOf files).filter (fun m' => m'.ref.span = m.ref.span) = [m] :=
    filter_key_eq (fun m : Mention => m.ref.span) (nodup_mention_spans hparsed hnodup) hm
  have hown : ((mentionsOf files).filter (·.failsIn links)).filter
      (fun m' => m'.ref.span = m.ref.span) = if m.failsIn links then [m] else [] := by
    rw [List.filter_comm, hkey, List.filter_singleton]
    cases m.failsIn links <;> rfl
  have hat : ((link files true generation).unresolvedAt m.ref.span).Perm
      ((if m.failsIn links then [m] else []).map (·.ref.unresolved)) := by
    have hfilter := (unresolved_link hparsed hnodup generation).filter (·.span = m.ref.span)
    rw [List.filter_filter, List.filter_map, hlinks] at hfilter
    rw [← hown]
    exact hfilter
  cases hf : m.failsIn links with
  | true =>
      rw [hf] at hat
      exact List.perm_singleton.mp hat
  | false =>
      rw [hf] at hat
      exact hat.eq_nil

/-- Whether an issue is other than those of references of values. -/
def Spares (files : List SourceFile) (i : Issue) : Prop :=
  ∀ m ∈ mentionsOf files, m.role = .value → i ≠ m.ref.unresolved

instance (i : Issue) : Decidable (Spares files i) :=
  inferInstanceAs (Decidable (∀ m ∈ mentionsOf files, m.role = .value → i ≠ m.ref.unresolved))

/-- Without reports, the issues of references of values are missing and nothing else. -/
theorem link_false_eq (hparsed : ∀ f ∈ files, f.Parsed) (hnodup : (files.map (·.file)).Nodup)
    (generation : Nat) :
    link files false generation =
      { link files true generation with
        issues := (link files true generation).issues.filter (Spares files ·) } := by
  have hids := nodup_mention_ids hparsed hnodup
  have hspans := nodup_mention_spans hparsed hnodup
  obtain ⟨more, hmore, htrue⟩ := link_true_eq files generation
  -- Issues come in three stretches: from the run, from its end, and from labels in use.
  have hearly : (Pass.start.run (actionsOf files)).issues.filter (Spares files ·) =
      (Pass.start.run (actionsOf files)).issues := by
    refine List.filter_eq_self.mpr fun i hi => decide_eq_true fun m hm hv he => ?_
    have hu : i ∈ (ledgerOf files).unresolved := by
      rw [← ledger_actionsOf]
      exact List.mem_filter.mpr ⟨hi, by rw [he]; rfl⟩
    obtain ⟨m', hm', hv', he'⟩ := (balanced_ledgerOf hids).exists_of_unresolved hu
    have hspan : m'.ref.span = m.ref.span := congrArg Issue.span (he'.symm.trans he)
    obtain rfl := List.inj_on_of_nodup_map hspans ((mentionsOf_perm files).mem_iff.mp hm') hm hspan
    exact hv' hv
  have hlate : more.filter (Spares files ·) = [] := by
    refine List.filter_eq_nil_iff.mpr fun i hi hspares => ?_
    obtain ⟨ref, hw, he⟩ := hmore i hi
    obtain ⟨m, hm, hv, rfl, -⟩ := (balanced_ledgerOf hids).exists_of_waits hw
    exact of_decide_eq_true hspares m ((mentionsOf_perm files).mem_iff.mp hm) hv he
  have hlabels : (link files false generation).labelIssues.filter (Spares files ·) =
      (link files false generation).labelIssues := by
    refine List.filter_eq_self.mpr fun i hi => decide_eq_true fun m hm hv he => ?_
    have hkind := kind_of_mem_labelIssues hi
    rw [he] at hkind
    cases hkind
  have hissues : (link files true generation).issues.filter (Spares files ·) =
      (link files false generation).issues := by
    rw [htrue, issues_link_false, List.filter_append, List.filter_append, hearly, hlate, hlabels,
      List.append_nil]
  rw [hissues, htrue]

/-- In files as read, a reference of a value or a block has one issue at its place if it is not
linked, and none if it is; a block is listed by whether its reference is linked. A delete by
reference is listed as done, or else it has one issue: when its reference is not linked, or is
linked to the root. There are no other issues of the kind. When the references of values are not
reported, their issues are missing and nothing else changes. -/
theorem unresolved_reported_once (files : List SourceFile) (generation : Nat)
    (hparsed : ∀ f ∈ files, f.Parsed) (hnodup : (files.map (·.file)).Nodup) :
    let l := link files true generation
    (∀ m ∈ mentionsOf files, m.role ≠ .delete →
      l.unresolvedAt m.ref.span = if l.linked? m.ref.id = none then [m.ref.unresolved] else []) ∧
    (∀ m ∈ mentionsOf files, m.role = .block →
      (m.statement ∈ l.referenceBlocks ↔ l.linked? m.ref.id ≠ none) ∧
      (m.statement ∈ l.unlinkedReferenceBlocks ↔ l.linked? m.ref.id = none)) ∧
    (∀ m ∈ mentionsOf files, m.role = .delete →
      let fails := l.linked? m.ref.id = none ∨ l.linked? m.ref.id = some Tree.root
      (m.statement ∈ l.globalDeletes ↔ ¬ fails) ∧ (m.statement ∈ l.unlinkedDeletes ↔ fails) ∧
      l.unresolvedAt m.ref.span = if fails then [m.ref.unresolved] else []) ∧
    (l.referenceBlocks ++ l.unlinkedReferenceBlocks).Nodup ∧
    (l.globalDeletes ++ l.unlinkedDeletes).Nodup ∧
    (∀ i ∈ l.issues, i.kind = .unresolvedReference →
      ∃ m ∈ mentionsOf files, i = m.ref.unresolved) ∧
    link files false generation = { l with issues := l.issues.filter (Spares files ·) } := by
  intro l
  obtain ⟨hblocks, hunlinked, hdeletes, hmissed⟩ := lists_link hparsed hnodup generation
  have hfails : ∀ m : Mention, m.failsIn l.links = true ↔ l.linked? m.ref.id = none ∨
      m.role = .delete ∧ l.linked? m.ref.id = some Tree.root := fun m => Mention.failsIn_iff
  have hat := fun m hm => unresolvedAt_eq hparsed hnodup generation (m := m) hm
  refine ⟨fun m hm hd => ?_, fun m hm hr => ?_, fun m hm hr => ?_, ?_, ?_, fun i hi hk => ?_, ?_⟩
  · have hf : m.failsIn l.links = true ↔ l.linked? m.ref.id = none := by
      simpa [hd] using hfails m
    rw [hat m hm]
    exact if_congr hf rfl rfl
  · have hf : m.failsIn l.links = true ↔ l.linked? m.ref.id = none := by
      simpa [hr] using hfails m
    have hmem := fun fails => mem_statements hparsed hnodup l.links fails hm hr (by decide)
    rw [hblocks, hunlinked, hmem, hmem, ← Bool.not_eq_true]
    exact ⟨not_congr hf, hf⟩
  · have hf : m.failsIn l.links = true ↔
        l.linked? m.ref.id = none ∨ l.linked? m.ref.id = some Tree.root := by
      simpa [hr] using hfails m
    have hmem := fun fails => mem_statements hparsed hnodup l.links fails hm hr (by decide)
    rw [hdeletes, hmissed, hmem, hmem, ← Bool.not_eq_true, hat m hm]
    exact ⟨not_congr hf, hf, if_congr hf rfl rfl⟩
  · rw [hblocks, hunlinked]
    exact nodup_statements hparsed hnodup _ (by decide)
  · rw [hdeletes, hmissed]
    exact nodup_statements hparsed hnodup _ (by decide)
  · have hmem : i ∈ l.issues.filter (·.kind = .unresolvedReference) :=
      List.mem_filter.mpr ⟨hi, decide_eq_true hk⟩
    obtain ⟨m, hm, he⟩ :=
      List.mem_map.mp ((unresolved_link hparsed hnodup generation).mem_iff.mp hmem)
    exact ⟨m, List.mem_of_mem_filter hm, he.symm⟩
  · exact link_false_eq hparsed hnodup generation

/-- References of each kind and outcome, read from
`/{a:n{};p=<&a &b &{/x}>;};&a{};&c{};/delete-node/&a;/delete-node/&{/};`. -/
def mixedFile : SourceFile :=
  .read ⟨0⟩ ("/\x7ba:n\x7b\x7d;p=<&a &b &\x7b/x\x7d>;\x7d;&a\x7b\x7d;&c\x7b\x7d;" ++
    "/delete-node/&a;/delete-node/&\x7b/\x7d;").toList

theorem mixedFile_reported :
    ((mentionsOf [mixedFile]).map fun m => (m.role, (link [mixedFile] true 0).linked? m.ref.id)) =
      [(.value, some ⟨1⟩), (.value, none), (.value, none), (.block, some ⟨1⟩), (.block, none),
        (.delete, some ⟨1⟩), (.delete, some ⟨0⟩)] ∧
    (∀ m ∈ mentionsOf [mixedFile], m.role ≠ .delete →
      (link [mixedFile] true 0).unresolvedAt m.ref.span =
        if (link [mixedFile] true 0).linked? m.ref.id = none then [m.ref.unresolved] else []) ∧
    (link [mixedFile] false 0).issues =
      (link [mixedFile] true 0).issues.filter (Spares [mixedFile] ·) := by
  have hparsed : ∀ f ∈ [mixedFile], f.Parsed := by
    intro f hf
    rw [List.mem_singleton.mp hf]
    exact ⟨_, rfl⟩
  have h := unresolved_reported_once [mixedFile] 0 hparsed (by decide)
  exact ⟨by decide +kernel, h.1, congrArg (·.issues) h.2.2.2.2.2.2⟩

end Linkage

end Devicetree
