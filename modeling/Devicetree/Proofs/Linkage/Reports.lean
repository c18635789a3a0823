import Devicetree.Proofs.Linkage.Pending

/-!
# What reporting adds

At its end a pass may report the references of values that are left without a target. Whether it
does makes no difference but for the issues then added, and these are of references that waited
to the end.
-/

namespace Devicetree

namespace Pass

/-- A pass with other issues. -/
def withIssues (p : Pass) (issues : List Issue) : Pass :=
  { p with issues := issues }

theorem linkSegments_withIssues (p : Pass) (issues : List Issue) (path : PathRef)
    (nodes : List NodeId) :
    (p.withIssues issues).linkSegments path nodes =
      (p.linkSegments path nodes).withIssues issues := by
  unfold linkSegments
  generalize path.segments.zip nodes = pairs
  induction pairs generalizing p with
  | nil => rfl
  | cons pair pairs ih =>
      rw [List.foldl_cons, List.foldl_cons, ← ih]
      rfl

theorem linkPath?_withIssues (p : Pass) (issues : List Issue) (path : PathRef) :
    (p.withIssues issues).linkPath? path =
      (p.linkPath? path).map fun found => (found.1.withIssues issues, found.2) := by
  have hwalk : (p.withIssues issues).walkPath path = p.walkPath path := rfl
  simp only [linkPath?, hwalk, linkSegments_withIssues]
  split <;> rfl

theorem issues_linkSegments (p : Pass) (path : PathRef) (nodes : List NodeId) :
    (p.linkSegments path nodes).issues = p.issues := by
  unfold linkSegments
  generalize path.segments.zip nodes = pairs
  induction pairs generalizing p with
  | nil => rfl
  | cons pair pairs ih => exact ih _

/-- Trying a path once more with a report does what it does without, and may add its issue. -/
theorem retryPath_true (p : Pass) (issues : List Issue) (path : PathRef) :
    ∃ more, (∀ i ∈ more, i = (Reference.path path).unresolved) ∧
      retryPath true (p.withIssues issues) path =
        (retryPath false p path).withIssues (issues ++ more) := by
  simp only [retryPath, linkPath?_withIssues]
  cases p.linkPath? path with
  | some found =>
      refine ⟨[], by simp, ?_⟩
      rw [List.append_nil]
      rfl
  | none =>
      refine ⟨[(Reference.path path).unresolved], by simp, ?_⟩
      have hwalk : (p.withIssues issues).walkPath path = p.walkPath path := rfl
      simp only [Option.map_none, hwalk, linkSegments_withIssues]
      rfl

theorem retryPath_false (p : Pass) (path : PathRef) :
    (retryPath false p path).issues = p.issues := by
  simp only [retryPath]
  cases h : p.linkPath? path with
  | some found =>
      simp only [linkPath?] at h
      split at h
      · cases h
        exact issues_linkSegments p path _
      · cases h
  | none => exact issues_linkSegments p path _

theorem retryPaths_true (p : Pass) :
    ∃ more, (∀ i ∈ more, ∃ path ∈ p.pendingPaths, i = (Reference.path path).unresolved) ∧
      p.retryPaths true = (p.retryPaths false).withIssues (p.issues ++ more) := by
  have hfold : ∀ (paths : List PathRef) (q : Pass) (issues : List Issue),
      ∃ more, (∀ i ∈ more, ∃ path ∈ paths, i = (Reference.path path).unresolved) ∧
        paths.foldl (retryPath true) (q.withIssues issues) =
          (paths.foldl (retryPath false) q).withIssues (issues ++ more) := by
    intro paths
    induction paths with
    | nil =>
        intro q issues
        refine ⟨[], by simp, ?_⟩
        rw [List.append_nil]
        rfl
    | cons path paths ih =>
        intro q issues
        obtain ⟨first, hfirst, hstep⟩ := retryPath_true q issues path
        obtain ⟨rest, hrest, hrun⟩ := ih (retryPath false q path) (issues ++ first)
        refine ⟨first ++ rest, ?_, ?_⟩
        · intro i hi
          rcases List.mem_append.mp hi with hi | hi
          · exact ⟨path, List.mem_cons_self, hfirst i hi⟩
          · obtain ⟨other, hm, he⟩ := hrest i hi
            exact ⟨other, List.mem_cons_of_mem _ hm, he⟩
        · rw [List.foldl_cons, List.foldl_cons, hstep, hrun, List.append_assoc]
  exact hfold p.pendingPaths { p with pendingPaths := [] } p.issues

theorem retryPaths_false (p : Pass) : (p.retryPaths false).issues = p.issues := by
  have hfold : ∀ (paths : List PathRef) (q : Pass),
      (paths.foldl (retryPath false) q).issues = q.issues := by
    intro paths
    induction paths with
    | nil => exact fun _ => rfl
    | cons path paths ih =>
        intro q
        rw [List.foldl_cons, ih, retryPath_false]
  exact hfold _ _

theorem reportLabels_true (p : Pass) :
    p.reportLabels true =
      { p with
        pendingLabels := []
        issues :=
          p.issues ++ p.pendingLabels.map fun ref => (Reference.label ref).unresolved } := by
  have hfold : ∀ (refs : List LabelRef) (q : Pass),
      refs.foldl (fun p ref => p.report .unresolvedReference ref.span ref.label []) q =
        q.withIssues (q.issues ++ refs.map fun ref => (Reference.label ref).unresolved) := by
    intro refs
    induction refs with
    | nil => simp [withIssues]
    | cons ref refs ih =>
        intro q
        rw [List.foldl_cons, ih]
        simp [withIssues, report, Reference.unresolved, Reference.span, Reference.subject]
  exact hfold _ _

/-- The labels still waited for do not depend on the paths. -/
theorem pendingLabels_retryPaths (p : Pass) (reportUnresolved : Bool) :
    (p.retryPaths reportUnresolved).pendingLabels = p.pendingLabels := by
  have hretry : ∀ (q : Ledger) (path : PathRef),
      (q.retry p.outline reportUnresolved path).pendingLabels = q.pendingLabels := by
    intro q path
    unfold Ledger.retry
    cases p.outline.target? (.path path) with
    | some node => rfl
    | none => cases reportUnresolved <;> rfl
  have hfold : ∀ (paths : List PathRef) (q : Ledger),
      (paths.foldl (Ledger.retry p.outline reportUnresolved) q).pendingLabels =
        q.pendingLabels := by
    intro paths
    induction paths with
    | nil => exact fun _ => rfl
    | cons path paths ih =>
        intro q
        rw [List.foldl_cons, ih, hretry]
  have hledger := congrArg Ledger.pendingLabels (ledger_retryPaths p reportUnresolved)
  exact hledger.trans (hfold _ _)

end Pass

theorem LabelUse.kind_of_issue? {label : String} {uses : List LabelUse} {i : Issue}
    (h : issue? label uses = some i) : i.kind = .labelInUse := by
  cases uses with
  | nil => cases h
  | cons u us =>
      rw [issue?] at h
      split at h
      · cases h
      · cases h
        rfl

namespace Linkage

/-- The issues of labels with several owners. -/
def labelIssues (l : Linkage) : List Issue :=
  LabelUse.issues l.fileOrder (LabelUse.ofTree l.tree)

theorem kind_of_mem_labelIssues {l : Linkage} {i : Issue} (h : i ∈ l.labelIssues) :
    i.kind = .labelInUse := by
  obtain ⟨label, -, hi⟩ := List.mem_filterMap.mp h
  exact LabelUse.kind_of_issue? hi

theorem filter_issues_link (files : List SourceFile) (reportUnresolved : Bool)
    (generation : Nat) :
    (link files reportUnresolved generation).issues.filter (·.kind = .unresolvedReference) =
      (closingOf files reportUnresolved).unresolved := by
  have hlabels : (link files reportUnresolved generation).labelIssues.filter
      (·.kind = .unresolvedReference) = [] := by
    apply List.filter_eq_nil_iff.mpr
    intro i hi
    simp [kind_of_mem_labelIssues hi]
  rw [← ledger_linked]
  refine (List.filter_append ..).trans ?_
  rw [← List.append_nil (Ledger.unresolved _)]
  exact congrArg _ hlabels

/-- Without reports, only labels with several owners are looked for in the end. -/
theorem issues_link_false (files : List SourceFile) (generation : Nat) :
    (link files false generation).issues =
      (Pass.start.run (actionsOf files)).issues ++ (link files false generation).labelIssues := by
  have hissues := Pass.retryPaths_false (Pass.start.run (actionsOf files))
  exact congrArg (· ++ (link files false generation).labelIssues) hissues

/-- With reports, the issues of references that waited come before those. -/
theorem link_true_eq (files : List SourceFile) (generation : Nat) :
    ∃ more, (∀ i ∈ more, ∃ ref, (ledgerOf files).Waits ref ∧ i = ref.unresolved) ∧
      link files true generation =
        { link files false generation with
          issues := (Pass.start.run (actionsOf files)).issues ++ more ++
            (link files false generation).labelIssues } := by
  let p := Pass.start.run (actionsOf files)
  obtain ⟨paths, hpaths, hretry⟩ := p.retryPaths_true
  refine ⟨paths ++ p.pendingLabels.map fun ref => (Reference.label ref).unresolved, ?_, ?_⟩
  · intro i hi
    rw [← ledger_actionsOf]
    rcases List.mem_append.mp hi with hi | hi
    · obtain ⟨path, hm, he⟩ := hpaths i hi
      exact ⟨.path path, hm, he⟩
    · obtain ⟨ref, hm, he⟩ := List.mem_map.mp hi
      exact ⟨.label ref, hm, he.symm⟩
  · have hlabels := p.pendingLabels_retryPaths false
    have hfinal : (p.retryPaths true).reportLabels true =
        { p.retryPaths false with
          pendingLabels := []
          issues := p.issues ++ (paths ++
            p.pendingLabels.map fun ref => (Reference.label ref).unresolved) } := by
      rw [Pass.reportLabels_true, hretry, ← List.append_assoc, ← hlabels]
      rfl
    have hlink : ∀ q, (p.retryPaths true).reportLabels true = q → link files true generation =
        { q.toRecord with
          issues := q.issues ++
            LabelUse.issues (files.map (·.file)) (LabelUse.ofTree q.tree)
          generation := generation
          files := files } := by
      rintro q rfl
      rfl
    exact hlink _ hfinal

end Linkage

end Devicetree
