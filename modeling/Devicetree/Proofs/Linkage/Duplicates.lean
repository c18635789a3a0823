import Devicetree.Proofs.Linkage.Accounts
import Devicetree.Proofs.Linkage.Conflicts
import Devicetree.Proofs.Source.Spelling

/-!
# Where children are defined twice

The blocks of a body are checked in the order of writing. A block of a child makes for an issue at
its name exactly if a block before it names the same child, and no statement of the body between
the two deletes that name. What is written inside the blocks has no part in it.
-/

namespace Devicetree

namespace Statement

/-- The name of the child that a block opens, where it is written. -/
def child? : Statement → Option NodeName
  | .block ⟨_, _, .child name, _⟩ _ => some name
  | _ => none

theorem childName?_eq (s : Statement) : s.childName? = s.child?.map (·.value) := by
  cases s with
  | block head body =>
      obtain ⟨id, labels, target, span⟩ := head
      cases target <;> rfl
  | _ => rfl

/-- The child that a statement deletes from the node whose body it stands in. -/
def deletedName? : Statement → Option UnitName
  | .deleteNode ⟨_, _, .name name, _⟩ => some name.value
  | _ => none

/-- Some of these statements opens a child of that name, and none after it deletes the name. -/
def LeavesNamed (name : UnitName) (ss : List Statement) : Prop :=
  ∃ front s back, ss = front ++ s :: back ∧ s.childName? = some name ∧
    ∀ t ∈ back, t.deletedName? ≠ some name

theorem not_leavesNamed_nil (name : UnitName) : ¬LeavesNamed name [] := by
  rintro ⟨front, s, back, h, -⟩
  simp at h

theorem leavesNamed_cons {name : UnitName} {s : Statement} {ss : List Statement} :
    LeavesNamed name (s :: ss) ↔
      LeavesNamed name ss ∨
        s.childName? = some name ∧ ∀ t ∈ ss, t.deletedName? ≠ some name := by
  constructor
  · rintro ⟨front, t, back, hsplit, hname, hback⟩
    cases front with
    | nil =>
        cases hsplit
        exact .inr ⟨hname, hback⟩
    | cons first front =>
        cases hsplit
        exact .inl ⟨front, t, back, rfl, hname, hback⟩
  · rintro (⟨front, t, back, rfl, hname, hback⟩ | ⟨hname, hback⟩)
    · exact ⟨s :: front, t, back, rfl, hname, hback⟩
    · exact ⟨[], s, ss, rfl, hname, hback⟩

/-! ### The check of one body -/

/-- The names seen once a statement has been checked. -/
def remember (seen : List NodeName) (s : Statement) : List NodeName :=
  match s.child?, s.deletedName? with
  | some name, _ => if (seen.find? (·.value = name.value)).isSome then seen else seen ++ [name]
  | none, some name => seen.filter (·.value ≠ name)
  | none, none => seen

/-- The clash of one statement with the names seen before it. -/
def clashIn (seen : List NodeName) (s : Statement) : List Action :=
  (s.child?.bind fun name =>
    (seen.find? (·.value = name.value)).map fun first => .clash name first.span).toList

theorem clashesFrom_cons (seen : List NodeName) (s : Statement) (ss : List Statement) :
    clashesFrom seen (s :: ss) = clashIn seen s ++ clashesFrom (remember seen s) ss := by
  cases s with
  | block head body =>
      obtain ⟨id, labels, target, span⟩ := head
      cases target with
      | child name =>
          cases h : seen.find? (·.value = name.value) <;>
            simp [clashesFrom, clashIn, remember, child?, h]
      | _ => rfl
  | deleteNode delete =>
      obtain ⟨id, keyword, target, span⟩ := delete
      cases target <;> rfl
  | _ => rfl

theorem clashesFrom_append (seen : List NodeName) (ss ss' : List Statement) :
    clashesFrom seen (ss ++ ss') =
      clashesFrom seen ss ++ clashesFrom (ss.foldl remember seen) ss' := by
  induction ss generalizing seen with
  | nil => rfl
  | cons s ss ih =>
      rw [List.cons_append, clashesFrom_cons, clashesFrom_cons, ih, List.append_assoc,
        List.foldl_cons]

/-- A name is seen after a statement that opens it, and stays so unless it is deleted. -/
theorem mem_remember {seen : List NodeName} {s : Statement} {name : UnitName} :
    (∃ n ∈ remember seen s, n.value = name) ↔
      s.childName? = some name ∨
        (∃ n ∈ seen, n.value = name) ∧ s.deletedName? ≠ some name := by
  have hquiet : remember seen s = seen → s.childName? = none → s.deletedName? = none →
      ((∃ n ∈ remember seen s, n.value = name) ↔ s.childName? = some name ∨
        (∃ n ∈ seen, n.value = name) ∧ s.deletedName? ≠ some name) := by
    intro hsame hchild hdeleted
    simp [hsame, hchild, hdeleted]
  cases s with
  | block head body =>
      obtain ⟨id, labels, target, span⟩ := head
      cases target with
      | child opened =>
          have hseen : remember seen (.block ⟨id, labels, .child opened, span⟩ body) =
              if (seen.find? (·.value = opened.value)).isSome then seen else seen ++ [opened] := rfl
          have hchild : (block ⟨id, labels, .child opened, span⟩ body).childName? =
              some opened.value := rfl
          rw [hseen, hchild, Option.some_inj]
          cases hfind : seen.find? (·.value = opened.value) with
          | some first =>
              have hvalue : first.value = opened.value := by simpa using List.find?_some hfind
              refine ⟨fun h => .inr ⟨h, nofun⟩, fun h => h.elim (fun heq => ?_) (·.1)⟩
              exact ⟨first, List.mem_of_find?_eq_some hfind, hvalue.trans heq⟩
          | none =>
              have hdeleted : (block ⟨id, labels, .child opened, span⟩ body).deletedName? =
                none := rfl
              simp [hdeleted, or_and_right, exists_or, or_comm]
      | root slash => exact hquiet rfl rfl rfl
      | reference ref => exact hquiet rfl rfl rfl
  | property definition => exact hquiet rfl rfl rfl
  | deleteProperty delete => exact hquiet rfl rfl rfl
  | deleteNode delete =>
      obtain ⟨id, keyword, target, span⟩ := delete
      cases target with
      | reference ref => exact hquiet rfl rfl rfl
      | name deleted =>
          change (∃ n ∈ seen.filter (·.value ≠ deleted.value), n.value = name) ↔
            none = some name ∨ _ ∧ some deleted.value ≠ some name
          simp only [List.mem_filter, decide_eq_true_eq, reduceCtorEq, false_or, ne_eq,
            Option.some_inj]
          constructor
          · rintro ⟨n, ⟨hn, hne⟩, rfl⟩
            exact ⟨⟨n, hn, rfl⟩, Ne.symm hne⟩
          · rintro ⟨⟨n, hn, rfl⟩, hne⟩
            exact ⟨n, ⟨hn, Ne.symm hne⟩, rfl⟩

theorem mem_foldl_remember {seen : List NodeName} {ss : List Statement} {name : UnitName} :
    (∃ n ∈ ss.foldl remember seen, n.value = name) ↔
      LeavesNamed name ss ∨
        (∃ n ∈ seen, n.value = name) ∧ ∀ s ∈ ss, s.deletedName? ≠ some name := by
  induction ss generalizing seen with
  | nil => simp [not_leavesNamed_nil]
  | cons s ss ih =>
      rw [List.foldl_cons, ih, mem_remember, leavesNamed_cons, List.forall_mem_cons]
      tauto

theorem child?_of_mem_clashesFrom {seen : List NodeName} {ss : List Statement} {name : NodeName}
    {first : Span} (h : .clash name first ∈ clashesFrom seen ss) :
    ∃ s ∈ ss, s.child? = some name := by
  induction ss generalizing seen with
  | nil => cases h
  | cons s ss ih =>
      rw [clashesFrom_cons] at h
      rcases List.mem_append.mp h with h | h
      · obtain ⟨n, hn, hclash⟩ := Option.bind_eq_some_iff.mp (Option.mem_toList.mp h)
        obtain ⟨found, -, heq⟩ := Option.map_eq_some_iff.mp hclash
        cases heq
        exact ⟨s, List.mem_cons_self, hn⟩
      · obtain ⟨t, ht, hname⟩ := ih h
        exact ⟨t, List.mem_cons_of_mem s ht, hname⟩

/-- A block clashes exactly if its name is left named by the statements before it, provided that
no other statement of the body has its name at the same place. -/
theorem clash_iff {before after : List Statement} {s : Statement} {name : NodeName}
    (hname : s.child? = some name)
    (hother : ∀ t ∈ before ++ after, ∀ n, t.child? = some n → n.span ≠ name.span) :
    (∃ n first, .clash n first ∈ clashes (before ++ s :: after) ∧ n.span = name.span) ↔
      LeavesNamed name.value before := by
  have hseen : (∃ n ∈ before.foldl remember [], n.value = name.value) ↔
      LeavesNamed name.value before := by
    rw [mem_foldl_remember]
    simp
  have hfind : (before.foldl remember []).find? (·.value = name.value) ≠ none ↔
      ∃ n ∈ before.foldl remember [], n.value = name.value := by
    simp
  rw [← hseen, ← hfind, clashes, clashesFrom_append, clashesFrom_cons]
  have hself : clashIn (before.foldl remember []) s =
      (((before.foldl remember []).find? (·.value = name.value)).map
        fun first => .clash name first.span).toList := by
    rw [clashIn, hname]
    rfl
  have hapart : ∀ {seen ss n first}, (∀ t ∈ ss, t ∈ before ++ after) →
      .clash n first ∈ clashesFrom seen ss → n.span ≠ name.span := by
    intro seen ss n first hss h
    obtain ⟨t, ht, hn⟩ := child?_of_mem_clashesFrom h
    exact hother t (hss t ht) n hn
  rw [hself]
  constructor
  · rintro ⟨n, first, hmem, hspan⟩
    rcases List.mem_append.mp hmem with hmem | hmem
    · exact absurd hspan (hapart (fun t ht => List.mem_append_left _ ht) hmem)
    · rcases List.mem_append.mp hmem with hmem | hmem
      · obtain ⟨found, hfound, -⟩ := Option.map_eq_some_iff.mp (Option.mem_toList.mp hmem)
        rw [hfound]
        exact Option.some_ne_none found
      · exact absurd hspan (hapart (fun t ht => List.mem_append_right _ ht) hmem)
  · intro h
    obtain ⟨found, hfound⟩ := Option.ne_none_iff_exists'.mp h
    refine ⟨name, found.span, List.mem_append_right _ (List.mem_append_left _ ?_), rfl⟩
    rw [hfound]
    exact List.mem_singleton_self _

/-! ### The names in a body -/

/-- The statements of the body that a statement opens, if any. -/
def body : Statement → List Statement
  | .block _ body => body
  | _ => []

/-- The names of the children that the blocks of a body open. -/
def bodyNames (s : Statement) : List NodeName :=
  s.body.filterMap child?

mutual

/-- All names are those of the outermost blocks and those in the bodies. -/
theorem names_perm : ∀ s : Statement,
    (s.all.filterMap child?).Perm (s.child?.toList ++ s.all.flatMap bodyNames)
  | .block head body => by
      rw [all_block, List.flatMap_cons, ← List.singleton_append, List.filterMap_append]
      exact (List.Perm.of_eq (by cases h : (block head body).child? <;> simp [h])).append
        (namesIn_perm body)
  | .property p => .refl _
  | .deleteNode d => .refl _
  | .deleteProperty d => .refl _

theorem namesIn_perm : ∀ ss : List Statement,
    ((allIn ss).filterMap child?).Perm (ss.filterMap child? ++ (allIn ss).flatMap bodyNames)
  | [] => .refl _
  | s :: ss => by
      have hsplit : (s :: ss).filterMap child? = s.child?.toList ++ ss.filterMap child? := by
        rw [List.filterMap_cons]
        cases s.child? <;> rfl
      rw [allIn_cons, List.filterMap_append, List.flatMap_append, hsplit]
      calc (s.all.filterMap child? ++ (allIn ss).filterMap child?).Perm
            ((s.child?.toList ++ s.all.flatMap bodyNames) ++
              (ss.filterMap child? ++ (allIn ss).flatMap bodyNames)) :=
            (names_perm s).append (namesIn_perm ss)
        List.Perm _ ((s.child?.toList ++ ss.filterMap child?) ++
            (s.all.flatMap bodyNames ++ (allIn ss).flatMap bodyNames)) := by
            simp only [List.append_assoc]
            refine List.Perm.append_left _ ?_
            simp only [← List.append_assoc]
            exact List.perm_append_comm.append_right _

end

/-- The names of children follow one another. -/
theorem successive_children : Successive fun s => s.child?.toList.map (·.span) where
  block head body := by
    refine List.Sublist.trans ?_ (List.sublist_append_right _ _)
    obtain ⟨id, labels, target, span⟩ := head
    cases target with
    | child name => exact List.Sublist.refl _
    | _ => exact List.nil_sublist _
  leaf {s file text} hs _ := by
    cases s with
    | block head body => cases hs
    | _ => exact .nil

/-! ### The clashes of all bodies -/

mutual

theorem clash_mem_actions {name : NodeName} {first : Span} : ∀ s : Statement,
    .clash name first ∈ s.actions ↔
      ∃ head body, .block head body ∈ s.all ∧ .clash name first ∈ clashes body
  | .block head body => by
      have hleaves : Action.clash name first ∉ body.filterMap leafAction? := by
        intro h
        obtain ⟨t, -, ht⟩ := List.mem_filterMap.mp h
        cases t <;> cases ht
      have hrest : Action.clash name first ∈ blockActions body ↔ _ := clash_mem_blockActions body
      simp only [actions, List.cons_append, List.append_assoc, List.mem_cons, List.mem_append,
        reduceCtorEq, false_or, hleaves, List.not_mem_nil, or_false, hrest, all_block,
        block.injEq]
      constructor
      · rintro (h | ⟨head', body', hmem, h⟩)
        · exact ⟨head, body, .inl ⟨rfl, rfl⟩, h⟩
        · exact ⟨head', body', .inr hmem, h⟩
      · rintro ⟨head', body', ⟨rfl, rfl⟩ | hmem, h⟩
        · exact .inl h
        · exact .inr ⟨head', body', hmem, h⟩
  | .property p => by simp [actions]
  | .deleteNode d => by simp [actions]
  | .deleteProperty d => by simp [actions]

theorem clash_mem_blockActions {name : NodeName} {first : Span} : ∀ ss : List Statement,
    .clash name first ∈ blockActions ss ↔
      ∃ head body, .block head body ∈ allIn ss ∧ .clash name first ∈ clashes body
  | [] => by simp [blockActions]
  | s :: ss => by
      have hfirst : Action.clash name first ∈ s.actions ↔ _ := clash_mem_actions s
      have hrest : Action.clash name first ∈ blockActions ss ↔ _ := clash_mem_blockActions ss
      have hsplit : Action.clash name first ∈ blockActions (s :: ss) ↔
          Action.clash name first ∈ s.actions ∨ Action.clash name first ∈ blockActions ss := by
        cases s with
        | block head body =>
            rw [blockActions, isBlock, if_pos rfl]
            exact List.mem_append
        | _ => simp [blockActions, isBlock, actions]
      rw [hsplit, hfirst, hrest, allIn_cons]
      simp only [List.mem_append, or_and_right, exists_or]

end

end Statement

namespace Linkage

variable {files : List SourceFile}

theorem clash_mem_actionsOf {name : NodeName} {first : Span} :
    .clash name first ∈ actionsOf files ↔
      ∃ head body, .block head body ∈ statementsOf files ∧
        .clash name first ∈ Statement.clashes body := by
  simp only [actionsOf, SourceFile.actions, List.mem_flatMap, Statement.clash_mem_actions,
    statementsOf, Statement.mem_allIn]
  constructor
  · rintro ⟨f, hf, s, hs, head, body, hblock, h⟩
    exact ⟨head, body, ⟨f, hf, s, hs, hblock⟩, h⟩
  · rintro ⟨head, body, ⟨f, hf, s, hs, hblock⟩, h⟩
    exact ⟨f, hf, s, hs, head, body, hblock, h⟩

/-- The issues of children defined twice are the clashes of the bodies. -/
theorem exists_duplicate_iff (files : List SourceFile) (reportUnresolved : Bool)
    (generation : Nat) (span : Span) :
    (∃ i ∈ (link files reportUnresolved generation).issues,
        i.kind = .duplicateNodeName ∧ i.span = span) ↔
      ∃ head body, .block head body ∈ statementsOf files ∧
        ∃ name first, .clash name first ∈ Statement.clashes body ∧ name.span = span := by
  have hconflicts := conflicts_link files reportUnresolved generation
  constructor
  · rintro ⟨i, hi, hkind, rfl⟩
    have hmem : i ∈ (link files reportUnresolved generation).issues.filter (·.kind.isConflict) := by
      refine List.mem_filter.mpr ⟨hi, ?_⟩
      rw [hkind]
      rfl
    rw [hconflicts] at hmem
    rcases List.mem_append.mp hmem with hmem | hmem
    · obtain ⟨a, ha, hclash⟩ := List.mem_filterMap.mp hmem
      cases a <;> cases hclash
      obtain ⟨head, body, hblock, h⟩ := clash_mem_actionsOf.mp ha
      exact ⟨head, body, hblock, _, _, h, rfl⟩
    · rw [kind_of_mem_labelIssues hmem] at hkind
      cases hkind
  · rintro ⟨head, body, hblock, name, first, h, rfl⟩
    have hclash : ⟨.duplicateNodeName, name.span, name.value.text, [first]⟩ ∈
        (actionsOf files).filterMap Action.clash? :=
      List.mem_filterMap.mpr ⟨_, clash_mem_actionsOf.mpr ⟨head, body, hblock, h⟩, rfl⟩
    have hmem := List.mem_append_left
      (link files reportUnresolved generation).labelIssues hclash
    rw [← hconflicts] at hmem
    exact ⟨_, (List.mem_filter.mp hmem).1, rfl, rfl⟩

section Parsed

variable (hparsed : ∀ f ∈ files, f.Parsed) (hnodup : (files.map (·.file)).Nodup)
include hparsed hnodup

/-- No two names of children in bodies begin at one place. -/
theorem nodup_bodyNames :
    ((statementsOf files).flatMap fun s => s.bodyNames.map (·.span.site)).Nodup := by
  have hsites := nodup_sites hparsed hnodup Statement.successive_children
  have hall : statementsOf files = Statement.allIn (files.flatMap (·.statements)) := by
    simp only [statementsOf, Statement.allIn_eq_flatMap, List.flatMap_assoc]
  have hnames : ((statementsOf files).flatMap fun s => s.child?.toList.map (·.span)).map
      Span.site = ((statementsOf files).filterMap Statement.child?).map (·.span.site) := by
    rw [List.filterMap_eq_flatMap_toList, List.map_flatMap, List.map_flatMap]
    simp only [List.map_map]
    rfl
  have hperm := (Statement.namesIn_perm (files.flatMap (·.statements))).map (·.span.site)
  rw [← hall, List.map_append, List.map_flatMap] at hperm
  rw [hnames, hperm.nodup_iff] at hsites
  exact (List.nodup_append.mp hsites).2.1

/-- In files as read, a block of a child makes for an issue at its name exactly if the statements
of the body before it leave the name named. -/
theorem duplicate_iff (reportUnresolved : Bool) (generation : Nat) {head : BlockHead}
    {before after : List Statement} {s : Statement} {name : NodeName}
    (hblock : .block head (before ++ s :: after) ∈ statementsOf files)
    (hname : s.child? = some name) :
    (∃ i ∈ (link files reportUnresolved generation).issues,
        i.kind = .duplicateNodeName ∧ i.span = name.span) ↔
      Statement.LeavesNamed name.value before := by
  have hsites := nodup_bodyNames hparsed hnodup
  have hmem : ∀ {t : Statement} {n : NodeName} {body : List Statement}, t ∈ body →
      t.child? = some n → n.span.site ∈ (body.filterMap Statement.child?).map (·.span.site) := by
    intro t n body ht hn
    exact List.mem_map.mpr ⟨n, List.mem_filterMap.mpr ⟨t, ht, hn⟩, rfl⟩
  have hbody := (List.nodup_flatMap.mp hsites).1 _ hblock
  have hother : ∀ t ∈ before ++ after, ∀ n, t.child? = some n → n.span ≠ name.span := by
    intro t ht n hn hspan
    have hsplit : Statement.bodyNames (.block head (before ++ s :: after)) =
        before.filterMap Statement.child? ++ name :: after.filterMap Statement.child? := by
      rw [Statement.bodyNames, Statement.body, List.filterMap_append,
        List.filterMap_cons_some hname]
    rw [hsplit, List.map_append, List.map_cons, List.nodup_middle, ← List.map_append,
      ← List.filterMap_append, ← hspan] at hbody
    exact (List.nodup_cons.mp hbody).1 (hmem ht hn)
  rw [exists_duplicate_iff, ← Statement.clash_iff hname hother]
  constructor
  · rintro ⟨head', body', hblock', n, first, hclash, hspan⟩
    obtain ⟨t, ht, hn⟩ := Statement.child?_of_mem_clashesFrom hclash
    -- Two bodies with a name at one place are the same.
    have heq := eq_of_nodup_flatMap hsites hblock' hblock (hmem ht hn)
      (hspan ▸ hmem (List.mem_append_right _ List.mem_cons_self) hname)
    cases heq
    exact ⟨n, first, hclash, hspan⟩
  · rintro ⟨n, first, hclash, hspan⟩
    exact ⟨head, _, hblock, n, first, hclash, hspan⟩

end Parsed

end Linkage

end Devicetree
