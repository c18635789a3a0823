import Devicetree.Linkage.Visibility
import Devicetree.Proofs.Linkage.History

/-!
# Visibility in a tree that has grown

If a linkage grew out of an earlier one by what is not in scope at a cursor, then what is
visible there is what was live in the earlier one: its nodes, their labels, their children and
the properties in force.
-/

namespace Devicetree

namespace Linkage

theorem mem_distinct {α : Type} [DecidableEq α] {a : α} {as : List α} :
    a ∈ distinct as ↔ a ∈ as := by
  induction as with
  | nil => exact Iff.rfl
  | cons b as ih =>
      simp only [distinct, List.mem_cons, List.mem_filter, ih, decide_eq_true_eq]
      constructor
      · rintro (rfl | ⟨hm, -⟩)
        · exact .inl rfl
        · exact .inr hm
      · rintro (rfl | hm)
        · exact .inl rfl
        · by_cases hab : a = b
          · exact .inl hab
          · exact .inr ⟨hm, hab⟩

theorem newestInScope_cons (l : Linkage) (c : Cursor) (p : Property) (ps : List Property) :
    l.newestInScope c (p :: ps) =
      (p.newest? (l.inScope c)).elim (l.newestInScope c ps) fun d =>
        d :: (l.newestInScope c ps).filter (·.name.value ≠ p.name) := by
  rw [newestInScope, Property.newest?_eq_find?]
  cases p.history.find? fun q => l.inScope c q.span <;> rfl

/-- Where no two of the definitions have one name, none is left out. -/
theorem newestInScope_eq (l : Linkage) (c : Cursor) {ps : List Property}
    (hnamed : ∀ p ∈ ps, ∀ d ∈ p.definitions, d.name.value = p.name)
    (hnodup : ((ps.filterMap (·.newest? (l.inScope c))).map (·.name.value)).Nodup) :
    l.newestInScope c ps = ps.filterMap (·.newest? (l.inScope c)) := by
  induction ps with
  | nil => rfl
  | cons p ps ih =>
      have hrest := fun q hq => hnamed q (List.mem_cons_of_mem p hq)
      rw [List.filterMap_cons] at hnodup ⊢
      rw [newestInScope_cons]
      cases hp : p.newest? (l.inScope c) with
      | none =>
          rw [hp] at hnodup
          exact ih hrest hnodup
      | some d =>
          rw [hp] at hnodup
          simp only [List.map_cons, List.nodup_cons] at hnodup
          obtain ⟨hfresh, hnodup⟩ := hnodup
          simp only [Option.elim_some, ih hrest hnodup, List.cons.injEq, true_and]
          apply List.filter_eq_self.mpr
          intro e he
          have hd := hnamed p List.mem_cons_self d (Property.mem_definitions_of_newest? hp)
          simp only [ne_eq, decide_eq_true_eq]
          rintro hname
          exact hfresh (List.mem_map.mpr ⟨e, he, hname.trans hd.symm⟩)

theorem lt_size_of_definitions {t : Tree} {id : NodeId} (hd : (t.node id).definitions ≠ []) :
    id.index < t.size := by
  apply Nat.lt_of_not_le
  intro hle
  rw [Tree.node_of_size_le hle] at hd
  exact hd rfl

/-- A linkage that grew out of another by what is not in scope at a cursor. -/
structure Recalls (now past : Linkage) (c : Cursor) : Prop where
  now_wellFormed : now.tree.WellFormed
  past_wellFormed : past.tree.WellFormed
  told : past.tree.Told (now.inScope c)
  grown : past.tree.Grown (now.inScope c) now.tree

namespace Recalls

variable {now past : Linkage} {c : Cursor} (h : now.Recalls past c) {id : NodeId}
include h

/-- Of the tombstones, those of the past are in scope and the later ones are not. -/
theorem deletedAt (hid : id.index < past.tree.size) :
    now.deletedAt c id = (past.tree.node id).deleted := by
  have hfound : ∀ s, now.tree.tombstone? id = some s →
      now.inScope c s.deletedBy.span = (past.tree.node id).deleted := by
    intro s hs
    obtain ⟨parent, hp, hfind⟩ := Option.bind_eq_some_iff.mp hs
    rw [h.grown.parent id hid] at hp
    obtain ⟨later, heq, hlater⟩ := (h.grown.node parent).deletedNodes
    rw [heq, List.find?_append] at hfind
    -- The first tombstone of the node counts, and a node that was deleted had its one then.
    cases hold : (past.tree.node parent).deletedNodes.find? (·.target = id) with
    | some found =>
        rw [hold] at hfind
        cases hfind
        have hmem := List.mem_of_find?_eq_some hold
        have htarget : s.target = id := by simpa using List.find?_some hold
        rw [(h.told.seen parent).deletedNodes s hmem]
        exact (h.past_wellFormed.mem_tombstones.mp ⟨s, hmem, htarget⟩).2.symm
    | none =>
        rw [hold] at hfind
        have hkept : ¬ (past.tree.node id).deleted = true := by
          intro hd
          obtain ⟨t, hmem, htarget⟩ := h.past_wellFormed.mem_tombstones.mpr ⟨hp, hd⟩
          exact List.find?_eq_none.mp hold t hmem (decide_eq_true htarget)
        rw [hlater s (List.mem_of_find?_eq_some hfind), Bool.eq_false_iff.mpr hkept]
  have hsome : (past.tree.node id).deleted = true → (now.tree.tombstone? id).isSome := by
    intro hd
    obtain ⟨parent, hp⟩ := Option.isSome_iff_exists.mp (h.past_wellFormed.deleted_parent hd)
    have hnow : (now.tree.node id).parent = some parent := (h.grown.parent id hid).trans hp
    obtain ⟨t, hmem, htarget⟩ := h.now_wellFormed.mem_tombstones.mpr
      ⟨hnow, (h.grown.node id).deleted hd⟩
    rw [Tree.tombstone?, hnow]
    exact List.find?_isSome.mpr ⟨t, hmem, decide_eq_true htarget⟩
  rw [Linkage.deletedAt, Linkage.node]
  cases hd : (past.tree.node id).deleted with
  | true =>
      obtain ⟨s, hs⟩ := Option.isSome_iff_exists.mp (hsome hd)
      rw [(h.grown.node id).deleted hd, hs]
      exact (hfound s hs).trans hd
  | false =>
      cases hs : now.tree.tombstone? id with
      | none => exact Bool.and_false _
      | some s =>
          simp only [(hfound s hs).trans hd, Bool.and_false]

/-- What is visible is what was live. -/
theorem visibleAt (hid : id.index < past.tree.size) :
    now.visibleAt c id = past.tree.isLive id := by
  induction id using h.past_wellFormed.up_induction with
  | step id ih =>
      have hparent := h.grown.parent id hid
      cases hp : (past.tree.node id).parent with
      | none =>
          rw [hp] at hparent
          rw [Linkage.visibleAt, Tree.isLive, Tree.reachesRoot_of_none hparent,
            Tree.reachesRoot_of_none hp, h.deletedAt hid]
      | some parent =>
          rw [hp] at hparent
          have hlt := Nat.lt_trans (h.past_wellFormed.parent_lt hp) hid
          have hup : now.tree.reachesRoot parent (fun member => !now.deletedAt c member) = _ :=
            ih parent hp hlt
          rw [Linkage.visibleAt, h.now_wellFormed.reachesRoot_of_some hparent, h.deletedAt hid,
            hup, h.past_wellFormed.isLive_of_some hp]

theorem definedAt : now.definedAt c id = true ↔ (past.tree.node id).definitions ≠ [] := by
  obtain ⟨later, heq, hlater⟩ := (h.grown.node id).definitions
  have hseen := (h.told.seen id).definitions
  rw [Linkage.definedAt, Linkage.node, heq, List.any_append, Bool.or_eq_true]
  constructor
  · rintro (hold | hnew)
    · obtain ⟨ref, hmem, -⟩ := List.any_eq_true.mp hold
      exact List.ne_nil_of_mem hmem
    · obtain ⟨ref, hmem, hin⟩ := List.any_eq_true.mp hnew
      rw [hlater ref hmem] at hin
      cases hin
  · intro hne
    obtain ⟨ref, hmem⟩ := List.exists_mem_of_ne_nil _ hne
    exact .inl (List.any_eq_true.mpr ⟨ref, hmem, hseen ref hmem⟩)

theorem mem_visibleLabels {label : String} :
    (label, id) ∈ now.visibleLabels c ↔
      past.tree.isLive id = true ∧ (past.tree.node id).hasLabel label = true := by
  obtain ⟨later, heq, hlater⟩ := (h.grown.node id).labels
  have hseen := (h.told.seen id).labels
  rw [visibleLabels, mem_distinct, List.mem_flatMap]
  constructor
  · rintro ⟨other, hother, hm⟩
    obtain ⟨bound, hbound, hpair⟩ := List.mem_map.mp hm
    obtain ⟨hvalue, rfl⟩ := Prod.mk.inj hpair
    obtain ⟨hmem, hin⟩ := List.mem_filter.mp hbound
    rw [Linkage.node, heq] at hmem
    rcases List.mem_append.mp hmem with hmem | hmem
    · have hlt : other.index < past.tree.size := by
        apply Nat.lt_of_not_le
        intro hle
        rw [Tree.node_of_size_le hle] at hmem
        cases hmem
      refine ⟨h.visibleAt hlt ▸ (List.mem_filter.mp hother).2, ?_⟩
      exact List.any_eq_true.mpr ⟨bound, hmem, by simpa using hvalue⟩
    · rw [hlater bound hmem] at hin
      cases hin
  · rintro ⟨hlive, hlabel⟩
    have hlt := h.past_wellFormed.lt_size_of_isLive hlive
    obtain ⟨bound, hmem, hvalue⟩ := List.any_eq_true.mp hlabel
    refine ⟨id, List.mem_filter.mpr ⟨?_, (h.visibleAt hlt).trans hlive⟩, ?_⟩
    · exact List.mem_map.mpr
        ⟨id.index, List.mem_range.mpr (Nat.lt_of_lt_of_le hlt h.grown.size_le), rfl⟩
    · refine List.mem_map.mpr ⟨bound, List.mem_filter.mpr ⟨?_, hseen bound hmem⟩, ?_⟩
      · rw [Linkage.node, heq]
        exact List.mem_append_left _ hmem
      · rw [eq_of_beq hvalue]

theorem mem_visibleChildren {child : NodeId} :
    child ∈ now.visibleChildren c id ↔
      past.tree.isLive id = true ∧ child ∈ (past.tree.node id).children := by
  -- A child, deleted since or not, is a node whose parent this is.
  have hmem : child ∈ (now.tree.node id).children ++
      (now.tree.node id).deletedNodes.map (·.target) ↔
        (now.tree.node child).parent = some id := by
    rw [List.mem_append, h.now_wellFormed.mem_children, List.mem_map,
      h.now_wellFormed.mem_tombstones, ← and_or_left]
    cases (now.tree.node child).deleted <;> simp
  rw [visibleChildren, List.mem_filter, Linkage.node, hmem, Bool.and_eq_true, h.definedAt]
  constructor
  · rintro ⟨hp, hvisible, hdefined⟩
    have hlt := lt_size_of_definitions hdefined
    rw [h.grown.parent child hlt] at hp
    rw [h.visibleAt hlt, h.past_wellFormed.isLive_of_some hp, Bool.and_eq_true] at hvisible
    exact ⟨hvisible.2, h.past_wellFormed.mem_children.mpr ⟨hp, by simpa using hvisible.1⟩⟩
  · rintro ⟨hlive, hchild⟩
    have hlt := h.past_wellFormed.lt_size_of_mem_children hchild
    have hp := (h.past_wellFormed.mem_children.mp hchild).1
    refine ⟨(h.grown.parent child hlt).trans hp, ?_, h.told.defined child (by simp [hp])⟩
    rw [h.visibleAt hlt, h.past_wellFormed.isLive_child hchild, hlive]

/-- The visible definitions are those that were in force, in some order. -/
theorem visibleProperties_perm :
    (now.visibleProperties c id).Perm
      ((past.tree.node id).properties.values.map (·.definition)) := by
  have hperm := (h.grown.node id).remembered
  rw [Node.remembered_of_seen (h.told.seen id)] at hperm
  have hpast := h.told.keyed id
  have hnames : ((past.tree.node id).properties.values.map (·.definition)).map (·.name.value) =
      (past.tree.node id).properties.keys := by
    rw [Table.values, Table.keys, List.map_map, List.map_map]
    apply List.map_congr_left
    intro e he
    exact hpast.named e he _ e.2.definition_mem_definitions
  have hnodup : (((now.tree.node id).remembered (now.inScope c)).map (·.name.value)).Nodup := by
    rw [(hperm.map _).nodup_iff, hnames]
    exact hpast.nodup
  -- Names stay with their properties, so no definition hides another one.
  have hkeyed := h.grown.keyed id
  have hnamed : ∀ p ∈ (now.tree.node id).undeleted (now.inScope c), ∀ d ∈ p.definitions,
      d.name.value = p.name := by
    intro p hp d hd
    rcases List.mem_append.mp hp with hp | hp
    · obtain ⟨e, he, rfl⟩ := List.mem_map.mp hp
      rw [hkeyed.named e he d hd, Property.name,
        hkeyed.named e he _ e.2.definition_mem_definitions]
    · obtain ⟨s, hs, rfl⟩ := List.mem_map.mp hp
      exact hkeyed.buried s (List.mem_of_mem_filter hs) d hd
  exact (List.Perm.of_eq (newestInScope_eq now c hnamed hnodup)).trans hperm

/-- Under each name the definition that was in force is visible, and nothing else. -/
theorem visibleProperties_filter (name : String) :
    (now.visibleProperties c id).filter (·.name.value = name) =
      ((past.tree.node id).property? name).toList.map (·.definition) := by
  have hpast := h.told.keyed id
  have hall : (now.visibleProperties c id).Perm _ := h.visibleProperties_perm
  have hperm := hall.filter (·.name.value = name)
  have hvalues : ((past.tree.node id).properties.values.map (·.definition)).filter
      (·.name.value = name) = ((past.tree.node id).property? name).toList.map (·.definition) := by
    calc ((past.tree.node id).properties.values.map (·.definition)).filter (·.name.value = name)
      _ = ((past.tree.node id).properties.entries.filter (·.1 = name)).map (·.2.definition) := by
          rw [Table.values, List.map_map, List.filter_map]
          congr 1
          apply List.filter_congr
          intro e he
          simp only [Function.comp_apply, hpast.named e he _ e.2.definition_mem_definitions]
      _ = ((past.tree.node id).property? name).toList.map (·.definition) := by
          rw [Table.filter_key hpast.nodup, List.map_map]
          rfl
  rw [hvalues] at hperm
  cases hp : (past.tree.node id).property? name with
  | none =>
      rw [hp] at hperm
      exact hperm.eq_nil
  | some p =>
      rw [hp] at hperm
      exact List.perm_singleton.mp hperm

end Recalls

end Linkage

end Devicetree
