import Devicetree.Proofs.Linkage.Pending
import Devicetree.Proofs.Linkage.Rooted

/-!
# The ledger is the tally of its links

What a ledger lists can be told from its links and the references met so far: each reference is
listed for its role, and the links say under which outcome. The main result is that this holds
throughout a pass in which no two references have the same number, and at its end.
-/

namespace Devicetree

/-- What is picked out of a list has its keys in the same order. -/
theorem map_filterMap_sublist {α β κ : Type} {f : α → Option β} {g : β → κ} {k : α → κ}
    (h : ∀ {a b}, f a = some b → k a = g b) (as : List α) :
    ((as.filterMap f).map g).Sublist (as.map k) := by
  induction as with
  | nil => exact .slnil
  | cons a as ih =>
      cases hf : f a with
      | none =>
          rw [List.filterMap_cons_none hf]
          exact ih.cons _
      | some b =>
          rw [List.filterMap_cons_some hf, List.map_cons, List.map_cons, h hf]
          exact ih.cons_cons _

namespace Mention

/-- Whether a reference is of no use under some links: it is not linked, or it would delete the
root. -/
def failsIn (links : Table AstId NodeId) (m : Mention) : Bool :=
  (links.get? m.ref.id).elim true fun node => m.role = .delete && node = Tree.root

/-- The label that the reference of a value waits for under some links. -/
def waitingLabel? (links : Table AstId NodeId) (m : Mention) : Option LabelRef :=
  match m.role, m.ref with
  | .value, .label ref => if m.failsIn links then some ref else none
  | _, _ => none

/-- The path that the reference of a value waits for under some links. -/
def waitingPath? (links : Table AstId NodeId) (m : Mention) : Option PathRef :=
  match m.role, m.ref with
  | .value, .path ref => if m.failsIn links then some ref else none
  | _, _ => none

/-- The statements with a reference of some role and outcome. -/
def statements (links : Table AstId NodeId) (role : Role) (fails : Bool) (ms : List Mention) :
    List AstRef :=
  (ms.filter fun m => m.role = role && m.failsIn links == fails).map (·.statement)

variable {links links' : Table AstId NodeId} {m : Mention}

theorem failsIn_congr (h : links'.get? m.ref.id = links.get? m.ref.id) :
    m.failsIn links' = m.failsIn links := by
  rw [failsIn, failsIn, h]

theorem failsIn_of_ne_delete (h : m.role ≠ .delete) :
    m.failsIn links = (links.get? m.ref.id).isNone := by
  cases hl : links.get? m.ref.id <;> simp [failsIn, hl, h]

theorem waitingLabel?_eq_some {ref : LabelRef} :
    m.waitingLabel? links = some ref ↔
      m.role = .value ∧ m.ref = .label ref ∧ links.get? m.ref.id = none := by
  obtain ⟨statement, r, role⟩ := m
  cases role <;> cases r <;> simp [waitingLabel?, failsIn_of_ne_delete, and_comm]

theorem waitingPath?_eq_some {ref : PathRef} :
    m.waitingPath? links = some ref ↔
      m.role = .value ∧ m.ref = .path ref ∧ links.get? m.ref.id = none := by
  obtain ⟨statement, r, role⟩ := m
  cases role <;> cases r <;> simp [waitingPath?, failsIn_of_ne_delete, and_comm]

theorem id_of_waitingLabel? {ref : LabelRef} (h : m.waitingLabel? links = some ref) :
    m.ref.id = ref.id := by
  rw [(waitingLabel?_eq_some.mp h).2.1]
  rfl

theorem id_of_waitingPath? {ref : PathRef} (h : m.waitingPath? links = some ref) :
    m.ref.id = ref.id := by
  rw [(waitingPath?_eq_some.mp h).2.1]
  rfl

end Mention

namespace Ledger

open Mention

/-- The ledger of some references under some links. -/
def tally (links : Table AstId NodeId) (ms : List Mention) : Ledger where
  links := links
  pendingLabels := ms.filterMap (waitingLabel? links)
  pendingPaths := ms.filterMap (waitingPath? links)
  referenceBlocks := statements links .block false ms
  unlinkedReferenceBlocks := statements links .block true ms
  globalDeletes := statements links .delete false ms
  unlinkedDeletes := statements links .delete true ms
  unresolved := (ms.filter fun m => m.role ≠ .value && m.failsIn links).map (·.ref.unresolved)

variable {links links' : Table AstId NodeId} {ms : List Mention} {o : Outline} {l : Ledger}

/-- What is listed of blocks and deletes depends on the links of their references alone. -/
theorem tally_relink
    (h : ∀ m ∈ ms, m.role ≠ .value → links'.get? m.ref.id = links.get? m.ref.id) :
    tally links' ms =
      { tally links ms with
        links := links'
        pendingLabels := ms.filterMap (waitingLabel? links')
        pendingPaths := ms.filterMap (waitingPath? links') } := by
  have hstatements : ∀ (role : Role) (fails : Bool), role ≠ .value →
      statements links' role fails ms = statements links role fails ms := by
    intro role fails hv
    refine congrArg (List.map _) (List.filter_congr fun m hm => ?_)
    by_cases hr : m.role = role
    · rw [failsIn_congr (h m hm (hr ▸ hv))]
    · simp [hr]
  have hunresolved : (ms.filter fun m => m.role ≠ .value && m.failsIn links') =
      ms.filter fun m => m.role ≠ .value && m.failsIn links := by
    refine List.filter_congr fun m hm => ?_
    by_cases hr : m.role = .value
    · simp [hr]
    · rw [failsIn_congr (h m hm hr)]
  simp only [tally, hunresolved, hstatements .block _ (by decide),
    hstatements .delete _ (by decide)]

theorem tally_congr (h : ∀ m ∈ ms, links'.get? m.ref.id = links.get? m.ref.id) :
    tally links' ms = { tally links ms with links := links' } := by
  have hlabels : ms.filterMap (waitingLabel? links') = ms.filterMap (waitingLabel? links) := by
    refine List.filterMap_congr fun m hm => ?_
    ext ref
    rw [waitingLabel?_eq_some, waitingLabel?_eq_some, h m hm]
  have hpaths : ms.filterMap (waitingPath? links') = ms.filterMap (waitingPath? links) := by
    refine List.filterMap_congr fun m hm => ?_
    ext ref
    rw [waitingPath?_eq_some, waitingPath?_eq_some, h m hm]
  rw [tally_relink fun m hm _ => h m hm, hlabels, hpaths]
  rfl

/-- One reference more is listed by its outcome. -/
theorem tally_append (links : Table AstId NodeId) (ms : List Mention) (m : Mention) :
    tally links (ms ++ [m]) =
      if m.failsIn links then (tally links ms).miss m else (tally links ms).serve m := by
  obtain ⟨statement, ref, role⟩ := m
  cases role with
  | value =>
      cases ref <;> split <;>
        simp_all [tally, statements, miss, serve, await, waitingLabel?, waitingPath?]
  | block =>
      split <;>
        simp_all [tally, statements, miss, serve, report, waitingLabel?, waitingPath?]
  | delete =>
      split <;>
        simp_all [tally, statements, miss, serve, report, waitingLabel?, waitingPath?]

/-- The same in the end, when references that waited are reported. -/
def settled (links : Table AstId NodeId) (ms : List Mention) : Ledger :=
  { tally links ms with
    pendingLabels := []
    pendingPaths := []
    unresolved := (tally links ms).unresolved ++
      (tally links ms).pendingPaths.map (fun path => (Reference.path path).unresolved) ++
      (tally links ms).pendingLabels.map fun ref => (Reference.label ref).unresolved }

/-- A ledger lists the references met so far by its links, and has links for no others. -/
structure Balanced (ms : List Mention) (l : Ledger) : Prop where
  eq_tally : l = tally l.links ms
  key : ∀ id, l.links.get? id ≠ none → id ∈ ms.map (·.ref.id)

namespace Balanced

theorem start : start.Balanced [] where
  eq_tally := rfl
  key := fun _ h => absurd rfl h

theorem get?_attach_ne {ref : Reference} {id : AstId} (h : id ≠ ref.id) :
    (l.attach o ref).links.get? id = l.links.get? id := by
  unfold attach
  cases o.target? ref with
  | none => rfl
  | some node => exact (Table.get?_insert _ _ _ _).trans (if_neg h.symm)

theorem attach_eq (o : Outline) (l : Ledger) (ref : Reference) :
    l.attach o ref = { l with links := (l.attach o ref).links } := by
  unfold attach
  cases o.target? ref <;> rfl

/-- Once a reference was tried, its link tells whether it was of use. -/
theorem failsIn_attach (hs : o.Sound) (hr : o.Rooted) {m : Mention}
    (h : l.links.get? m.ref.id = none) :
    m.failsIn (l.attach o m.ref).links = !o.serves m := by
  unfold attach Outline.serves failsIn
  cases ht : o.target? m.ref with
  | none => simp [h]
  | some node =>
      have hparent := hs.tree.parent_eq_none (hr.of_target? hs ht)
      have hroot : (o.tree.node node).parent.isSome = !decide (node = Tree.root) := by
        simp only [← hparent]
        cases (o.tree.node node).parent <;> rfl
      simp only [Option.elim_some, link, Table.get?_insert, if_true, Option.any_some, hroot]
      simp

theorem meet (h : l.Balanced ms) (hs : o.Sound) (hr : o.Rooted) {m : Mention}
    (hm : m.ref.id ∉ ms.map (·.ref.id)) : (l.meet o m).Balanced (ms ++ [m]) := by
  have hnone : l.links.get? m.ref.id = none := by
    by_contra hl
    exact hm (h.key _ hl)
  have hother : ∀ m' ∈ ms, (l.attach o m.ref).links.get? m'.ref.id = l.links.get? m'.ref.id := by
    intro m' hm'
    apply get?_attach_ne
    intro heq
    exact hm (heq ▸ List.mem_map_of_mem hm')
  have hattach : l.attach o m.ref = tally (l.attach o m.ref).links ms := by
    rw [tally_congr hother, ← h.eq_tally, ← attach_eq]
  constructor
  · rw [links_meet, tally_append, ← hattach, failsIn_attach hs hr hnone, Ledger.meet]
    cases o.serves m <;> rfl
  · intro id hid
    rw [links_meet] at hid
    rw [List.map_append, List.mem_append]
    by_cases heq : id = m.ref.id
    · exact .inr (List.mem_singleton.mpr heq)
    · exact .inl (h.key id (get?_attach_ne heq ▸ hid))

/-! ### Binding a label -/

theorem pendingLabels_eq (h : l.Balanced ms) :
    l.pendingLabels = ms.filterMap (waitingLabel? l.links) :=
  congrArg pendingLabels h.eq_tally

theorem pendingPaths_eq (h : l.Balanced ms) :
    l.pendingPaths = ms.filterMap (waitingPath? l.links) :=
  congrArg pendingPaths h.eq_tally

theorem nodup_pendingLabels (h : l.Balanced ms) (hn : (ms.map (·.ref.id)).Nodup) :
    (l.pendingLabels.map (·.id)).Nodup := by
  rw [h.pendingLabels_eq]
  exact (map_filterMap_sublist id_of_waitingLabel? ms).nodup hn

theorem nodup_pendingPaths (h : l.Balanced ms) (hn : (ms.map (·.ref.id)).Nodup) :
    (l.pendingPaths.map (·.id)).Nodup := by
  rw [h.pendingPaths_eq]
  exact (map_filterMap_sublist id_of_waitingPath? ms).nodup hn

section Bind

variable (h : l.Balanced ms) (hn : (ms.map (·.ref.id)).Nodup) (b : String × NodeId)
include h hn

/-- With distinct numbers, binding a label gives links to what waited for it and to nothing
else. -/
theorem get?_bind {m : Mention} (hm : m ∈ ms) :
    (l.bind b).links.get? m.ref.id =
      if ∃ ref, m.waitingLabel? l.links = some ref ∧ ref.label = b.1 then some b.2
      else l.links.get? m.ref.id := by
  rw [Ledger.bind, Table.get?_insertAll_const]
  refine if_congr ?_ rfl rfl
  simp only [List.mem_map, List.mem_filter, h.pendingLabels_eq, List.mem_filterMap,
    decide_eq_true_eq]
  constructor
  · rintro ⟨ref, ⟨⟨m', hm', hw⟩, hl⟩, hid⟩
    obtain rfl : m' = m :=
      List.inj_on_of_nodup_map hn hm' hm ((id_of_waitingLabel? hw).trans hid)
    exact ⟨ref, hw, hl⟩
  · rintro ⟨ref, hw, hl⟩
    exact ⟨ref, ⟨⟨m, hm, hw⟩, hl⟩, (id_of_waitingLabel? hw).symm⟩

/-- Those that waited for the label no longer do, and the others still do. -/
theorem waitingLabel?_bind {m : Mention} (hm : m ∈ ms) :
    (m.waitingLabel? l.links).filter (·.label ≠ b.1) = m.waitingLabel? (l.bind b).links := by
  ext ref
  have hafter : m.waitingLabel? (l.bind b).links = some ref ↔ _ := waitingLabel?_eq_some
  rw [Option.filter_eq_some_iff, hafter, h.get?_bind hn b hm]
  constructor
  · rintro ⟨hw, hl⟩
    obtain ⟨hv, href, hnone⟩ := waitingLabel?_eq_some.mp hw
    refine ⟨hv, href, ?_⟩
    rw [if_neg, hnone]
    rintro ⟨ref', hw', hl'⟩
    cases hw.symm.trans hw'
    exact of_decide_eq_true hl hl'
  · rintro ⟨hv, href, hnone⟩
    split at hnone
    · cases hnone
    · rename_i hno
      have hw : m.waitingLabel? l.links = some ref := waitingLabel?_eq_some.mpr ⟨hv, href, hnone⟩
      exact ⟨hw, decide_eq_true fun hl => hno ⟨ref, hw, hl⟩⟩

theorem waitingPath?_bind {m : Mention} (hm : m ∈ ms) :
    m.waitingPath? l.links = m.waitingPath? (l.bind b).links := by
  ext ref
  rw [waitingPath?_eq_some, waitingPath?_eq_some]
  refine and_congr_right fun _ => and_congr_right fun href => ?_
  rw [h.get?_bind hn b hm, if_neg]
  rintro ⟨ref', hw, -⟩
  cases href.symm.trans (waitingLabel?_eq_some.mp hw).2.1

theorem bind : (l.bind b).Balanced ms := by
  have hsites : ∀ m ∈ ms, m.role ≠ .value →
      (l.bind b).links.get? m.ref.id = l.links.get? m.ref.id := by
    intro m hm hv
    rw [h.get?_bind hn b hm, if_neg]
    rintro ⟨ref, hw, -⟩
    exact hv (waitingLabel?_eq_some.mp hw).1
  have hlabels : (ms.filterMap (waitingLabel? l.links)).filter (·.label ≠ b.1) =
      ms.filterMap (waitingLabel? (l.bind b).links) := by
    rw [List.filter_filterMap]
    exact List.filterMap_congr fun m hm => h.waitingLabel?_bind hn b hm
  have hpaths : ms.filterMap (waitingPath? l.links) =
      ms.filterMap (waitingPath? (l.bind b).links) :=
    List.filterMap_congr fun m hm => h.waitingPath?_bind hn b hm
  constructor
  · rw [tally_relink hsites, ← hlabels, ← hpaths]
    -- The ledger stands on both sides of its own equation, so it is rewritten through a variable.
    have hbind : ∀ t, l = t → l.bind b =
        { t with
          links := (l.bind b).links
          pendingLabels := t.pendingLabels.filter (·.label ≠ b.1) } := by
      rintro t rfl
      rfl
    exact hbind _ h.eq_tally
  · intro id hid
    by_contra hno
    apply hid
    rw [Ledger.bind, Table.get?_insertAll_const, if_neg]
    · by_contra hl
      exact hno (h.key id hl)
    · intro hw
      obtain ⟨ref, href, rfl⟩ := List.mem_map.mp hw
      rw [h.pendingLabels_eq] at href
      obtain ⟨m, hm, hw⟩ := List.mem_filterMap.mp (List.mem_of_mem_filter href)
      exact hno (id_of_waitingLabel? hw ▸ List.mem_map_of_mem hm)

end Bind

/-! ### What a pass leaves -/

/-- A reference that is met for the first time has no link. -/
theorem fresh (h : l.Balanced ms) {met : List Mention}
    (hn : ((ms ++ met).map (·.ref.id)).Nodup) {m : Mention} (hm : m ∈ met) :
    l.links.get? m.ref.id = none := by
  by_contra hl
  rw [List.map_append] at hn
  exact List.disjoint_of_nodup_append hn (h.key _ hl) (List.mem_map_of_mem hm)

theorem meets (h : l.Balanced ms) (hs : o.Sound) (hr : o.Rooted) {met : List Mention}
    (hn : ((ms ++ met).map (·.ref.id)).Nodup) :
    (met.foldl (Ledger.meet o) l).Balanced (ms ++ met) := by
  induction met generalizing ms l with
  | nil => rwa [List.append_nil]
  | cons m met ih =>
      have hm : m.ref.id ∉ ms.map (·.ref.id) := by
        rw [List.map_append, List.map_cons] at hn
        intro hmem
        exact List.disjoint_of_nodup_append hn hmem List.mem_cons_self
      rw [← List.singleton_append, ← List.append_assoc] at hn ⊢
      exact ih (h.meet hs hr hm) hn

theorem binds (h : l.Balanced ms) (hn : (ms.map (·.ref.id)).Nodup)
    (bs : List (String × NodeId)) : (bs.foldl Ledger.bind l).Balanced ms := by
  induction bs generalizing l with
  | nil => exact h
  | cons b bs ih => exact ih (h.bind hn b)

theorem step (h : l.Balanced ms) (hs : o.Sound) (hr : o.Rooted) {a : Action}
    (hn : ((ms ++ a.mentions).map (·.ref.id)).Nodup) :
    (l.step o a).Balanced (ms ++ a.mentions) :=
  (h.meets hs hr hn).binds hn (o.bound a)

theorem run (h : l.Balanced ms) (hs : o.Sound) (hr : o.Rooted) {as : List Action}
    (hn : ((ms ++ as.flatMap Action.mentions).map (·.ref.id)).Nodup) :
    (l.run o as).Balanced (ms ++ as.flatMap Action.mentions) := by
  induction as generalizing o l ms with
  | nil =>
      rw [List.flatMap_nil, List.append_nil]
      exact h
  | cons a as ih =>
      rw [List.flatMap_cons, ← List.append_assoc] at hn ⊢
      have hfirst : ((ms ++ a.mentions).map (·.ref.id)).Nodup := by
        rw [List.map_append] at hn
        exact hn.of_append_left
      exact ih (h.step hs hr hfirst) (hs.step a) (hr.step hs a) hn

/-! ### The reference of a block or a delete -/

theorem get?_meets {met : List Mention} {id : AstId} (h : id ∉ met.map (·.ref.id)) :
    (met.foldl (Ledger.meet o) l).links.get? id = l.links.get? id := by
  induction met generalizing l with
  | nil => rfl
  | cons m met ih =>
      rw [List.map_cons, List.mem_cons, not_or] at h
      rw [List.foldl_cons, ih h.2, links_meet, get?_attach_ne h.1]

section Site

variable {m : Mention} (hv : m.role ≠ .value)
include hv

theorem get?_binds (h : l.Balanced ms) (hn : (ms.map (·.ref.id)).Nodup) (hm : m ∈ ms)
    (bs : List (String × NodeId)) :
    (bs.foldl Ledger.bind l).links.get? m.ref.id = l.links.get? m.ref.id := by
  induction bs generalizing l with
  | nil => rfl
  | cons b bs ih =>
      rw [List.foldl_cons, ih (h.bind hn b), h.get?_bind hn b hm, if_neg]
      rintro ⟨ref, hw, -⟩
      exact hv (waitingLabel?_eq_some.mp hw).1

/-- Such a reference is linked to what it names when it is met. -/
theorem get?_step_met (h : l.Balanced ms) (hs : o.Sound) (hr : o.Rooted) {a : Action}
    (hn : ((ms ++ a.mentions).map (·.ref.id)).Nodup) (ha : a.mentions = [m]) :
    (l.step o a).links.get? m.ref.id = o.target? m.ref := by
  have hmet : m ∈ a.mentions := ha ▸ List.mem_cons_self
  have hnew : l.links.get? m.ref.id = none := h.fresh hn hmet
  rw [Ledger.step, get?_binds hv (h.meets hs hr hn) hn (List.mem_append_right _ hmet), ha,
    List.foldl_cons, List.foldl_nil, links_meet, attach]
  cases o.target? m.ref with
  | none => exact hnew
  | some node => exact (Table.get?_insert ..).trans (if_pos rfl)

/-- Later actions do not touch its link. -/
theorem get?_run (h : l.Balanced ms) (hs : o.Sound) (hr : o.Rooted) {as : List Action}
    (hn : ((ms ++ as.flatMap Action.mentions).map (·.ref.id)).Nodup) (hm : m ∈ ms) :
    (l.run o as).links.get? m.ref.id = l.links.get? m.ref.id := by
  induction as generalizing o l ms with
  | nil => rfl
  | cons a as ih =>
      rw [List.flatMap_cons, ← List.append_assoc] at hn
      have hfirst : ((ms ++ a.mentions).map (·.ref.id)).Nodup := by
        rw [List.map_append] at hn
        exact hn.of_append_left
      have hother : m.ref.id ∉ a.mentions.map (·.ref.id) := by
        rw [List.map_append] at hfirst
        exact List.disjoint_of_nodup_append hfirst (List.mem_map_of_mem hm)
      rw [Ledger.run, ih (h.step hs hr hfirst) (hs.step a) (hr.step hs a) hn
        (List.mem_append_left _ hm), Ledger.step, get?_binds hv (h.meets hs hr hfirst) hfirst
        (List.mem_append_left _ hm), get?_meets hother]

end Site

/-! ### The end of a pass -/

theorem links_retryAll_of_not_mem {reportUnresolved : Bool} {id : AstId}
    (h : ∀ path ∈ l.pendingPaths, path.id ≠ id) :
    (l.retryAll o reportUnresolved).links.get? id = l.links.get? id := by
  have hfold : ∀ (paths : List PathRef) (l : Ledger), (∀ path ∈ paths, path.id ≠ id) →
      (paths.foldl (retry o reportUnresolved) l).links.get? id = l.links.get? id := by
    intro paths
    induction paths with
    | nil => exact fun _ _ => rfl
    | cons path paths ih =>
        intro l h
        rw [List.foldl_cons, ih _ fun p hp => h p (List.mem_cons_of_mem _ hp), links_retry]
        exact get?_attach_ne (h path List.mem_cons_self).symm
  exact hfold _ _ h

theorem retryAll_true (o : Outline) (l : Ledger) :
    l.retryAll o true =
      { l with
        links := (l.retryAll o true).links
        pendingPaths := []
        unresolved := l.unresolved ++
          (l.pendingPaths.filter fun path => (o.target? (.path path)).isNone).map
            fun path => (Reference.path path).unresolved } := by
  have hfold : ∀ (paths : List PathRef) (l : Ledger), paths.foldl (retry o true) l =
      { l with
        links := (paths.foldl (retry o true) l).links
        unresolved := l.unresolved ++
          (paths.filter fun path => (o.target? (.path path)).isNone).map
            fun path => (Reference.path path).unresolved } := by
    intro paths
    induction paths with
    | nil => simp
    | cons path paths ih =>
        intro l
        rw [List.foldl_cons, ih]
        cases ht : o.target? (.path path) <;> simp [retry, ht, link, report]
  exact hfold _ _

theorem close_true (l : Ledger) :
    l.close true =
      { l with
        pendingLabels := []
        unresolved := l.unresolved ++
          l.pendingLabels.map fun ref => (Reference.label ref).unresolved } := by
  have hfold : ∀ (refs : List LabelRef) (l : Ledger),
      refs.foldl (fun l ref => l.report (.label ref)) l =
        { l with
          unresolved := l.unresolved ++ refs.map fun ref => (Reference.label ref).unresolved } := by
    intro refs
    induction refs with
    | nil => simp
    | cons ref refs ih =>
        intro l
        rw [List.foldl_cons, ih]
        simp [report]
  exact hfold _ _

section RetryAll

variable (h : l.Balanced ms) (hn : (ms.map (·.ref.id)).Nodup) (o : Outline)
include h hn

/-- With distinct numbers, a path that is tried belongs to the one reference that waits. -/
theorem waitingPath?_of_mem {path : PathRef} (hp : path ∈ l.pendingPaths) {m : Mention}
    (hm : m ∈ ms) (hid : path.id = m.ref.id) : m.waitingPath? l.links = some path := by
  rw [h.pendingPaths_eq] at hp
  obtain ⟨m', hm', hw⟩ := List.mem_filterMap.mp hp
  obtain rfl : m' = m := List.inj_on_of_nodup_map hn hm' hm ((id_of_waitingPath? hw).trans hid)
  exact hw

theorem get?_retryAll {m : Mention} (hm : m ∈ ms)
    (hno : ∀ path, m.waitingPath? l.links ≠ some path) :
    (l.retryAll o true).links.get? m.ref.id = l.links.get? m.ref.id := by
  apply links_retryAll_of_not_mem
  intro path hp hid
  exact hno path (h.waitingPath?_of_mem hn hp hm hid)

theorem waitingLabel?_retryAll {m : Mention} (hm : m ∈ ms) :
    m.waitingLabel? l.links = m.waitingLabel? (l.retryAll o true).links := by
  ext ref
  rw [waitingLabel?_eq_some, waitingLabel?_eq_some]
  refine and_congr_right fun _ => and_congr_right fun href => ?_
  rw [h.get?_retryAll hn o hm]
  intro path hw
  cases href.symm.trans (waitingPath?_eq_some.mp hw).2.1

/-- The paths that still lead nowhere are those that are left without a link. -/
theorem waitingPath?_retryAll {m : Mention} (hm : m ∈ ms) :
    ((m.waitingPath? l.links).filter fun path => (o.target? (.path path)).isNone) =
      m.waitingPath? (l.retryAll o true).links := by
  ext path
  have hafter : m.waitingPath? (l.retryAll o true).links = some path ↔ _ := waitingPath?_eq_some
  rw [Option.filter_eq_some_iff, Option.isNone_iff_eq_none, hafter, get?_retryAll_eq_none]
  constructor
  · rintro ⟨hw, ht⟩
    obtain ⟨hv, href, hnone⟩ := waitingPath?_eq_some.mp hw
    refine ⟨hv, href, hnone, fun path' hp hid => ?_⟩
    cases hw.symm.trans (h.waitingPath?_of_mem hn hp hm hid)
    exact ht
  · rintro ⟨hv, href, hnone, ht⟩
    have hw : m.waitingPath? l.links = some path := waitingPath?_eq_some.mpr ⟨hv, href, hnone⟩
    refine ⟨hw, ht path ?_ (id_of_waitingPath? hw).symm⟩
    rw [h.pendingPaths_eq]
    exact List.mem_filterMap.mpr ⟨m, hm, hw⟩

/-- Trying the paths once more leaves a tally of the links then made. -/
theorem retryAll :
    l.retryAll o true =
      { tally (l.retryAll o true).links ms with
        pendingPaths := []
        unresolved := (tally (l.retryAll o true).links ms).unresolved ++
          (ms.filterMap (waitingPath? (l.retryAll o true).links)).map
            fun path => (Reference.path path).unresolved } := by
  have hsites : ∀ m ∈ ms, m.role ≠ .value →
      (l.retryAll o true).links.get? m.ref.id = l.links.get? m.ref.id := by
    intro m hm hv
    exact h.get?_retryAll hn o hm fun path hw => hv (waitingPath?_eq_some.mp hw).1
  have hlabels : ms.filterMap (waitingLabel? l.links) =
      ms.filterMap (waitingLabel? (l.retryAll o true).links) :=
    List.filterMap_congr fun m hm => h.waitingLabel?_retryAll hn o hm
  have hpaths : (ms.filterMap (waitingPath? l.links)).filter
        (fun path => (o.target? (.path path)).isNone) =
      ms.filterMap (waitingPath? (l.retryAll o true).links) := by
    rw [List.filter_filterMap]
    exact List.filterMap_congr fun m hm => h.waitingPath?_retryAll hn o hm
  have hall : ∀ t, l = t → l.retryAll o true =
      { t with
        links := (l.retryAll o true).links
        pendingPaths := []
        unresolved := t.unresolved ++
          (t.pendingPaths.filter fun path => (o.target? (.path path)).isNone).map
            fun path => (Reference.path path).unresolved } := by
    rintro t rfl
    exact retryAll_true o l
  rw [tally_relink hsites, ← hlabels, ← hpaths]
  exact hall _ h.eq_tally

/-- In the end what waited is reported. -/
theorem close :
    (l.retryAll o true).close true = settled ((l.retryAll o true).close true).links ms := by
  have hretry := h.retryAll hn o
  rw [links_close, close_true]
  generalize l.retryAll o true = r at hretry ⊢
  exact congrArg (fun t => { t with
    pendingLabels := []
    unresolved := t.unresolved ++
      t.pendingLabels.map fun ref => (Reference.label ref).unresolved }) hretry

end RetryAll

/-- Only references of values wait, and none that has a link. -/
theorem exists_of_waits (h : l.Balanced ms) {ref : Reference} (hw : l.Waits ref) :
    ∃ m ∈ ms, m.role = .value ∧ m.ref = ref ∧ l.links.get? m.ref.id = none := by
  rw [h.eq_tally] at hw
  cases ref with
  | label ref =>
      obtain ⟨m, hm, hw⟩ := List.mem_filterMap.mp hw
      exact ⟨m, hm, waitingLabel?_eq_some.mp hw⟩
  | path ref =>
      obtain ⟨m, hm, hw⟩ := List.mem_filterMap.mp hw
      exact ⟨m, hm, waitingPath?_eq_some.mp hw⟩

/-- No reference of a value is reported before the end. -/
theorem exists_of_unresolved (h : l.Balanced ms) {i : Issue} (hi : i ∈ l.unresolved) :
    ∃ m ∈ ms, m.role ≠ .value ∧ i = m.ref.unresolved := by
  rw [h.eq_tally] at hi
  obtain ⟨m, hm, he⟩ := List.mem_map.mp hi
  obtain ⟨hm, hf⟩ := List.mem_filter.mp hm
  rw [Bool.and_eq_true, decide_eq_true_eq] at hf
  exact ⟨m, hm, hf.1, he.symm⟩

end Balanced

/-- What is reported at once and what is reported in the end is all that fails. -/
theorem unresolved_perm (links : Table AstId NodeId) (ms : List Mention) :
    (settled links ms).unresolved.Perm
      ((ms.filter (·.failsIn links)).map (·.ref.unresolved)) := by
  simp only [settled]
  induction ms with
  | nil => exact .refl _
  | cons m ms ih =>
      obtain ⟨statement, ref, role⟩ := m
      cases hf : Mention.failsIn links ⟨statement, ref, role⟩ with
      | false =>
          have hpath : waitingPath? links ⟨statement, ref, role⟩ = none := by
            cases role <;> cases ref <;> simp [waitingPath?, hf]
          have hlabel : waitingLabel? links ⟨statement, ref, role⟩ = none := by
            cases role <;> cases ref <;> simp [waitingLabel?, hf]
          simpa [tally, hf, hpath, hlabel] using ih
      | true =>
          simp only [tally, List.filter_cons, hf, Bool.and_true] at ih ⊢
          cases role with
          | block => exact ih.cons _
          | delete => exact ih.cons _
          | value =>
              cases ref with
              | path path =>
                  have hw : waitingPath? links ⟨statement, .path path, .value⟩ = some path := by
                    simp [waitingPath?, hf]
                  rw [List.filterMap_cons_some hw]
                  exact (List.perm_middle.append_right _).trans (ih.cons _)
              | label ref =>
                  have hw : waitingLabel? links ⟨statement, .label ref, .value⟩ = some ref := by
                    simp [waitingLabel?, hf]
                  rw [List.filterMap_cons_some hw]
                  exact List.perm_middle.trans (ih.cons _)

end Ledger

namespace Linkage

section Distinct

variable {files : List SourceFile} (hn : ((mentionsOf files).map (·.ref.id)).Nodup)
include hn

theorem nodup_actionsOf : (((actionsOf files).flatMap Action.mentions).map (·.ref.id)).Nodup :=
  ((mentionsOf_perm files).map _).nodup_iff.mpr hn

theorem balanced_ledgerOf :
    (ledgerOf files).Balanced ((actionsOf files).flatMap Action.mentions) :=
  Ledger.Balanced.start.run .start Outline.rooted_start (nodup_actionsOf hn)

/-- In the end the ledger is that of all references under the links then made. -/
theorem closingOf_eq_settled :
    closingOf files true = Ledger.settled (closingOf files true).links
      ((actionsOf files).flatMap Action.mentions) :=
  (balanced_ledgerOf hn).close (nodup_actionsOf hn) (outlineOf files)

/-- The reference of a block or a delete is linked to what it names when that has its turn, and
to nothing if it names nothing then. -/
theorem links_of_site {reportUnresolved : Bool} {as bs : List Action} {a : Action} {m : Mention}
    (hsplit : actionsOf files = as ++ a :: bs) (ha : a.mentions = [m]) (hv : m.role ≠ .value) :
    (closingOf files reportUnresolved).links.get? m.ref.id =
      (Outline.start.run as).target? m.ref := by
  have hall := nodup_actionsOf hn
  have hbalanced := balanced_ledgerOf hn
  have hmem : m ∈ (actionsOf files).flatMap Action.mentions := by
    rw [hsplit, List.flatMap_append, List.flatMap_cons, ha]
    simp
  have hretry : ∀ path ∈ (ledgerOf files).pendingPaths, path.id ≠ m.ref.id := by
    intro path hp hid
    exact hv (Mention.waitingPath?_eq_some.mp
      (hbalanced.waitingPath?_of_mem hall hp hmem hid)).1
  rw [closingOf, Ledger.links_close, Ledger.Balanced.links_retryAll_of_not_mem hretry, ledgerOf,
    hsplit, Ledger.run_append]
  rw [hsplit, List.flatMap_append, List.flatMap_cons, ← List.append_assoc] at hall
  have hsound : (Outline.start.run as).Sound := Outline.Sound.start.run as
  have hrooted : (Outline.start.run as).Rooted := Outline.rooted_start.run .start as
  have hfront : ((as.flatMap Action.mentions ++ a.mentions).map (·.ref.id)).Nodup := by
    rw [List.map_append] at hall
    exact hall.of_append_left
  have hbefore : (Ledger.start.run .start as).Balanced (as.flatMap Action.mentions) := by
    refine Ledger.Balanced.start.run .start Outline.rooted_start ?_
    rw [List.map_append] at hfront
    exact hfront.of_append_left
  rw [Ledger.run, Ledger.Balanced.get?_run hv (hbefore.step hsound hrooted hfront)
    (hsound.step a) (hrooted.step hsound a) hall (by simp [ha]),
    hbefore.get?_step_met hv hsound hrooted hfront ha]

end Distinct

end Linkage

end Devicetree
