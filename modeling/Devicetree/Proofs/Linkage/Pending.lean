import Devicetree.Linkage.Query
import Devicetree.Proofs.Linkage.Ledger
import Devicetree.Proofs.Overlay.View

/-!
# No reference waits in vain

A reference of a value that names no node is kept until the label it names is bound, or until
the end. The main result is that this is never for lack of attention: no reference waits for a
label that is bound, and one that is left without a target has none in the end.
-/

namespace Devicetree

namespace Ledger

variable {o : Outline} {l : Ledger}

/-- Whether a reference is kept for later. -/
def Waits (l : Ledger) : Reference → Prop
  | .label ref => ref ∈ l.pendingLabels
  | .path ref => ref ∈ l.pendingPaths

@[simp] theorem links_serve (l : Ledger) (m : Mention) : (l.serve m).links = l.links := by
  obtain ⟨statement, ref, role⟩ := m
  cases role <;> rfl

@[simp] theorem links_miss (l : Ledger) (m : Mention) : (l.miss m).links = l.links := by
  obtain ⟨statement, ref, role⟩ := m
  cases role with
  | value => cases ref <;> rfl
  | block => rfl
  | delete => rfl

theorem waits_serve (l : Ledger) (m : Mention) (ref : Reference) :
    (l.serve m).Waits ref ↔ l.Waits ref := by
  obtain ⟨statement, r, role⟩ := m
  cases ref <;> cases role <;> exact Iff.rfl

/-- Only the reference of a value is kept when it is missed. -/
theorem waits_miss (l : Ledger) (m : Mention) (ref : Reference) :
    (l.miss m).Waits ref ↔ l.Waits ref ∨ m.role = .value ∧ m.ref = ref := by
  obtain ⟨statement, r, role⟩ := m
  cases role with
  | value => cases ref <;> cases r <;> simp [Waits, miss, await, eq_comm]
  | block => cases ref <;> simp [Waits, miss, report]
  | delete => cases ref <;> simp [Waits, miss, report]

theorem waits_attach (o : Outline) (l : Ledger) (r ref : Reference) :
    (l.attach o r).Waits ref ↔ l.Waits ref := by
  unfold attach
  cases o.target? r <;> cases ref <;> exact Iff.rfl

theorem serves_value (o : Outline) {m : Mention} (h : m.role = .value) :
    o.serves m = (o.target? m.ref).isSome := by
  simp [Outline.serves, h, Option.any_true]

/-- A reference is kept when it is one of a value and names no node. -/
theorem waits_meet (o : Outline) (l : Ledger) (m : Mention) (ref : Reference) :
    (l.meet o m).Waits ref ↔
      l.Waits ref ∨ m.role = .value ∧ m.ref = ref ∧ o.target? ref = none := by
  unfold meet
  split
  · rename_i hs
    rw [waits_serve, waits_attach, iff_self_or]
    rintro ⟨hv, rfl, ht⟩
    simp [serves_value o hv, ht] at hs
  · rename_i hs
    rw [waits_miss, waits_attach]
    refine or_congr_right ⟨?_, fun h => ⟨h.1, h.2.1⟩⟩
    rintro ⟨hv, rfl⟩
    exact ⟨hv, rfl, by simpa [serves_value o hv] using hs⟩

/-- A bound label is not waited for any more. -/
theorem waits_bind (l : Ledger) (b : String × NodeId) (ref : Reference) :
    (l.bind b).Waits ref ↔ l.Waits ref ∧ ∀ r, ref = .label r → r.label ≠ b.1 := by
  cases ref with
  | label r => simp [Waits, bind]
  | path r => simp [Waits, bind]

theorem waits_binds {bs : List (String × NodeId)} {l : Ledger} {ref : Reference} :
    (bs.foldl bind l).Waits ref ↔
      l.Waits ref ∧ ∀ r, ref = .label r → ∀ b ∈ bs, r.label ≠ b.1 := by
  induction bs generalizing l with
  | nil => simp
  | cons b bs ih =>
      rw [List.foldl_cons, ih, waits_bind, and_assoc]
      simp only [List.forall_mem_cons, forall_and]

/-! ### Labels waited for are unbound -/

/-- No reference waits for a label that is bound. -/
def Unbound (o : Outline) (l : Ledger) : Prop :=
  ∀ ref, l.Waits (.label ref) → o.labels.get? ref.label = none

namespace Unbound

theorem start : Ledger.start.Unbound o :=
  fun _ hw => by cases hw

theorem meet (h : l.Unbound o) (m : Mention) : (l.meet o m).Unbound o := by
  intro ref hw
  rcases (waits_meet o l m _).mp hw with hw | ⟨-, -, ht⟩
  · exact h ref hw
  · exact ht

theorem meets (h : l.Unbound o) (ms : List Mention) : (ms.foldl (Ledger.meet o) l).Unbound o := by
  induction ms generalizing l with
  | nil => exact h
  | cons m ms ih => exact ih (h.meet m)

theorem step (h : l.Unbound o) (hs : o.Sound) (a : Action) :
    (l.step o a).Unbound (o.step a) := by
  intro ref hw
  obtain ⟨hw, hb⟩ := waits_binds.mp hw
  apply Outline.get?_labels_step_none hs (h.meets _ ref hw)
  exact fun b hm => (hb ref rfl b hm).symm

theorem run (h : l.Unbound o) (hs : o.Sound) (as : List Action) :
    (l.run o as).Unbound (o.run as) := by
  induction as generalizing o l with
  | nil => exact h
  | cons a as ih => exact ih (h.step hs a) (hs.step a)

end Unbound

/-! ### What is not linked waits -/

theorem get?_attach_eq_none {ref : Reference} {id : AstId} :
    (l.attach o ref).links.get? id = none ↔
      l.links.get? id = none ∧ (ref.id = id → o.target? ref = none) := by
  unfold attach
  cases o.target? ref with
  | none => simp
  | some node =>
      rw [Option.elim_some, link, Table.get?_insert]
      by_cases hid : ref.id = id <;> simp [hid]

theorem links_meet (o : Outline) (l : Ledger) (m : Mention) :
    (l.meet o m).links = (l.attach o m.ref).links := by
  unfold meet
  split
  · exact links_serve _ m
  · exact links_miss _ m

/-- The references of values met so far are linked, or they wait. -/
def Attended (met : List Mention) (l : Ledger) : Prop :=
  ∀ m ∈ met, m.role = .value → l.links.get? m.ref.id = none → l.Waits m.ref

namespace Attended

variable {met : List Mention}

theorem meet (h : l.Attended met) (o : Outline) (m : Mention) :
    (l.meet o m).Attended (met ++ [m]) := by
  intro m' hm' hv hn
  rw [links_meet] at hn
  obtain ⟨hold, htarget⟩ := get?_attach_eq_none.mp hn
  apply (waits_meet o l m _).mpr
  rcases List.mem_append.mp hm' with hm' | hm'
  · exact .inl (h m' hm' hv hold)
  · obtain rfl := List.mem_singleton.mp hm'
    exact .inr ⟨hv, rfl, htarget rfl⟩

theorem bind (h : l.Attended met) (b : String × NodeId) : (l.bind b).Attended met := by
  intro m hm hv hn
  obtain ⟨hold, hnew⟩ := Table.get?_insertAll_eq_none.mp hn
  have hw := h m hm hv hold
  refine (waits_bind l b m.ref).mpr ⟨hw, fun r hr hl => ?_⟩
  rw [hr] at hw hnew
  exact hnew (r.id, b.2)
    (List.mem_map.mpr ⟨r, List.mem_filter.mpr ⟨hw, by simpa using hl⟩, rfl⟩) rfl

theorem step (h : l.Attended met) (o : Outline) (a : Action) :
    (l.step o a).Attended (met ++ a.mentions) := by
  have hmeets : ∀ (ms : List Mention) {met : List Mention} {l : Ledger}, l.Attended met →
      (ms.foldl (Ledger.meet o) l).Attended (met ++ ms) := by
    intro ms
    induction ms with
    | nil => simp
    | cons m ms ih =>
        intro met l h
        have hstep := ih (h.meet o m)
        rwa [List.append_assoc, List.singleton_append] at hstep
  have hbinds : ∀ (bs : List (String × NodeId)) {met : List Mention} {l : Ledger},
      l.Attended met → (bs.foldl Ledger.bind l).Attended met := by
    intro bs
    induction bs with
    | nil => exact id
    | cons b bs ih => exact fun h => ih (h.bind b)
  exact hbinds _ (hmeets _ h)

theorem run (h : l.Attended met) (o : Outline) (as : List Action) :
    (l.run o as).Attended (met ++ as.flatMap Action.mentions) := by
  induction as generalizing o l met with
  | nil => rwa [List.flatMap_nil, List.append_nil]
  | cons a as ih =>
      have hrun := ih (h.step o a) (o.step a)
      rwa [List.append_assoc, ← List.flatMap_cons] at hrun

end Attended

/-! ### The end of a pass -/

theorem links_retry (o : Outline) (reportUnresolved : Bool) (l : Ledger) (path : PathRef) :
    (l.retry o reportUnresolved path).links = (l.attach o (.path path)).links := by
  unfold retry attach
  cases o.target? (.path path) with
  | some node => rfl
  | none => cases reportUnresolved <;> rfl

/-- A reference stays without a link if it has none and trying its path once more gives none. -/
theorem get?_retryAll_eq_none {reportUnresolved : Bool} {id : AstId} :
    (l.retryAll o reportUnresolved).links.get? id = none ↔
      l.links.get? id = none ∧
        ∀ path ∈ l.pendingPaths, path.id = id → o.target? (.path path) = none := by
  have hfold : ∀ (paths : List PathRef) (l : Ledger),
      (paths.foldl (retry o reportUnresolved) l).links.get? id = none ↔
        l.links.get? id = none ∧
          ∀ path ∈ paths, path.id = id → o.target? (.path path) = none := by
    intro paths
    induction paths with
    | nil => simp
    | cons path paths ih =>
        intro l
        rw [List.foldl_cons, ih, links_retry, get?_attach_eq_none, List.forall_mem_cons, and_assoc]
        rfl
  exact hfold _ _

theorem links_close (l : Ledger) (reportUnresolved : Bool) :
    (l.close reportUnresolved).links = l.links := by
  have hfold : ∀ (refs : List LabelRef) (l : Ledger),
      (refs.foldl (fun l ref => l.report (.label ref)) l).links = l.links := by
    intro refs
    induction refs with
    | nil => exact fun _ => rfl
    | cons ref refs ih => exact fun l => ih (l.report (.label ref))
  cases reportUnresolved with
  | true => exact hfold _ _
  | false => rfl

end Ledger

namespace Linkage

theorem unbound_passAt (files : List SourceFile) (count : Nat) :
    (passAt files count).ledger.Unbound (passAt files count).outline := by
  rw [ledger_passAt, outline_passAt]
  exact Ledger.Unbound.start.run .start _

theorem attended_ledgerOf (files : List SourceFile) :
    (ledgerOf files).Attended (mentionsOf files) := by
  have hstart : Ledger.start.Attended [] := fun _ h => by cases h
  have hrun : (ledgerOf files).Attended ((actionsOf files).flatMap Action.mentions) :=
    hstart.run _ _
  intro m hm
  exact hrun m ((mentionsOf_perm files).mem_iff.mpr hm)

/-- The reference of a value that stays without a link names nothing in the end. -/
theorem target?_of_unlinked {files : List SourceFile} {reportUnresolved : Bool} {m : Mention}
    (hm : m ∈ mentionsOf files) (hv : m.role = .value)
    (h : (closingOf files reportUnresolved).links.get? m.ref.id = none) :
    (outlineOf files).target? m.ref = none := by
  rw [closingOf, Ledger.links_close] at h
  obtain ⟨hold, hretry⟩ := Ledger.get?_retryAll_eq_none.mp h
  have hw := attended_ledgerOf files m hm hv hold
  cases href : m.ref with
  | label ref =>
      rw [href] at hw
      exact (Ledger.Unbound.start.run .start (actionsOf files)) ref hw
  | path ref =>
      rw [href] at hw hretry
      exact hretry ref hw rfl

/-- Between any two actions no reference waits for a label that is bound. So when the reference
of a value is left without a link, its label is not bound in the result, or its path breaks off
somewhere on the way from the root. -/
theorem unlinked_values_have_no_target (files : List SourceFile) (reportUnresolved : Bool)
    (generation : Nat) :
    (∀ count, ∀ ref ∈ (passAt files count).pendingLabels,
      (passAt files count).labels.get? ref.label = none) ∧
    ∀ m ∈ mentionsOf files, m.role = .value →
      (link files reportUnresolved generation).linked? m.ref.id = none →
        (∀ ref, m.ref = .label ref →
          (link files reportUnresolved generation).label? ref.label = none) ∧
        ∀ ref, m.ref = .path ref →
          (link files reportUnresolved generation).tree.reach? Tree.root
            (ref.segments.map (·.value)) = none := by
  refine ⟨fun count => unbound_passAt files count, fun m hm hv hn => ?_⟩
  rw [linked?, link_links] at hn
  have ht := target?_of_unlinked hm hv hn
  constructor
  · intro ref href
    rw [label?, link_labels]
    rwa [href] at ht
  · intro ref href
    rw [href, Outline.target?_path] at ht
    rwa [(Tree.sameShape_bare _).reach?, link_tree_bare]

/-- Three references of which the first waits for the second file, read from
`/{p=<&a &b &{/n/k}>;};`. -/
def waitingFile : SourceFile :=
  .read ⟨0⟩ "/\x7bp=<&a &b &\x7b/n/k\x7d>;\x7d;".toList

/-- The second file, read from `/{a:n{};};`. -/
def bindingFile : SourceFile :=
  .read ⟨1⟩ "/\x7ba:n\x7b\x7d;\x7d;".toList

/-- The two references after the first are left without a link, and name nothing. -/
theorem waitingFile_keeps_two :
    ((mentionsOf [waitingFile, bindingFile]).map fun m =>
      (link [waitingFile, bindingFile] true 0).linked? m.ref.id) = [some ⟨1⟩, none, none] ∧
    ∀ m ∈ (mentionsOf [waitingFile, bindingFile]).drop 1,
      (∀ ref, m.ref = .label ref →
        (link [waitingFile, bindingFile] true 0).label? ref.label = none) ∧
      ∀ ref, m.ref = .path ref →
        (link [waitingFile, bindingFile] true 0).tree.reach? Tree.root
          (ref.segments.map (·.value)) = none := by
  refine ⟨by decide +kernel, fun m hm => ?_⟩
  have hleft : ∀ m ∈ (mentionsOf [waitingFile, bindingFile]).drop 1, m.role = .value ∧
      (link [waitingFile, bindingFile] true 0).linked? m.ref.id = none := by
    decide +kernel
  exact (unlinked_values_have_no_target [waitingFile, bindingFile] true 0).2 m
    (List.mem_of_mem_drop hm) (hleft m hm).1 (hleft m hm).2

end Linkage

end Devicetree
