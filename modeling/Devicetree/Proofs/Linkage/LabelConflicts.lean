import Mathlib.Data.List.Flatten
import Mathlib.Data.List.Perm.Basic
import Devicetree.Proofs.Linkage.Conflicts
import Devicetree.Proofs.Linkage.Provenance

/-!
# Labels with several owners

Every label that a live node or a property in force bears was read at one place, and no two of
them at the same. So the uses of a label, in the order of files and of places in them, are
strictly in order, and each has one owner. There is an issue for a label exactly if its uses have
several owners; it stands at the first use and lists all others.
-/

namespace Devicetree

/-- A span in an earlier file, or earlier in the same file. -/
def Span.Earlier (order : List FileId) (s t : Span) : Prop :=
  order.idxOf s.file < order.idxOf t.file ∨ s.file = t.file ∧ s.start < t.start

theorem Linkage.rankIn?_of_mem {order : List FileId} {file : FileId} (h : file ∈ order) :
    rankIn? order file = some (order.idxOf file) :=
  List.findIdx?_eq_some_iff_findIdx_eq.mpr ⟨List.idxOf_lt_length_iff.mpr h, rfl⟩

namespace LabelUse

variable {order : List FileId} {u v w : LabelUse} {us : List LabelUse} {text : String}

/-! ### The order of uses -/

theorem rankLe_total (a b : Option Nat) : rankLe a b = true ∨ rankLe b a = true := by
  cases a with
  | none => exact .inl rfl
  | some a =>
      cases b with
      | none => exact .inr rfl
      | some b => simpa [rankLe] using Nat.le_total a b

theorem rankLe_trans {a b c : Option Nat} (hab : rankLe a b = true) (hbc : rankLe b c = true) :
    rankLe a c = true := by
  cases a <;> cases b <;> cases c <;> simp_all [rankLe]
  exact Nat.le_trans hab hbc

theorem rankLe_antisymm {a b : Option Nat} (hab : rankLe a b = true) (hba : rankLe b a = true) :
    a = b := by
  cases a <;> cases b <;> simp_all [rankLe]
  exact Nat.le_antisymm hab hba

theorem le_total (order : List FileId) (u v : LabelUse) :
    (le order u v || le order v u) = true := by
  rw [Bool.or_eq_true]
  by_cases h : Linkage.rankIn? order u.span.file = Linkage.rankIn? order v.span.file
  · simpa [le, h] using Nat.le_total u.span.start v.span.start
  · simpa [le, h, Ne.symm h] using rankLe_total _ _

theorem le_trans (huv : le order u v = true) (hvw : le order v w = true) :
    le order u w = true := by
  unfold le at huv hvw ⊢
  generalize Linkage.rankIn? order u.span.file = a at huv ⊢
  generalize Linkage.rankIn? order v.span.file = b at huv hvw
  generalize Linkage.rankIn? order w.span.file = c at hvw ⊢
  by_cases hab : a = b <;> by_cases hbc : b = c
  · subst hab hbc
    simp only [if_true, decide_eq_true_eq] at huv hvw ⊢
    exact Nat.le_trans huv hvw
  · subst hab
    simpa [hbc] using hvw
  · subst hbc
    simpa [hab] using huv
  · simp only [hab, hbc, if_false] at huv hvw
    have hac : a ≠ c := by
      rintro rfl
      exact hab (rankLe_antisymm huv hvw)
    simpa [hac] using rankLe_trans huv hvw

/-- Of two uses in known files that begin at different places one is strictly earlier. -/
theorem earlier_of_le (h : le order u v = true) (hu : u.span.file ∈ order)
    (hv : v.span.file ∈ order) (hne : u.span.site ≠ v.span.site) :
    u.span.Earlier order v.span := by
  rw [le, Linkage.rankIn?_of_mem hu, Linkage.rankIn?_of_mem hv] at h
  by_cases hfile : u.span.file = v.span.file
  · simp only [hfile, if_true, decide_eq_true_eq] at h
    refine .inr ⟨hfile, Nat.lt_of_le_of_ne h fun hstart => hne ?_⟩
    exact Prod.ext hfile hstart
  · have hidx : order.idxOf u.span.file ≠ order.idxOf v.span.file :=
      fun heq => hfile ((List.idxOf_inj hu).mp heq)
    simp only [Option.some_inj, hidx, if_false, rankLe, decide_eq_true_eq] at h
    exact .inl (Nat.lt_of_le_of_ne h hidx)

/-- Uses that begin at different places are strictly in order once they are sorted. -/
theorem earlier_mergeSort (hknown : ∀ u ∈ us, u.span.file ∈ order)
    (hsites : (us.map (·.span.site)).Nodup) :
    ((us.mergeSort (le order)).map (·.span)).Pairwise (Span.Earlier order) := by
  have hperm := List.mergeSort_perm us (le order)
  have hsorted : (us.mergeSort (le order)).Pairwise fun u v => le order u v = true := by
    apply List.pairwise_mergeSort
    · exact fun _ _ _ huv hvw => le_trans huv hvw
    · exact le_total order
  have hne := List.pairwise_map.mp ((hperm.map (·.span.site)).nodup_iff.mpr hsites)
  refine List.pairwise_map.mpr ((hsorted.and hne).imp_of_mem fun hu hv h => ?_)
  exact earlier_of_le h.1 (hknown _ (hperm.mem_iff.mp hu)) (hknown _ (hperm.mem_iff.mp hv)) h.2

/-! ### The issue of a label -/

theorem mem_distinctLabels : text ∈ distinctLabels us ↔ ∃ u ∈ us, u.label = text := by
  induction us with
  | nil => simp [distinctLabels]
  | cons u us ih =>
      by_cases h : u.label = text
      · simp [distinctLabels, h]
      · simp [distinctLabels, h, Ne.symm h, ih]

theorem nodup_distinctLabels (us : List LabelUse) : (distinctLabels us).Nodup := by
  induction us with
  | nil => exact List.nodup_nil
  | cons u us ih => exact List.nodup_cons.mpr ⟨by simp, ih.filter _⟩

theorem subject_of_issue? {i : Issue} (h : issue? text us = some i) : i.subject = text := by
  cases us with
  | nil => cases h
  | cons u us =>
      rw [issue?] at h
      split at h
      · cases h
      · cases h
        rfl

/-- The issues of one label, out of all, are those of its own uses. -/
theorem filter_issues (order : List FileId) (us : List LabelUse) (text : String) :
    (issues order us).filter (·.subject = text) =
      (issue? text ((us.filter (·.label = text)).mergeSort (le order))).toList := by
  have hother : ∀ labels : List String, text ∉ labels →
      (labels.filterMap fun label =>
        issue? label ((us.filter (·.label = label)).mergeSort (le order))).filter
          (·.subject = text) = [] := by
    intro labels hlabels
    refine List.filter_eq_nil_iff.mpr fun i hi => ?_
    obtain ⟨label, hlabel, hissue⟩ := List.mem_filterMap.mp hi
    rw [subject_of_issue? hissue, decide_eq_true_eq]
    exact fun heq => hlabels (heq ▸ hlabel)
  by_cases hmem : text ∈ distinctLabels us
  · obtain ⟨front, back, hsplit⟩ := List.append_of_mem hmem
    have hnodup := nodup_distinctLabels us
    rw [hsplit] at hnodup
    have hfront : text ∉ front := fun h =>
      (List.nodup_append.mp hnodup).2.2 text h text List.mem_cons_self rfl
    have hback : text ∉ back := (List.nodup_cons.mp (List.nodup_append.mp hnodup).2.1).1
    rw [issues, hsplit, List.filterMap_append, List.filter_append, hother front hfront,
      List.filterMap_cons, List.nil_append]
    split
    · rename_i hissue
      rw [hissue]
      exact hother back hback
    · rename_i i hissue
      have hsubject : decide (i.subject = text) = true := decide_eq_true (subject_of_issue? hissue)
      rw [hissue, List.filter_cons, if_pos hsubject, hother back hback]
      rfl
  · have hnone : us.filter (·.label = text) = [] :=
      List.filter_eq_nil_iff.mpr fun u hu => by
        simpa using fun heq => hmem (mem_distinctLabels.mpr ⟨u, hu, heq⟩)
    rw [hnone, List.mergeSort_nil]
    exact hother _ hmem

/-- Uses with several owners make for an issue at the first that lists all others. -/
theorem issue?_of_ne (hu : u ∈ us) (hv : v ∈ us) (hne : u.owner ≠ v.owner) :
    ∃ first others, us.map (·.span) = first :: others ∧
      issue? text us = some ⟨.labelInUse, first, text, others⟩ := by
  cases us with
  | nil => cases hu
  | cons w us =>
      refine ⟨w.span, us.map (·.span), rfl, ?_⟩
      rw [issue?, if_neg]
      intro hall
      have howner : ∀ x ∈ w :: us, x.owner = w.owner := by
        refine List.forall_mem_cons.mpr ⟨rfl, fun x hx => ?_⟩
        exact of_decide_eq_true (List.all_eq_true.mp hall x hx)
      exact hne ((howner u hu).trans (howner v hv).symm)

theorem issue?_of_eq (h : ∀ u ∈ us, ∀ v ∈ us, u.owner = v.owner) : issue? text us = none := by
  cases us with
  | nil => rfl
  | cons w us =>
      refine if_pos (List.all_eq_true.mpr fun x hx => decide_eq_true ?_)
      exact h x (List.mem_cons_of_mem _ hx) w List.mem_cons_self

end LabelUse

/-! ### Where labels come from -/

/-- The labels that an action gives to a node or to a property. -/
def Action.givenLabels (a : Action) : List Label :=
  a.labels ++ a.definitions.flatMap (·.labels)

theorem Action.cargo_givenLabels : Cargo givenLabels := ⟨fun _ _ => rfl, rfl⟩

/-- The labels of statements follow one another. -/
theorem Statement.successive_labels : Successive fun s => s.opening.givenLabels.map (·.span) where
  block head body := by
    have hlabels : (block head body).opening.givenLabels = head.labels := List.append_nil _
    rw [hlabels]
    exact List.sublist_append_left _ _
  leaf {s file text} hs hlaid := by
    obtain ⟨-, hrow, -⟩ := hlaid _ .refl
    cases s with
    | block head body => cases hs
    | property p =>
        have hlabels : (property p).opening.givenLabels = p.labels := List.append_nil _
        rw [Element.children, List.map_append, List.map_map] at hrow
        rw [hlabels]
        exact hrow.of_sublist (List.sublist_append_left _ _)
    | deleteNode delete => exact .nil
    | deleteProperty delete => exact .nil

/-- The labels of a node and of its properties in force. -/
def Node.allLabels (n : Node) : List Label :=
  n.labels ++ n.properties.values.flatMap (·.definition.labels)

/-- The labels of a node and of all definitions of properties that it keeps. -/
def Node.toldLabels (n : Node) : List Label :=
  n.labels ++ (n.histories.flatMap Property.chronicle).flatMap (·.labels)

theorem Node.allLabels_sublist (n : Node) : n.allLabels.Sublist n.toldLabels := by
  refine (List.Sublist.refl n.labels).append ?_
  rw [histories, List.flatMap_append, List.flatMap_append, List.flatMap_assoc]
  refine List.Sublist.trans ?_ (List.sublist_append_right _ _)
  rw [List.flatMap_assoc]
  refine List.Sublist.flatMap_right _ fun p _ => ?_
  rw [Property.chronicle, List.flatMap_append, List.flatMap_singleton]
  exact List.sublist_append_right _ _

/-- What the actions about different nodes bring along is apart if all they bring is. -/
theorem Journal.nodup_flatMap_about {β : Type} {j : Journal} {g : Action → List β}
    (h : ((j.map (·.1)).flatMap g).Nodup) {ids : List NodeId} (hids : ids.Nodup) :
    (ids.flatMap fun id => (j.about id).flatMap g).Nodup := by
  refine List.nodup_flatMap.mpr ⟨fun id _ => ?_, hids.imp fun {id id'} hne b hb hb' => ?_⟩
  · exact h.sublist ((List.filter_sublist.map _).flatMap g)
  · obtain ⟨a, ha, hb⟩ := List.mem_flatMap.mp hb
    obtain ⟨a', ha', hb'⟩ := List.mem_flatMap.mp hb'
    rw [List.flatMap_map] at h
    have hentry := eq_of_nodup_flatMap h (mem_about.mp ha) (mem_about.mp ha') hb hb'
    exact hne (congrArg Prod.snd hentry)

namespace Linkage

variable {files : List SourceFile}

/-- An owner that is live, and a label that it bears. -/
inductive Bears (l : Linkage) : LabelOwner → Label → Prop
  | node {id : NodeId} {label : Label} (hlive : l.tree.isLive id = true)
      (hlabel : label ∈ (l.node id).labels) : Bears l (.node id) label
  | property {id : NodeId} {name : String} {p : Property} {label : Label}
      (hlive : l.tree.isLive id = true) (hp : (l.node id).property? name = some p)
      (hlabel : label ∈ p.definition.labels) : Bears l (.property id name) label

theorem keyed_link (files : List SourceFile) (reportUnresolved : Bool) (generation : Nat)
    (id : NodeId) : ((link files reportUnresolved generation).node id).Keyed := by
  obtain ⟨hnodup, hnamed, hburied⟩ := (keeps_link files reportUnresolved generation id).keyed
  exact ⟨hnodup, hnamed, hburied⟩

/-- The uses that are looked at are the labels that live owners bear. -/
theorem bears_iff (files : List SourceFile) (reportUnresolved : Bool) (generation : Nat)
    {owner : LabelOwner} {label : Label} :
    (link files reportUnresolved generation).Bears owner label ↔
      ⟨label.value, label.span, owner⟩ ∈
        LabelUse.ofTree (link files reportUnresolved generation).tree := by
  have hw := wellFormed_link files reportUnresolved generation
  have hkeyed := keyed_link files reportUnresolved generation
  obtain ⟨value, span⟩ := label
  rw [LabelUse.ofTree, List.mem_flatMap]
  constructor
  · rintro (⟨hlive, hlabel⟩ | ⟨hlive, hp, hlabel⟩)
    · refine ⟨_, hw.mem_liveNodes.mpr hlive, List.mem_append_left _ ?_⟩
      exact List.mem_map.mpr ⟨_, hlabel, rfl⟩
    · rename_i id name p
      have hmem := Table.mem_of_get? hp
      have hname : p.name = name := (hkeyed id).named _ hmem _ p.definition_mem_definitions
      refine ⟨id, hw.mem_liveNodes.mpr hlive, List.mem_append_right _ ?_⟩
      refine List.mem_flatMap.mpr ⟨p, List.mem_map_of_mem hmem, ?_⟩
      exact List.mem_map.mpr ⟨_, hlabel, by rw [hname]⟩
  · rintro ⟨id, hid, hmem⟩
    have hlive := hw.mem_liveNodes.mp hid
    rcases List.mem_append.mp hmem with hmem | hmem
    · obtain ⟨⟨value, span⟩, hlabel, heq⟩ := List.mem_map.mp hmem
      cases heq
      exact .node hlive hlabel
    · obtain ⟨p, hp, hmem⟩ := List.mem_flatMap.mp hmem
      obtain ⟨⟨value, span⟩, hlabel, heq⟩ := List.mem_map.mp hmem
      obtain ⟨⟨name, p⟩, he, rfl⟩ := List.mem_map.mp hp
      have hname : p.name = name := (hkeyed id).named _ he _ p.definition_mem_definitions
      cases heq
      refine .property hlive ?_ hlabel
      rw [hname]
      exact (Table.mem_entries_iff (hkeyed id).nodup).mp he

/-- The labels told of a node are those that the actions about it gave. -/
theorem toldLabels_link (files : List SourceFile) (reportUnresolved : Bool) (generation : Nat)
    (id : NodeId) :
    ((link files reportUnresolved generation).node id).toldLabels.Perm
      (((journalOf files).about id).flatMap Action.givenLabels) := by
  have hlabels : ((link files reportUnresolved generation).node id).tale.labels =
      ((journalOf files).about id).flatMap Action.labels := by
    rw [← List.nil_append (List.flatMap _ _)]
    exact (congrArg Node.labels (tale_link files reportUnresolved generation id)).trans
      (Node.labels_perform _ _)
  have hdefined := (keeps_link files reportUnresolved generation id).complete.flatMap_right
    fun d => d.labels
  rw [List.flatMap_assoc (l := (journalOf files).about id)] at hdefined
  calc ((link files reportUnresolved generation).node id).toldLabels.Perm
        (((journalOf files).about id).flatMap Action.labels ++
          ((journalOf files).about id).flatMap fun a => a.definitions.flatMap (·.labels)) :=
        (List.Perm.of_eq hlabels).append hdefined
    List.Perm _ (((journalOf files).about id).flatMap Action.givenLabels) :=
        List.flatMap_append_perm _ _ _

theorem map_label_ofNode (l : Linkage) (id : NodeId) :
    (LabelUse.ofNode l.tree id).map (fun u => (⟨u.label, u.span⟩ : Label)) =
      (l.node id).allLabels := by
  rw [LabelUse.ofNode, List.map_append, List.map_map, List.map_flatMap]
  congr 1
  · exact List.map_id _
  · refine List.flatMap_congr fun p _ => ?_
    rw [List.map_map]
    exact List.map_id _

section Parsed

variable (hparsed : ∀ f ∈ files, f.Parsed) (hnodup : (files.map (·.file)).Nodup)

include hparsed hnodup in
/-- No two labels in use were read at the same place. -/
theorem nodup_use_sites (reportUnresolved : Bool) (generation : Nat) :
    ((LabelUse.ofTree (link files reportUnresolved generation).tree).map
      (·.span.site)).Nodup := by
  let g : Action → List (FileId × Nat) := fun a => a.givenLabels.map (·.span.site)
  have hgiven : (((journalOf files).map (·.1)).flatMap g).Nodup := by
    have hsites := nodup_sites hparsed hnodup Statement.successive_labels
    rw [List.map_flatMap] at hsites
    simp only [List.map_map] at hsites
    rw [journalOf, Outline.map_fst_journal]
    exact (actionsOf_perm ⟨fun _ _ => rfl, rfl⟩ files).nodup_iff.mpr hsites
  have hlive := (wellFormed_link files reportUnresolved generation).nodup_subtree Tree.root
  let l := link files reportUnresolved generation
  have htold : (l.tree.liveNodes.flatMap fun id =>
      (l.node id).toldLabels.map (·.span.site)).Nodup := by
    refine (List.Perm.flatMap_left _ fun id _ => ?_).nodup_iff.mpr
      (Journal.nodup_flatMap_about hgiven hlive)
    rw [← List.map_flatMap]
    exact (toldLabels_link files reportUnresolved generation id).map _
  have huses : (LabelUse.ofTree l.tree).map (·.span.site) =
      l.tree.liveNodes.flatMap fun id => (l.node id).allLabels.map (·.span.site) := by
    rw [LabelUse.ofTree, List.map_flatMap]
    refine List.flatMap_congr fun id _ => ?_
    rw [← map_label_ofNode, List.map_map]
    rfl
  rw [huses]
  refine htold.sublist (List.Sublist.flatMap_right _ fun id _ => ?_)
  exact (l.node id).allLabels_sublist.map _

include hparsed in
/-- The labels in use were read from the files. -/
theorem file_of_use {reportUnresolved : Bool} {generation : Nat} {u : LabelUse}
    (hu : u ∈ LabelUse.ofTree (link files reportUnresolved generation).tree) :
    u.span.file ∈ files.map (·.file) := by
  obtain ⟨id, -, hu⟩ := List.mem_flatMap.mp hu
  have hlabel : (⟨u.label, u.span⟩ : Label) ∈
      ((link files reportUnresolved generation).node id).allLabels := by
    rw [← map_label_ofNode]
    exact List.mem_map_of_mem hu
  have hgiven := (toldLabels_link files reportUnresolved generation id).mem_iff.mp
    (((link files reportUnresolved generation).node id).allLabels_sublist.subset hlabel)
  obtain ⟨s, hs, hlabel⟩ := exists_statement Action.cargo_givenLabels hgiven
  obtain ⟨f, hf, hs⟩ := List.mem_flatMap.mp hs
  have hfile := file_eq_of_own (hparsed f hf) Statement.successive_labels hs
    (List.mem_map_of_mem hlabel)
  exact List.mem_map.mpr ⟨f, hf, hfile.symm⟩

end Parsed

/-- The uses of a label, in order. -/
def usesOf (l : Linkage) (text : String) : List LabelUse :=
  ((LabelUse.ofTree l.tree).filter (·.label = text)).mergeSort (LabelUse.le l.fileOrder)

/-- The issues of a label that is in use are those of its uses. -/
theorem labelInUse_link (files : List SourceFile) (reportUnresolved : Bool) (generation : Nat)
    (text : String) :
    let l := link files reportUnresolved generation
    (l.issues.filter fun i => i.kind = .labelInUse ∧ i.subject = text) =
      (LabelUse.issue? text (l.usesOf text)).toList := by
  intro l
  have hclashes : ((actionsOf files).filterMap Action.clash?).filter
      (fun i => i.kind = .labelInUse ∧ i.subject = text) = [] := by
    refine List.filter_eq_nil_iff.mpr fun i hi => ?_
    obtain ⟨a, -, ha⟩ := List.mem_filterMap.mp hi
    cases a <;> cases ha
    simp
  have hlabels : (l.labelIssues.filter fun i => i.kind = .labelInUse ∧ i.subject = text) =
      l.labelIssues.filter (·.subject = text) :=
    List.filter_congr fun i hi => by simp [kind_of_mem_labelIssues hi]
  rw [filter_issues_eq files reportUnresolved generation, hclashes, List.nil_append]
  · exact hlabels.trans (LabelUse.filter_issues _ _ text)
  · intro i hi
    rw [(of_decide_eq_true hi).1]
    rfl

/-- In files as read, a label in use has one owner. There is one issue of a label if owners that
differ bear it, and none otherwise. The issue is at the earliest place where the label is borne,
by the order of files and then by bytes, and lists all other places in that order. -/
theorem label_conflicts_exact (files : List SourceFile) (reportUnresolved : Bool)
    (generation : Nat) (hparsed : ∀ f ∈ files, f.Parsed)
    (hnodup : (files.map (·.file)).Nodup) (text : String) :
    let l := link files reportUnresolved generation
    let reported := l.issues.filter fun i => i.kind = .labelInUse ∧ i.subject = text
    let contested := ∃ a b s t, l.Bears a ⟨text, s⟩ ∧ l.Bears b ⟨text, t⟩ ∧ a ≠ b
    (contested → ∃ first others, reported = [⟨.labelInUse, first, text, others⟩] ∧
      (first :: others).Pairwise (Span.Earlier l.fileOrder) ∧
      ∀ span, span ∈ first :: others ↔ ∃ owner, l.Bears owner ⟨text, span⟩) ∧
    (¬contested → reported = []) ∧
    ∀ a b label, l.Bears a label → l.Bears b label → a = b := by
  intro l reported contested
  have hsites := nodup_use_sites hparsed hnodup reportUnresolved generation
  have hbears : ∀ {a label}, l.Bears a label ↔
      ⟨label.value, label.span, a⟩ ∈ LabelUse.ofTree l.tree :=
    bears_iff files reportUnresolved generation
  have hperm := List.mergeSort_perm ((LabelUse.ofTree l.tree).filter (·.label = text))
    (LabelUse.le l.fileOrder)
  have huse : ∀ {a s}, l.Bears a ⟨text, s⟩ ↔ ⟨text, s, a⟩ ∈ l.usesOf text := by
    intro a s
    rw [usesOf, hperm.mem_iff, List.mem_filter, hbears]
    simp
  have hlabel : ∀ u ∈ l.usesOf text, u.label = text :=
    fun u hu => of_decide_eq_true (List.mem_filter.mp (hperm.mem_iff.mp hu)).2
  have hreported : reported = (LabelUse.issue? text (l.usesOf text)).toList :=
    labelInUse_link files reportUnresolved generation text
  refine ⟨?_, ?_, ?_⟩
  · rintro ⟨a, b, s, t, ha, hb, hne⟩
    have hissue : ∃ first others, (l.usesOf text).map (·.span) = first :: others ∧
        LabelUse.issue? text (l.usesOf text) = some ⟨.labelInUse, first, text, others⟩ :=
      LabelUse.issue?_of_ne (huse.mp ha) (huse.mp hb) hne
    obtain ⟨first, others, hspans, hissue⟩ := hissue
    refine ⟨first, others, ?_, ?_, ?_⟩
    · rw [hreported, hissue]
      rfl
    · rw [← hspans]
      refine LabelUse.earlier_mergeSort (fun u hu => ?_)
        (hsites.sublist (List.filter_sublist.map _))
      exact file_of_use hparsed (List.mem_filter.mp hu).1
    · intro span
      rw [← hspans, List.mem_map]
      constructor
      · rintro ⟨⟨label, span, owner⟩, hu, rfl⟩
        obtain rfl := hlabel _ hu
        exact ⟨owner, huse.mpr hu⟩
      · rintro ⟨owner, hb⟩
        exact ⟨_, huse.mp hb, rfl⟩
  · intro hagreed
    rw [hreported, LabelUse.issue?_of_eq]
    · rfl
    · rintro ⟨label, s, a⟩ hu ⟨label', t, b⟩ hv
      obtain rfl := hlabel _ hu
      obtain rfl := hlabel _ hv
      by_contra hne
      exact hagreed ⟨a, b, s, t, huse.mpr hu, huse.mpr hv, hne⟩
  · intro a b label ha hb
    have heq := List.inj_on_of_nodup_map hsites (hbears.mp ha) (hbears.mp hb) rfl
    exact congrArg LabelUse.owner heq

/-- A node with a label from two files, a property with the same label, and a deleted node that
had it too, read from `/{x:a{};b{x:p;};};` and `/{x:a{};c{x:d{};};/delete-node/c;};`. -/
def contestedFiles : List SourceFile :=
  [.read ⟨5⟩ "/\x7bx:a\x7b\x7d;b\x7bx:p;\x7d;\x7d;".toList,
    .read ⟨2⟩ "/\x7bx:a\x7b\x7d;c\x7bx:d\x7b\x7d;\x7d;/delete-node/c;\x7d;".toList]

theorem contestedFiles_reported :
    let l := link contestedFiles true 0
    ∃ first others, (l.issues.filter fun i => i.kind = .labelInUse ∧ i.subject = "x") =
        [⟨.labelInUse, first, "x", others⟩] ∧
      (first :: others).Pairwise (Span.Earlier l.fileOrder) ∧
      ∀ span, span ∈ first :: others ↔ ∃ owner, l.Bears owner ⟨"x", span⟩ := by
  have hparsed : ∀ f ∈ contestedFiles, f.Parsed := by
    simp only [contestedFiles, List.forall_mem_cons]
    exact ⟨⟨_, rfl⟩, ⟨_, rfl⟩, nofun⟩
  have hnode : (link contestedFiles true 0).Bears (.node ⟨1⟩)
      ⟨"x", ⟨⟨2⟩, 2, 4, ⟨0, 2⟩, ⟨0, 4⟩⟩⟩ :=
    .node (by decide +kernel) (by decide +kernel)
  have hproperty : (link contestedFiles true 0).Bears (.property ⟨2⟩ "p")
      ⟨"x", ⟨⟨5⟩, 10, 12, ⟨0, 10⟩, ⟨0, 12⟩⟩⟩ := by
    have hany : (((link contestedFiles true 0).node ⟨2⟩).property? "p").any (fun p =>
        ⟨"x", ⟨⟨5⟩, 10, 12, ⟨0, 10⟩, ⟨0, 12⟩⟩⟩ ∈ p.definition.labels) = true := by
      decide +kernel
    obtain ⟨p, hp, hlabel⟩ := (Option.any_eq_true _ _).mp hany
    exact .property (by decide +kernel) hp (of_decide_eq_true hlabel)
  exact (label_conflicts_exact contestedFiles true 0 hparsed (by decide) "x").1
    ⟨_, _, _, _, hnode, hproperty, nofun⟩

end Linkage

end Devicetree
