import Devicetree.Linkage.Query
import Devicetree.Proofs.Linkage.History
import Devicetree.Proofs.Linkage.LiveLabels
import Devicetree.Proofs.Linkage.Rooted

/-!
# The node that a label was bound to last

Several nodes may carry one label, but a label is bound to one node at a time: to the one it was
bound to last. Deleting that node unbinds the label and does not bind it again to another node
that carries it. The main result is that a label on a live node can be used exactly if the node it
was bound to last is live.
-/

namespace Devicetree

namespace Table

variable {κ ν : Type}

theorem nodup_keys_filterValues {t : Table κ ν} (hn : t.keys.Nodup) (p : ν → Bool) :
    (t.filterValues p).keys.Nodup :=
  hn.sublist (List.filter_sublist.map _)

variable [DecidableEq κ]

/-- The value that comes last under a key. -/
def last? (k : κ) : List (κ × ν) → Option ν
  | [] => none
  | e :: es => (last? k es).or (if e.1 = k then some e.2 else none)

theorem last?_append (k : κ) (es fs : List (κ × ν)) :
    last? k (es ++ fs) = (last? k fs).or (last? k es) := by
  induction es with
  | nil => simp [last?]
  | cons e es ih => rw [List.cons_append, last?, ih, last?, Option.or_assoc]

theorem mem_of_last? {k : κ} {v : ν} {es : List (κ × ν)} (h : last? k es = some v) :
    (k, v) ∈ es := by
  induction es with
  | nil => cases h
  | cons e es ih =>
      rcases Option.or_eq_some_iff.mp h with h | ⟨-, h⟩
      · exact List.mem_cons_of_mem _ (ih h)
      · split at h
        · rename_i he
          cases h
          exact he ▸ List.mem_cons_self
        · cases h

theorem last?_ne_none {k : κ} {v : ν} {es : List (κ × ν)} (h : (k, v) ∈ es) :
    last? k es ≠ none := by
  induction es with
  | nil => cases h
  | cons e es ih =>
      intro hn
      obtain ⟨hrest, he⟩ := Option.or_eq_none_iff.mp hn
      rcases List.mem_cons.mp h with rfl | h
      · simp at he
      · exact ih h hrest

theorem get?_insertAll (t : Table κ ν) (es : List (κ × ν)) (k : κ) :
    (t.insertAll es).get? k = (last? k es).or (t.get? k) := by
  induction es generalizing t with
  | nil => rfl
  | cons e es ih =>
      rw [insertAll_cons, ih, get?_insert, last?, Option.or_assoc]
      split <;> rfl

theorem nodup_keys_insertAll {t : Table κ ν} (hn : t.keys.Nodup) (es : List (κ × ν)) :
    (t.insertAll es).keys.Nodup := by
  induction es generalizing t with
  | nil => exact hn
  | cons e es ih => exact ih (nodup_keys_insert hn e.1 e.2)

/-- Where keys are distinct, a filter keeps or drops what is under a key. -/
theorem get?_filterValues {t : Table κ ν} (hn : t.keys.Nodup) (p : ν → Bool) (k : κ) :
    (t.filterValues p).get? k = (t.get? k).filter p := by
  obtain ⟨entries⟩ := t
  induction entries with
  | nil => rfl
  | cons e es ih =>
      obtain ⟨hnotin, hn⟩ := List.nodup_cons.mp hn
      have ih : lookup? k (es.filter (p ·.2)) = (lookup? k es).filter p := ih hn
      change lookup? k ((e :: es).filter (p ·.2)) = (lookup? k (e :: es)).filter p
      by_cases hk : e.1 = k
      · have hnone : lookup? k es = none :=
          lookup?_eq_none.mpr fun d hd he => hnotin (List.mem_map.mpr ⟨d, hd, he.trans hk.symm⟩)
        cases hp : p e.2 with
        | true => simp [hp, lookup?, hk, Option.filter]
        | false => simp [hp, lookup?, hk, ih, hnone, Option.filter]
      · cases hp : p e.2 <;> simp [hp, lookup?, hk, ih]

end Table

theorem Tree.lt_size_of_hasLabel {t : Tree} {id : NodeId} {label : String}
    (h : (t.node id).hasLabel label = true) : id.index < t.size := by
  apply Nat.lt_of_not_le
  intro hge
  rw [node_of_size_le hge] at h
  cases h

namespace Outline

variable {o : Outline}

/-- The bindings that a run makes, in order. -/
def bindings (o : Outline) : List Action → List (String × NodeId)
  | [] => []
  | a :: as => o.bound a ++ (o.step a).bindings as

/-! ### How nodes come by labels -/

theorem hasLabel_step (hs : o.Sound) (a : Action) {id : NodeId} {label : String}
    (h : (o.tree.node id).hasLabel label = true) :
    ((o.step a).tree.node id).hasLabel label = true := by
  obtain ⟨more, hlabels, -⟩ := ((edited_step_true hs a).node id).labels
  rw [Node.hasLabel, hlabels, List.any_append, Bool.or_eq_true]
  exact .inl h

theorem hasLabel_of_enter (hs : o.Sound) {head : BlockHead} {id : NodeId} {label : String}
    (h : ((o.enter head).tree.node id).hasLabel label = true) :
    (o.tree.node id).hasLabel label = true ∨
      id = (o.enter head).scope.node ∧ ∃ l ∈ head.labels, l.value = label := by
  obtain ⟨t, node, detached, he, -, hsame⟩ := enter_eq_define hs head
  rw [he] at h ⊢
  change ((t.modify node (·.opened head)).node id).hasLabel label = true at h
  rw [Node.hasLabel, ← Node.labels_of_tale (hsame id)]
  rw [Tree.node_modify] at h
  split at h
  · rename_i hid
    rw [Node.hasLabel, Node.opened, List.any_append, Bool.or_eq_true] at h
    rcases h with h | h
    · exact .inl h
    · obtain ⟨l, hl, hv⟩ := List.any_eq_true.mp h
      exact .inr ⟨hid.1.symm, l, hl, eq_of_beq hv⟩
  · exact .inl h

/-- A label comes on a node with a block about that node. -/
theorem hasLabel_of_step (hs : o.Sound) {a : Action} {id : NodeId} {label : String}
    (h : ((o.step a).tree.node id).hasLabel label = true) :
    (o.tree.node id).hasLabel label = true ∨
      ∃ head, a = .enter head ∧ id = (o.enter head).scope.node ∧
        ∃ l ∈ head.labels, l.value = label := by
  have hmodify : ∀ {node : NodeId} {f : Node → Node},
      ((o.tree.modify node f).node id).hasLabel label = true → (∀ n, (f n).labels = n.labels) →
      (o.tree.node id).hasLabel label = true := by
    intro node f h hf
    rw [Tree.node_modify] at h
    split at h
    · rwa [Node.hasLabel, hf] at h
    · exact h
  cases a with
  | clash name first => exact .inl h
  | leave => exact .inl h
  | enter head => exact (hasLabel_of_enter hs h).imp_right fun h => ⟨head, rfl, h⟩
  | property definition =>
      change ((o.tree.modify o.scope.node (·.define definition)).node id).hasLabel label = true at h
      exact .inl (hmodify h fun _ => rfl)
  | deleteNode delete =>
      simp only [step, deleteNode] at h
      split at h
      · rw [Node.hasLabel, Node.labels_of_tale (tale_remove hs _ _ id)] at h
        exact .inl h
      · exact .inl h
  | deleteProperty delete =>
      refine .inl (hmodify h fun n => ?_)
      simp only [Node.undefine?]
      cases n.property? delete.name.value <;> rfl

/-- A live node that comes by a label has that label bound to it. -/
theorem mem_bound_of_hasLabel (hr : o.Rooted) (hs : o.Sound) {a : Action} {id : NodeId}
    {label : String} (hl : (o.step a).tree.isLive id = true)
    (h : ((o.step a).tree.node id).hasLabel label = true) :
    (o.tree.node id).hasLabel label = true ∨ (label, id) ∈ o.bound a := by
  rcases hasLabel_of_step hs h with h | ⟨head, rfl, rfl, l, hm, rfl⟩
  · exact .inl h
  · right
    -- A stand-in gets labels too, but they are not bound. It is never rooted, let alone live.
    have hrooted := (Tree.isLive_iff_isRooted.mp hl).1
    have hd : (o.enter head).scope.detached = false := by
      have hiff := isRooted_enter hr hs head
      change (o.enter head).tree.isRooted _ = true at hrooted
      rwa [hrooted, eq_comm, Bool.not_eq_true'] at hiff
    simp only [bound, hd]
    exact List.mem_map.mpr ⟨l, hm, rfl⟩

/-- What a bound label names carries it. -/
theorem hasLabel_of_bound (hs : o.Sound) {a : Action} {b : String × NodeId} (hb : b ∈ o.bound a) :
    ((o.step a).tree.node b.2).hasLabel b.1 = true := by
  obtain ⟨head, rfl, -, ⟨label, hm, hv⟩, hn⟩ := mem_bound hb
  obtain ⟨t, node, detached, he, hlt, -⟩ := enter_eq_define hs head
  change ((o.enter head).tree.node b.2).hasLabel b.1 = true
  rw [hn, he]
  change ((t.modify node (·.opened head)).node node).hasLabel b.1 = true
  rw [Tree.node_modify_self _ hlt, Node.hasLabel, Node.opened, List.any_append, Bool.or_eq_true]
  exact .inr (List.any_eq_true.mpr ⟨label, hm, by simp [hv]⟩)

/-! ### Labels name the node they were bound to last, or none -/

/-- How the labels stand to the bindings made so far. A label names the node it was bound to
last, or that node is not live; and every label of a live node was bound. -/
structure Tracks (o : Outline) (bs : List (String × NodeId)) : Prop where
  keys : o.labels.keys.Nodup
  named : ∀ {label node}, o.labels.get? label = some node → Table.last? label bs = some node
  unnamed : ∀ {label node}, Table.last? label bs = some node →
    o.labels.get? label = some node ∨ o.tree.isLive node = false
  carried : ∀ {label node}, Table.last? label bs = some node →
    (o.tree.node node).hasLabel label = true
  labelled : ∀ {label id}, o.tree.isLive id = true → (o.tree.node id).hasLabel label = true →
    Table.last? label bs ≠ none

namespace Tracks

variable {bs : List (String × NodeId)}

theorem start : Outline.start.Tracks [] where
  keys := List.nodup_nil
  named := fun h => by cases h
  unnamed := fun h => by cases h
  carried := fun h => by cases h
  labelled := by
    intro label id hl h
    rw [show Outline.start.tree = Tree.start from rfl, Tree.node_start] at h
    split at h <;> cases h

theorem carried_step (h : o.Tracks bs) (hs : o.Sound) (a : Action) {label : String}
    {node : NodeId} (hlast : Table.last? label (bs ++ o.bound a) = some node) :
    ((o.step a).tree.node node).hasLabel label = true := by
  rw [Table.last?_append] at hlast
  rcases Option.or_eq_some_iff.mp hlast with hlast | ⟨-, hlast⟩
  · exact hasLabel_of_bound hs (Table.mem_of_last? hlast)
  · exact hasLabel_step hs a (h.carried hlast)

theorem labelled_step (h : o.Tracks bs) (hr : o.Rooted) (hs : o.Sound) (a : Action)
    {label : String} {id : NodeId} (hl : (o.step a).tree.isLive id = true)
    (hlabel : ((o.step a).tree.node id).hasLabel label = true) :
    Table.last? label (bs ++ o.bound a) ≠ none := by
  intro hnone
  rw [Table.last?_append] at hnone
  obtain ⟨hbound, hlast⟩ := Option.or_eq_none_iff.mp hnone
  rcases mem_bound_of_hasLabel hr hs hl hlabel with hlabel | hb
  · exact h.labelled (isLive_of_step hs a (Tree.lt_size_of_hasLabel hlabel) hl) hlabel hlast
  · exact Table.last?_ne_none hb hbound

/-- A node that a label was bound to does not come back to life. -/
theorem isLive_step (h : o.Tracks bs) (hs : o.Sound) (a : Action) {label : String}
    {node : NodeId} (hlast : Table.last? label bs = some node)
    (hdead : o.tree.isLive node = false) : (o.step a).tree.isLive node = false := by
  apply Bool.eq_false_iff.mpr
  intro hlive
  rw [isLive_of_step hs a (Tree.lt_size_of_hasLabel (h.carried hlast)) hlive] at hdead
  cases hdead

theorem of_insertAll (h : o.Tracks bs) (hr : o.Rooted) (hs : o.Sound) {a : Action}
    (hl : (o.step a).labels = o.labels.insertAll (o.bound a)) :
    (o.step a).Tracks (bs ++ o.bound a) where
  keys := by
    rw [hl]
    exact Table.nodup_keys_insertAll h.keys _
  named := by
    intro label node hn
    rw [hl, Table.get?_insertAll] at hn
    rw [Table.last?_append]
    rcases Option.or_eq_some_iff.mp hn with hn | ⟨hnone, hn⟩
    · rw [hn, Option.some_or]
    · rw [hnone, Option.none_or]
      exact h.named hn
  unnamed := by
    intro label node hlast
    rw [Table.last?_append] at hlast
    rw [hl, Table.get?_insertAll]
    rcases Option.or_eq_some_iff.mp hlast with hlast | ⟨hnone, hlast⟩
    · rw [hlast, Option.some_or]
      exact .inl rfl
    · rw [hnone, Option.none_or]
      exact (h.unnamed hlast).imp_right (h.isLive_step hs a hlast)
  carried := h.carried_step hs a
  labelled := h.labelled_step hr hs a

/-- The labels that a delete takes named nodes that it makes dead. -/
theorem of_filterValues (h : o.Tracks bs) (hr : o.Rooted) (hs : o.Sound) {a : Action}
    {target : NodeId} {deletedBy : AstRef} (hb : o.bound a = [])
    (hk : (o.tree.node target).deleted = false)
    (hu : o.tree.deleteNode? target deletedBy = some (o.step a).tree)
    (hl : (o.step a).labels =
      o.labels.filterValues fun node => !((o.step a).tree.subtree target).contains node) :
    (o.step a).Tracks (bs ++ o.bound a) where
  keys := by
    rw [hl]
    exact Table.nodup_keys_filterValues h.keys _
  named := by
    intro label node hn
    rw [hl, Table.get?_filterValues h.keys] at hn
    rw [hb, List.append_nil]
    exact h.named (Option.eq_some_of_filter_eq_some hn)
  unnamed := by
    intro label node hlast
    rw [hb, List.append_nil] at hlast
    rcases h.unnamed hlast with hn | hdead
    · -- The label goes if its node is below the target, and then the node is dead as well.
      rw [hl, Table.get?_filterValues h.keys, hn]
      by_cases hm : node ∈ (o.step a).tree.subtree target
      · right
        have hunder := (hs.step a).tree.mem_subtree.mp hm
        apply Bool.eq_false_iff.mpr
        intro hlive
        exact ((hs.tree.isLive_deleteNode? hu hk).mp hlive).2
          ((hs.tree.under_deleteNode? hu).mp hunder)
      · left
        simp [Option.filter, hm]
    · exact .inr (h.isLive_step hs a hlast hdead)
  carried := h.carried_step hs a
  labelled := h.labelled_step hr hs a

theorem step (h : o.Tracks bs) (hr : o.Rooted) (hs : o.Sound) (a : Action) :
    (o.step a).Tracks (bs ++ o.bound a) := by
  rcases labels_step hs a with hl | ⟨hb, target, deletedBy, hk, hu, hl⟩
  · exact h.of_insertAll hr hs hl
  · exact h.of_filterValues hr hs hb hk hu hl

theorem run (h : o.Tracks bs) (hr : o.Rooted) (hs : o.Sound) (as : List Action) :
    (o.run as).Tracks (bs ++ o.bindings as) := by
  induction as generalizing o bs with
  | nil => rwa [bindings, List.append_nil]
  | cons a as ih =>
      have hstep := ih (h.step hr hs a) (hr.step hs a) (hs.step a)
      rwa [List.append_assoc] at hstep

end Tracks

end Outline

namespace Linkage

/-- The node that a label was bound to last while some files were read. -/
def lastBound? (files : List SourceFile) (label : String) : Option NodeId :=
  Table.last? label (Outline.start.bindings (actionsOf files))

theorem tracks_outlineOf (files : List SourceFile) :
    (outlineOf files).Tracks (Outline.start.bindings (actionsOf files)) :=
  Outline.Tracks.start.run Outline.rooted_start .start (actionsOf files)

theorem isLive_link (files : List SourceFile) (reportUnresolved : Bool) (generation : Nat)
    (id : NodeId) :
    (link files reportUnresolved generation).tree.isLive id =
      (outlineOf files).tree.isLive id := by
  rw [(Tree.sameShape_bare _).isLive, link_tree_bare]

theorem hasLabel_link (files : List SourceFile) (reportUnresolved : Bool) (generation : Nat)
    (id : NodeId) (label : String) :
    ((link files reportUnresolved generation).node id).hasLabel label =
      ((outlineOf files).tree.node id).hasLabel label := by
  rw [← link_tree_bare files reportUnresolved generation, Tree.node_bare]
  rfl

theorem label?_link (files : List SourceFile) (reportUnresolved : Bool) (generation : Nat)
    (label : String) :
    (link files reportUnresolved generation).label? label =
      (outlineOf files).labels.get? label := by
  rw [label?, link_labels]

/-- A label of a live node was bound, and the node it was bound to last carries it. It names no
other node than that one. It can be used, which is to say that it names a live node that carries
it, exactly if the node it was bound to last is live. -/
theorem label_usable_iff_last_bound_live (files : List SourceFile) (reportUnresolved : Bool)
    (generation : Nat) {id : NodeId} {label : String}
    (hlive : (link files reportUnresolved generation).tree.isLive id = true)
    (hlabel : ((link files reportUnresolved generation).node id).hasLabel label = true) :
    ∃ last, lastBound? files label = some last ∧
      ((link files reportUnresolved generation).node last).hasLabel label = true ∧
      (∀ node, (link files reportUnresolved generation).label? label = some node → node = last) ∧
      ((∃ node, (link files reportUnresolved generation).label? label = some node ∧
          (link files reportUnresolved generation).tree.isLive node = true ∧
          ((link files reportUnresolved generation).node node).hasLabel label = true) ↔
        (link files reportUnresolved generation).tree.isLive last = true) := by
  have htracks := tracks_outlineOf files
  simp only [isLive_link, hasLabel_link, label?_link] at hlive hlabel ⊢
  obtain ⟨last, hlast⟩ := Option.ne_none_iff_exists'.mp (htracks.labelled hlive hlabel)
  have hnamed : ∀ node, (outlineOf files).labels.get? label = some node → node = last :=
    fun node hn => Option.some.inj ((htracks.named hn).symm.trans hlast)
  refine ⟨last, hlast, htracks.carried hlast, hnamed, ?_⟩
  constructor
  · rintro ⟨node, hn, hl, -⟩
    rwa [← hnamed node hn]
  · intro hl
    rcases htracks.unnamed hlast with hn | hdead
    · exact ⟨last, hn, hl, htracks.carried hlast⟩
    · rw [hdead] at hl
      cases hl

/-- One label on two nodes, read from `/{l:a{};l:b{};};`. -/
def sharedLabelFile : SourceFile :=
  .read ⟨0⟩ "/\x7bl:a\x7b\x7d;l:b\x7b\x7d;\x7d;".toList

/-- The label of the first node can be used, and names the second. -/
theorem sharedLabelFile_usable :
    lastBound? [sharedLabelFile] "l" = some ⟨2⟩ ∧
      ∃ node, (link [sharedLabelFile] true 0).label? "l" = some node ∧
        (link [sharedLabelFile] true 0).tree.isLive node = true ∧
        ((link [sharedLabelFile] true 0).node node).hasLabel "l" = true := by
  have hlive : (link [sharedLabelFile] true 0).tree.isLive ⟨1⟩ = true := by decide +kernel
  have hlabel : ((link [sharedLabelFile] true 0).node ⟨1⟩).hasLabel "l" = true := by
    decide +kernel
  obtain ⟨last, hlast, -, -, hiff⟩ := label_usable_iff_last_bound_live _ _ _ hlive hlabel
  have hsecond : lastBound? [sharedLabelFile] "l" = some ⟨2⟩ := by decide +kernel
  obtain rfl : (⟨2⟩ : NodeId) = last := Option.some.inj (hsecond.symm.trans hlast)
  exact ⟨hsecond, hiff.mpr (by decide +kernel)⟩

/-- One label on two nodes, the second of which is deleted by it, read from
`/{l:a{};l:b{};};/delete-node/&l;`. -/
def strandedLabelFile : SourceFile :=
  .read ⟨0⟩ "/\x7bl:a\x7b\x7d;l:b\x7b\x7d;\x7d;/delete-node/&l;".toList

/-- A live node keeps a label that names nothing. -/
theorem strandedLabelFile_unusable :
    (link [strandedLabelFile] true 0).tree.isLive ⟨1⟩ = true ∧
      ((link [strandedLabelFile] true 0).node ⟨1⟩).hasLabel "l" = true ∧
      (link [strandedLabelFile] true 0).label? "l" = none := by
  decide +kernel

end Linkage

end Devicetree
