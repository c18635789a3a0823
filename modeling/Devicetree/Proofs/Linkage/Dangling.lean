import Devicetree.Proofs.Linkage.Accounts

/-!
# References to deleted nodes

A link is never taken back. When the node that a reference is linked to is deleted later, alone or
with one above it, the reference is left without a live target and is not reported either. The
main result says that this is the only way for a reference of a property in force to go wrong
unnoticed.
-/

namespace Devicetree

/-! ### Where properties come from -/

/-- The definitions that an action puts in force. -/
def Action.definitions : Action → List PropertyDef
  | .property definition => [definition]
  | _ => []

/-- The properties in force all come from some definitions. -/
def Tree.Cites (t : Tree) (definitions : List PropertyDef) : Prop :=
  ∀ id, ∀ p ∈ (t.node id).properties.values, p.definition ∈ definitions

theorem Node.mem_properties_undefine {n : Node} {name : String} {deletedBy : AstRef}
    {p : Property} (h : p ∈ ((n.undefine? name deletedBy).getD n).properties.values) :
    p ∈ n.properties.values := by
  rw [undefine?] at h
  cases hprop : n.property? name with
  | none => rwa [hprop] at h
  | some old =>
      rw [hprop] at h
      obtain ⟨e, he, rfl⟩ := List.mem_map.mp h
      exact List.mem_map_of_mem (List.mem_of_mem_filter he)

namespace Outline

variable {o : Outline}

theorem properties_enter (hs : o.Sound) (head : BlockHead) (id : NodeId) :
    ((o.enter head).tree.node id).properties = (o.tree.node id).properties := by
  obtain ⟨t, node, detached, he, -, hsame⟩ := enter_eq_define hs head
  rw [he, ← Node.properties_of_tale (hsame id)]
  change ((t.modify node (·.opened head)).node id).properties = (t.node id).properties
  rw [Tree.node_modify]
  split <;> rfl

theorem cites_step (hs : o.Sound) {definitions : List PropertyDef}
    (h : o.tree.Cites definitions) (a : Action) :
    (o.step a).tree.Cites (definitions ++ a.definitions) := by
  have hold : ∀ id, ∀ p ∈ (o.tree.node id).properties.values,
      p.definition ∈ definitions ++ a.definitions :=
    fun id p hp => List.mem_append_left _ (h id p hp)
  intro id p hp
  cases a with
  | clash name first => exact hold id p hp
  | enter head => exact hold id p (properties_enter hs head id ▸ hp)
  | leave => exact hold id p hp
  | property definition =>
      change p ∈ ((o.tree.modify o.scope.node
        (·.define definition)).node id).properties.values at hp
      rw [Tree.node_modify] at hp
      split at hp
      · rcases Node.mem_values_define hp with rfl | hp
        · rw [Node.definition_renewed]
          exact List.mem_append_right _ List.mem_cons_self
        · exact hold id p hp
      · exact hold id p hp
  | deleteNode delete =>
      simp only [step, deleteNode] at hp
      split at hp
      · rw [Node.properties_of_tale (tale_remove hs _ _ id)] at hp
        exact hold id p hp
      · exact hold id p hp
  | deleteProperty delete =>
      change p ∈ ((o.tree.modify o.scope.node fun n =>
        (n.undefine? delete.name.value delete.ref).getD n).node id).properties.values at hp
      rw [Tree.node_modify] at hp
      split at hp
      · exact hold id p (Node.mem_properties_undefine hp)
      · exact hold id p hp

theorem cites_run (hs : o.Sound) {definitions : List PropertyDef}
    (h : o.tree.Cites definitions) (as : List Action) :
    (o.run as).tree.Cites (definitions ++ as.flatMap Action.definitions) := by
  induction as generalizing o definitions with
  | nil => rwa [List.flatMap_nil, List.append_nil]
  | cons a as ih =>
      have hrun := ih (hs.step a) (cites_step hs h a)
      rwa [List.append_assoc, ← List.flatMap_cons] at hrun

end Outline

/-! ### Links lead to rooted nodes -/

namespace Ledger

variable {o : Outline} {l : Ledger}

/-- Every link leads to a rooted node. -/
def Anchored (o : Outline) (l : Ledger) : Prop :=
  ∀ e ∈ l.links.entries, o.tree.isRooted e.2 = true

namespace Anchored

theorem attach (h : l.Anchored o) (hs : o.Sound) (hr : o.Rooted) (ref : Reference) :
    (l.attach o ref).Anchored o := by
  unfold Ledger.attach
  cases ht : o.target? ref with
  | none => exact h
  | some node =>
      intro e he
      rcases Table.mem_entries_insert he with rfl | he
      · exact hr.of_target? hs ht
      · exact h e he

theorem meets (h : l.Anchored o) (hs : o.Sound) (hr : o.Rooted) (ms : List Mention) :
    (ms.foldl (meet o) l).Anchored o := by
  induction ms generalizing l with
  | nil => exact h
  | cons m ms ih =>
      apply ih
      intro e he
      rw [links_meet] at he
      exact h.attach hs hr m.ref e he

theorem binds (h : l.Anchored o) {bs : List (String × NodeId)}
    (hb : ∀ b ∈ bs, o.tree.isRooted b.2 = true) : (bs.foldl bind l).Anchored o := by
  induction bs generalizing l with
  | nil => exact h
  | cons b bs ih =>
      refine ih (fun e he => ?_) fun b' hb' => hb b' (List.mem_cons_of_mem _ hb')
      rcases Table.mem_entries_insertAll he with he | he
      · obtain ⟨ref, -, rfl⟩ := List.mem_map.mp he
        exact hb b List.mem_cons_self
      · exact h e he

theorem step (h : l.Anchored o) (hs : o.Sound) (hr : o.Rooted) (a : Action) :
    (l.step o a).Anchored (o.step a) := by
  refine binds (fun e he => ?_) fun b hb => hr.of_bound hs hb
  have hrooted := h.meets hs hr a.mentions e he
  rwa [Outline.isRooted_step hs a (hs.tree.lt_size_of_isRooted hrooted)]

theorem run (h : l.Anchored o) (hs : o.Sound) (hr : o.Rooted) (as : List Action) :
    (l.run o as).Anchored (o.run as) := by
  induction as generalizing o l with
  | nil => exact h
  | cons a as ih => exact ih (h.step hs hr a) (hs.step a) (hr.step hs a)

theorem retryAll (h : l.Anchored o) (hs : o.Sound) (hr : o.Rooted) (reportUnresolved : Bool) :
    (l.retryAll o reportUnresolved).Anchored o := by
  have hfold : ∀ (paths : List PathRef) (l : Ledger), l.Anchored o →
      (paths.foldl (retry o reportUnresolved) l).Anchored o := by
    intro paths
    induction paths with
    | nil => exact fun _ h => h
    | cons path paths ih =>
        intro l h
        apply ih
        intro e he
        rw [links_retry] at he
        exact h.attach hs hr _ e he
  exact hfold _ _ h

end Anchored

end Ledger

namespace Linkage

variable {files : List SourceFile}

theorem isRooted_of_linked? {reportUnresolved : Bool} {generation : Nat} {id : AstId}
    {node : NodeId} (h : (link files reportUnresolved generation).linked? id = some node) :
    (link files reportUnresolved generation).tree.isRooted node = true := by
  have hrooted : (outlineOf files).Rooted := Outline.rooted_start.run .start _
  have hanchored : (closingOf files reportUnresolved).Anchored (outlineOf files) := by
    intro e he
    rw [closingOf, Ledger.links_close] at he
    refine Ledger.Anchored.retryAll ?_ (sound_outlineOf files) hrooted reportUnresolved e he
    exact Ledger.Anchored.run (fun _ h => by cases h) .start Outline.rooted_start _
  rw [(Tree.sameShape_bare _).isRooted, link_tree_bare]
  rw [linked?, link_links] at h
  exact hanchored _ (Table.mem_of_get? h)

/-- The references of a property in force are among those written in the files. -/
theorem exists_mention {reportUnresolved : Bool} {generation : Nat} {node : NodeId}
    {p : Property}
    (hp : p ∈ ((link files reportUnresolved generation).node node).properties.values)
    {ref : Reference} (href : ref ∈ p.definition.references) :
    ∃ m ∈ mentionsOf files, m.role = .value ∧ m.ref = ref := by
  have hstart : Outline.start.tree.Cites [] := by
    intro id p hp
    rw [show Outline.start.tree = Tree.start from rfl, Tree.node_start] at hp
    split at hp <;> cases hp
  have hcites : (outlineOf files).tree.Cites ((actionsOf files).flatMap Action.definitions) :=
    Outline.cites_run .start hstart _
  have hbare : p ∈ ((outlineOf files).tree.node node).properties.values := by
    rwa [← link_tree_bare files reportUnresolved generation, Tree.node_bare]
  obtain ⟨a, ha, hd⟩ := List.mem_flatMap.mp (hcites node p hbare)
  obtain ⟨definition, rfl⟩ : ∃ definition, a = .property definition := by
    cases a with
    | property definition => exact ⟨definition, rfl⟩
    | _ => cases hd
  obtain rfl := List.mem_singleton.mp hd
  refine ⟨⟨p.definition.ref, ref, .value⟩, ?_, rfl, rfl⟩
  apply (mentionsOf_perm files).mem_iff.mp
  exact List.mem_flatMap.mpr ⟨_, ha, List.mem_map_of_mem href⟩

/-- In files as read, a reference of a property in force is linked to a live node or reported,
unless it is linked to a node that was deleted or hangs under one that was. -/
theorem noticed_iff_target_kept (files : List SourceFile) (generation : Nat)
    (hparsed : ∀ f ∈ files, f.Parsed) (hnodup : (files.map (·.file)).Nodup) :
    let l := link files true generation
    ∀ id, ∀ p ∈ (l.node id).properties.values, ∀ ref ∈ p.definition.references,
      ((∃ node, l.linked? ref.id = some node ∧ l.tree.isLive node = true) ∨
          l.unresolvedAt ref.span ≠ []) ↔
        ∀ node, l.linked? ref.id = some node →
          ∀ member ∈ l.tree.lineage node, (l.node member).deleted = false := by
  intro l id p hp ref href
  obtain ⟨m, hm, hv, rfl⟩ := exists_mention hp href
  have hat : l.unresolvedAt m.ref.span =
      if (l.linked? m.ref.id).isNone then [m.ref.unresolved] else [] := by
    rw [unresolvedAt_eq hparsed hnodup generation hm,
      Mention.failsIn_of_ne_delete (by rw [hv]; decide)]
    rfl
  cases hl : l.linked? m.ref.id with
  | none =>
      rw [hl, Option.isNone_none, if_pos rfl] at hat
      apply iff_of_true
      · right
        rw [hat]
        exact List.cons_ne_nil _ _
      · intro node hnode
        cases hnode
  | some node =>
      rw [hl, Option.isNone_some, if_neg Bool.false_ne_true] at hat
      have hlive : l.tree.isLive node = true ↔
          ∀ member ∈ l.tree.lineage node, (l.node member).deleted = false := by
        rw [Tree.isLive_iff_isRooted]
        exact and_iff_right (isRooted_of_linked? hl)
      constructor
      · rintro (⟨other, hother, hkept⟩ | hissue) found hfound
        · cases hother
          cases hfound
          exact hlive.mp hkept
        · exact absurd hat hissue
      · intro hkept
        exact .inl ⟨node, rfl, hlive.mpr (hkept node rfl)⟩

/-- Of the three references that wait at first, one is linked to a live node and two are
reported. -/
theorem waitingFile_all_noticed :
    let l := link [waitingFile, bindingFile] true 0
    ((l.node Tree.root).properties.values.flatMap (·.definition.references)).length = 3 ∧
    ∀ p ∈ (l.node Tree.root).properties.values, ∀ ref ∈ p.definition.references,
      (∃ node, l.linked? ref.id = some node ∧ l.tree.isLive node = true) ∨
        l.unresolvedAt ref.span ≠ [] := by
  intro l
  refine ⟨by decide +kernel, fun p hp ref href => ?_⟩
  have hparsed : ∀ f ∈ [waitingFile, bindingFile], f.Parsed := by
    intro f hf
    rcases List.mem_cons.mp hf with rfl | hf
    · exact ⟨_, rfl⟩
    · rw [List.mem_singleton.mp hf]
      exact ⟨_, rfl⟩
  have htarget : ∀ p ∈ (l.node Tree.root).properties.values, ∀ ref ∈ p.definition.references,
      l.linked? ref.id = none ∨ l.linked? ref.id = some ⟨1⟩ := by
    decide +kernel
  have hkept : ∀ member ∈ l.tree.lineage ⟨1⟩, (l.node member).deleted = false := by
    decide +kernel
  apply (noticed_iff_target_kept [waitingFile, bindingFile] 0 hparsed (by decide) Tree.root p hp
    ref href).mpr
  intro node hnode
  rcases htarget p hp ref href with hnone | hsome
  · cases hnone.symm.trans hnode
  · cases hsome.symm.trans hnode
    exact hkept

/-- A node deleted after a reference to it was linked, read from
`/{a:n{};p=<&a>;};/delete-node/&a;`. -/
def danglingFile : SourceFile :=
  .read ⟨0⟩ "/\x7ba:n\x7b\x7d;p=<&a>;\x7d;/delete-node/&a;".toList

/-- The reference of a live node's property is linked to a node that is not live, and there is no
issue at its place. -/
theorem danglingFile_unnoticed :
    let l := link [danglingFile] true 0
    ¬ ∀ id, l.tree.isLive id = true → ∀ p ∈ (l.node id).properties.values,
      ∀ ref ∈ p.definition.references,
        (∃ node, l.linked? ref.id = some node ∧ l.tree.isLive node = true) ∨
          l.unresolvedAt ref.span ≠ [] := by
  intro l h
  have hlive : l.tree.isLive Tree.root = true := by decide +kernel
  have hdead : l.tree.isLive ⟨1⟩ = false := by decide +kernel
  have hsome : (l.node Tree.root).properties.values.flatMap (·.definition.references) ≠ [] := by
    decide +kernel
  have hlinked : ∀ p ∈ (l.node Tree.root).properties.values, ∀ ref ∈ p.definition.references,
      l.linked? ref.id = some ⟨1⟩ ∧ l.unresolvedAt ref.span = [] := by
    decide +kernel
  obtain ⟨ref, hmem⟩ := List.exists_mem_of_ne_nil _ hsome
  obtain ⟨p, hp, href⟩ := List.mem_flatMap.mp hmem
  obtain ⟨htarget, hnone⟩ := hlinked p hp ref href
  rcases h Tree.root hlive p hp ref href with ⟨node, hnode, hkept⟩ | hissue
  · cases htarget.symm.trans hnode
    cases hdead.symm.trans hkept
  · exact hissue hnone

end Linkage

end Devicetree
