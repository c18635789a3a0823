import Devicetree.Proofs.Linkage.Accounts
import Devicetree.Proofs.Linkage.Turns

/-!
# Every statement is applied once, to the right node

When statements have numbers of their own, the owner of a statement is the node that its action
is about. Together with the turn that each statement has, this tells the owner from the place
where a statement is written. A node lists the blocks it owns, each once, and no node is there
without a block.
-/

namespace Devicetree

/-- Where keys are distinct, what can be read from a table is what was written. -/
theorem Table.get?_insertAll_eq_some {κ ν : Type} [DecidableEq κ] {es : List (κ × ν)}
    (hn : (es.map (·.1)).Nodup) {k : κ} {v : ν} :
    (Table.empty.insertAll es).get? k = some v ↔ (k, v) ∈ es := by
  have hread : ∀ {w : ν}, (Table.empty.insertAll es).get? k = some w → (k, w) ∈ es := by
    intro w hw
    rcases mem_entries_insertAll (mem_of_get? hw) with h | h
    · exact h
    · cases h
  refine ⟨hread, fun h => ?_⟩
  obtain ⟨w, hw⟩ : ∃ w, (Table.empty.insertAll es).get? k = some w := by
    apply Option.ne_none_iff_exists'.mp
    intro hnone
    exact (get?_insertAll_eq_none.mp hnone).2 _ h rfl
  have heq : (k, w) = (k, v) := List.inj_on_of_nodup_map hn (hread hw) h rfl
  rw [hw, (Prod.mk.inj heq).2]

theorem Action.id?_of_block? {a : Action} {ref : AstRef} (h : a.block? = some ref) :
    a.id? = some ref.id := by
  cases a with
  | enter head =>
      cases h
      rfl
  | _ => cases h

theorem Action.mentions_reference {head : BlockHead} {ref : Reference}
    (htarget : head.target = .reference ref) :
    (Action.enter head).mentions = [⟨head.ref, ref, .block⟩] := by
  obtain ⟨id, labels, target, span⟩ := head
  cases htarget
  rfl

namespace Outline

variable {o : Outline}

theorem subject_root {head : BlockHead} {slash : Span} (htarget : head.target = .root slash) :
    o.subject (.enter head) = Tree.root := by
  rw [subject, enter, htarget]
  rfl

theorem subject_reference {head : BlockHead} {ref : Reference} {node : NodeId}
    (htarget : head.target = .reference ref) (h : o.target? ref = some node) :
    o.subject (.enter head) = node := by
  simp only [subject, enter, htarget, h]
  rfl

/-- The only new node of a block is the one that it is about. -/
theorem new_of_enter {head : BlockHead} {id : NodeId}
    (h : id.index < (o.enter head).tree.size) :
    id.index < o.tree.size ∨ id = o.subject (.enter head) := by
  have hnext : ∀ {size : Nat}, id.index < size + 1 → id.index < size ∨ id = ⟨size⟩ := by
    intro size hlt
    rcases Nat.lt_succ_iff_lt_or_eq.mp hlt with hlt | heq
    · exact .inl hlt
    · exact .inr (congrArg NodeId.mk heq)
  rw [subject]
  revert h
  rw [enter]
  split
  · simp only [define, Tree.size_modify]
    exact .inl
  · split
    · simp only [define, Tree.size_modify]
      exact .inl
    · simp only [define, Tree.size_modify, Tree.size_addChild]
      exact hnext
  · split
    · simp only [define, Tree.size_modify]
      exact .inl
    · simp only [define, Tree.size_modify, Tree.size_addStandIn]
      exact hnext

theorem size_step {a : Action} (h : a.block? = none) : (o.step a).tree.size = o.tree.size := by
  cases a with
  | clash name first => rfl
  | enter head => cases h
  | leave => rfl
  | property definition => exact Tree.size_modify ..
  | deleteProperty delete => exact Tree.size_modify ..
  | deleteNode delete =>
      rw [step, deleteNode]
      cases o.doomed? delete.target with
      | none => rfl
      | some target =>
          simp only [remove]
          cases hu : o.tree.deleteNode? target delete.ref with
          | none => rfl
          | some tree => exact Tree.size_of_deleteNode? hu

theorem subject_lt_size (hs : o.Sound) (a : Action) :
    (o.subject a).index < (o.step a).tree.size := by
  cases hb : a.block? with
  | none =>
      have hscope : o.subject a = o.scope.node := by
        cases a with
        | enter head => cases hb
        | _ => rfl
      rw [hscope, size_step hb]
      exact hs.scope_node_lt
  | some ref =>
      cases a with
      | enter head =>
          obtain ⟨t, node, detached, he, hlt, -⟩ := enter_eq_define hs head
          rw [subject, step, he, define, Tree.size_modify]
          exact hlt
      | _ => cases hb

/-- A node that comes up in a run has a block about it. -/
theorem block_of_new {as : List Action} {id : NodeId} (h : id.index < (o.run as).tree.size) :
    id.index < o.tree.size ∨ ∃ head, (.enter head, id) ∈ o.journal as := by
  induction as generalizing o with
  | nil => exact .inl h
  | cons a as ih =>
      rcases ih h with hlt | ⟨head, hmem⟩
      · cases hb : a.block? with
        | none => exact .inl (size_step hb ▸ hlt)
        | some ref =>
            cases a with
            | enter head =>
                rcases new_of_enter hlt with hlt | rfl
                · exact .inl hlt
                · exact .inr ⟨head, List.mem_cons_self⟩
            | _ => cases hb
      · exact .inr ⟨head, List.mem_cons_of_mem _ hmem⟩

end Outline

namespace Linkage

variable {files : List SourceFile}

theorem TurnAt.mem_journal {s : Statement} {count : Nat} (h : TurnAt files s count) :
    (s.opening, (passAt files count).outline.subject s.opening) ∈ journalOf files := by
  obtain ⟨hlt, ha⟩ := List.getElem?_eq_some_iff.mp h.action
  have hsplit := List.take_append_drop count (actionsOf files)
  rw [journalOf, ← hsplit, Outline.journal_append, List.drop_eq_getElem_cons hlt, ha,
    Outline.journal, outline_passAt]
  exact List.mem_append_right _ List.mem_cons_self

/-- A node lists the blocks that are about it. -/
theorem definitions_link (files : List SourceFile) (reportUnresolved : Bool) (generation : Nat)
    (id : NodeId) :
    ((link files reportUnresolved generation).node id).definitions =
      ((journalOf files).about id).filterMap Action.block? := by
  have htale : ((link files reportUnresolved generation).node id).tale.definitions = _ :=
    congrArg Node.definitions (tale_link files reportUnresolved generation id)
  exact htale.trans (Node.definitions_perform _ _)

/-- The owner of a block that stands in a body of a node: the root, or a child of that node, or
the node that the block's reference is linked to. -/
def PlacesBlock (l : Linkage) (outer : NodeId) (head : BlockHead) : Prop :=
  match head.target with
  | .root _ => l.owner? head.id = some Tree.root
  | .child name => ∃ node, l.owner? head.id = some node ∧
      (l.node node).parent = some outer ∧ (l.node node).name = name.value
  | .reference ref => (head.ref ∈ l.referenceBlocks ↔ l.linked? ref.id ≠ none) ∧
      ∀ node, l.linked? ref.id = some node → l.owner? head.id = some node

/-- The owner of a statement that stands in a body of a node. Any but a block belong to that
node. -/
def Places (l : Linkage) (outer : NodeId) : Statement → Prop
  | .block head _ => l.PlacesBlock outer head
  | .property p => l.owner? p.id = some outer
  | .deleteNode d => l.owner? d.id = some outer
  | .deleteProperty d => l.owner? d.id = some outer

section Parsed

variable (hparsed : ∀ f ∈ files, f.Parsed) (hnodup : (files.map (·.file)).Nodup)
include hparsed hnodup

/-- No two actions carry out the same statement. -/
theorem nodup_action_ids : ((actionsOf files).flatMap fun a => a.id?.toList).Nodup := by
  have hcargo : Action.Cargo fun a => a.id?.toList := ⟨fun _ _ => rfl, rfl⟩
  have hopening : ∀ s : Statement, s.opening.id?.toList = [s.id] := by
    intro s
    cases s <;> rfl
  rw [(actionsOf_perm hcargo files).nodup_iff, List.flatMap_congr fun s _ => hopening s,
    ← List.map_eq_flatMap]
  exact nodup_statement_ids hparsed hnodup

variable {reportUnresolved : Bool} {generation : Nat}

/-- The owner of a statement is the node that its action is about. -/
theorem owner?_eq_some {id : AstId} {node : NodeId} :
    (link files reportUnresolved generation).owner? id = some node ↔
      ∃ a, a.id? = some id ∧ (a, node) ∈ journalOf files := by
  have hkeys : ((journalOf files).owned.map (·.1)).Nodup := by
    rw [Journal.map_fst_owned, journalOf, Outline.map_fst_journal]
    exact nodup_action_ids hparsed hnodup
  rw [owner?, link_owners, Table.get?_insertAll_eq_some hkeys, Journal.mem_owned]

theorem TurnAt.owner? {s : Statement} {count : Nat} (h : TurnAt files s count) :
    (link files reportUnresolved generation).owner? s.id =
      some ((passAt files count).outline.subject s.opening) := by
  apply (owner?_eq_some hparsed hnodup).mpr
  refine ⟨s.opening, ?_, h.mem_journal⟩
  cases s <;> rfl

/-! ### Blocks -/

theorem nodup_definitions (id : NodeId) :
    ((link files reportUnresolved generation).node id).definitions.Nodup := by
  obtain ⟨-, hdisjoint⟩ := List.nodup_flatMap.mp (nodup_action_ids hparsed hnodup)
  rw [definitions_link]
  refine (hdisjoint.sublist (about_sublist files id)).filterMap _ ?_
  rintro a b hab r hr _ hr' rfl
  exact hab (Option.mem_toList.mpr (Action.id?_of_block? hr))
    (Option.mem_toList.mpr (Action.id?_of_block? hr'))

/-- A node lists the blocks that it owns. -/
theorem mem_definitions {head : BlockHead} {body : List Statement}
    (hs : .block head body ∈ statementsOf files) {id : NodeId} :
    head.ref ∈ ((link files reportUnresolved generation).node id).definitions ↔
      (link files reportUnresolved generation).owner? head.id = some id := by
  rw [definitions_link, List.mem_filterMap]
  constructor
  · rintro ⟨a, ha, hr⟩
    exact (owner?_eq_some hparsed hnodup).mpr
      ⟨a, Action.id?_of_block? hr, Journal.mem_about.mp ha⟩
  · intro howner
    obtain ⟨count, hturn⟩ := exists_turnAt hs
    have hnode := (hturn.owner? hparsed hnodup).symm.trans howner
    have hmem := hturn.mem_journal
    rw [Option.some_inj.mp hnode] at hmem
    exact ⟨.enter head, Journal.mem_about.mpr hmem, rfl⟩

/-! ### Places -/

/-- A block by reference is listed as linked exactly if its reference is. -/
theorem mem_referenceBlocks {m : Mention} (hm : m ∈ mentionsOf files) (hb : m.role = .block) :
    m.statement ∈ (link files reportUnresolved generation).referenceBlocks ↔
      (link files reportUnresolved generation).linked? m.ref.id ≠ none := by
  have hreported : m.statement ∈ (link files true generation).referenceBlocks ↔
      (link files true generation).linked? m.ref.id ≠ none := by
    rw [(lists_link hparsed hnodup generation).1,
      mem_statements hparsed hnodup _ false hm hb nofun,
      Mention.failsIn_of_ne_delete (by simp [hb]), Option.isNone_eq_false_iff,
      Option.isSome_iff_ne_none]
    rfl
  cases reportUnresolved with
  | true => exact hreported
  | false =>
      rw [link_false_eq hparsed hnodup generation]
      exact hreported

/-- The reference of a block is linked to what it names when the block has its turn. -/
theorem TurnAt.linked? {head : BlockHead} {body : List Statement} {count : Nat} {ref : Reference}
    (h : TurnAt files (.block head body) count) (htarget : head.target = .reference ref) :
    (link files reportUnresolved generation).linked? ref.id =
      (passAt files count).outline.target? ref := by
  obtain ⟨hlt, ha⟩ := List.getElem?_eq_some_iff.mp h.action
  have hsplit : actionsOf files =
      (actionsOf files).take count ++ .enter head :: (actionsOf files).drop (count + 1) := by
    rw [← Statement.opening, ← ha, ← List.drop_eq_getElem_cons hlt, List.take_append_drop]
  rw [Linkage.linked?, link_links, outline_passAt]
  exact links_of_site (nodup_mention_ids hparsed hnodup) hsplit
    (Action.mentions_reference htarget) nofun

theorem TurnAt.places_block {head : BlockHead} {body : List Statement} {count : Nat}
    (h : TurnAt files (.block head body) count) :
    (link files reportUnresolved generation).PlacesBlock
      (passAt files count).outline.scope.node head := by
  have howner : (link files reportUnresolved generation).owner? head.id =
      some ((passAt files count).outline.subject (.enter head)) := h.owner? hparsed hnodup
  rw [PlacesBlock]
  split
  · rename_i htarget
    rw [howner, Outline.subject_root htarget]
  · rename_i name htarget
    obtain ⟨hmem, hname⟩ := child_of_name h.action htarget
    have hwell := wellFormed_passAt files (count + 1)
    have hlater := (continues_link files reportUnresolved generation (count + 1)).tree.node _
      (hwell.lt_size_of_mem_children hmem)
    exact ⟨_, howner, hlater.parent.trans (hwell.mem_children.mp hmem).1,
      hlater.name.trans hname⟩
  · rename_i ref htarget
    have hmention : ⟨head.ref, ref, .block⟩ ∈ mentionsOf files := by
      apply (mentionsOf_perm files).mem_iff.mp
      refine List.mem_flatMap.mpr ⟨.enter head, List.mem_of_getElem? h.action, ?_⟩
      rw [Action.mentions_reference htarget]
      exact List.mem_cons_self
    refine ⟨mem_referenceBlocks hparsed hnodup hmention rfl, fun node hnode => ?_⟩
    rw [h.linked? hparsed hnodup htarget] at hnode
    rw [howner, Outline.subject_reference htarget hnode]

theorem TurnAt.places {s : Statement} {count : Nat} (h : TurnAt files s count) :
    (link files reportUnresolved generation).Places (passAt files count).outline.scope.node s := by
  cases s with
  | block head body => exact h.places_block hparsed hnodup
  | property p => exact h.owner? hparsed hnodup
  | deleteNode d => exact h.owner? hparsed hnodup
  | deleteProperty d => exact h.owner? hparsed hnodup

end Parsed

theorem owner_lt_size {s : Statement} {count : Nat} (h : TurnAt files s count)
    (reportUnresolved : Bool) (generation : Nat) :
    ((passAt files count).outline.subject s.opening).index <
      (link files reportUnresolved generation).tree.size := by
  have hlt := Outline.subject_lt_size (sound_passAt files count) s.opening
  have hsize : (passAt files (count + 1)).outline.tree.size =
      (passAt files (count + 1)).tree.size := Tree.size_bare _
  rw [← Pass.outline_step, ← passAt_succ h.action, hsize] at hlt
  exact Nat.lt_of_lt_of_le hlt
    (continues_link files reportUnresolved generation (count + 1)).tree.size_le

/-- Only blocks that are written are listed. -/
theorem block_of_mem_definitions {reportUnresolved : Bool} {generation : Nat} {id : NodeId}
    {ref : AstRef}
    (h : ref ∈ ((link files reportUnresolved generation).node id).definitions) :
    ∃ head body, .block head body ∈ statementsOf files ∧ head.ref = ref := by
  have hcargo : Action.Cargo fun a => a.block?.toList := ⟨fun _ _ => rfl, rfl⟩
  rw [definitions_link] at h
  obtain ⟨a, ha, hr⟩ := List.mem_filterMap.mp h
  have haction := (about_sublist files id).subset ha
  obtain ⟨s, hs, hmem⟩ := List.mem_flatMap.mp ((actionsOf_perm hcargo files).mem_iff.mp
    (List.mem_flatMap.mpr ⟨a, haction, Option.mem_toList.mpr hr⟩))
  cases s with
  | block head body => exact ⟨head, body, hs, Option.some_inj.mp (Option.mem_toList.mp hmem)⟩
  | _ => cases hmem

/-- No node but the root is there without a block. -/
theorem definitions_ne_nil {reportUnresolved : Bool} {generation : Nat} {id : NodeId}
    (hne : id ≠ Tree.root)
    (hlt : id.index < (link files reportUnresolved generation).tree.size) :
    ((link files reportUnresolved generation).node id).definitions ≠ [] := by
  rw [← Tree.size_bare, link_tree_bare, outlineOf] at hlt
  rcases Outline.block_of_new hlt with hlt | ⟨head, hmem⟩
  · have hzero : id.index = 0 := Nat.lt_one_iff.mp hlt
    exact absurd (congrArg NodeId.mk hzero) hne
  · rw [definitions_link]
    apply List.ne_nil_of_mem (a := head.ref)
    exact List.mem_filterMap.mpr ⟨.enter head, Journal.mem_about.mpr hmem, rfl⟩

/-- In files as read every statement has an owner among the nodes. A block is listed once, at its
owner, no other blocks are listed, and every node but the root has one. The owner of a statement
is told from the body it stands in, which is a body of the root at the top level: see `Places`. -/
theorem statements_applied_once (files : List SourceFile) (reportUnresolved : Bool)
    (generation : Nat) (hparsed : ∀ f ∈ files, f.Parsed)
    (hnodup : (files.map (·.file)).Nodup) :
    let l := link files reportUnresolved generation
    (∀ s ∈ statementsOf files,
      ∃ node, l.owner? s.id = some node ∧ node.index < l.tree.size) ∧
    (∀ head body, .block head body ∈ statementsOf files →
      ∀ id, (l.node id).definitions.count head.ref =
        if l.owner? head.id = some id then 1 else 0) ∧
    (∀ id, ∀ ref ∈ (l.node id).definitions,
      ∃ head body, .block head body ∈ statementsOf files ∧ head.ref = ref) ∧
    (∀ id, id ≠ Tree.root → id.index < l.tree.size → (l.node id).definitions ≠ []) ∧
    (∀ f ∈ files, ∀ s ∈ f.statements, l.Places Tree.root s) ∧
    (∀ head body, .block head body ∈ statementsOf files →
      ∃ node, l.owner? head.id = some node ∧ ∀ s ∈ body, l.Places node s) := by
  intro l
  refine ⟨?_, ?_, fun id ref => block_of_mem_definitions, fun id => definitions_ne_nil, ?_, ?_⟩
  · intro s hs
    obtain ⟨count, hturn⟩ := exists_turnAt hs
    exact ⟨_, hturn.owner? hparsed hnodup, owner_lt_size hturn reportUnresolved generation⟩
  · intro head body hs id
    rw [(nodup_definitions hparsed hnodup id).count]
    exact if_congr (mem_definitions hparsed hnodup hs) rfl rfl
  · intro f hf s hs
    obtain ⟨count, hturn, hscopes⟩ := TurnAt.exists_top hf hs
    have hplace : l.Places (passAt files count).outline.scope.node s :=
      hturn.places hparsed hnodup
    rwa [Outline.scope, hscopes] at hplace
  · intro head body hs
    obtain ⟨count, hturn⟩ := exists_turnAt hs
    refine ⟨_, hturn.owner? hparsed hnodup, fun s hmem => ?_⟩
    obtain ⟨later, hlater, hscope⟩ := hturn.exists_of_mem_body hmem
    have hplace : l.Places (passAt files later).outline.scope.node s :=
      hlater.places hparsed hnodup
    rwa [hscope] at hplace

/-- A child with a property, read from `/{a:n{x;};};`. -/
def ownedFile : SourceFile :=
  .read ⟨0⟩ "/\x7ba:n\x7bx;\x7d;\x7d;".toList

/-- A second block of the child that deletes its own child, and a block without a node, read from
`&a{/delete-node/m;m{};};&b{q{};};`. -/
def ownedOverlay : SourceFile :=
  .read ⟨1⟩ "&a\x7b/delete-node/m;m\x7b\x7d;\x7d;&b\x7bq\x7b\x7d;\x7d;".toList

theorem ownedFile_applied_once :
    let files := [ownedFile, ownedOverlay]
    let l := link files true 0
    ((statementsOf files).map fun s => l.owner? s.id) =
      [some ⟨0⟩, some ⟨1⟩, some ⟨1⟩, some ⟨1⟩, some ⟨1⟩, some ⟨2⟩, some ⟨3⟩, some ⟨4⟩] ∧
    (∀ head body, .block head body ∈ statementsOf files →
      ∀ id, (l.node id).definitions.count head.ref =
        if l.owner? head.id = some id then 1 else 0) ∧
    (l.node ⟨1⟩).definitions.length = 2 := by
  have hparsed : ∀ f ∈ [ownedFile, ownedOverlay], f.Parsed := by
    simp only [List.forall_mem_cons]
    exact ⟨⟨_, rfl⟩, ⟨_, rfl⟩, nofun⟩
  have h := statements_applied_once [ownedFile, ownedOverlay] true 0 hparsed (by decide +kernel)
  exact ⟨by decide +kernel, h.2.1, by decide +kernel⟩

end Linkage

end Devicetree
