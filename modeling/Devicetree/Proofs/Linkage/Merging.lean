import Devicetree.Proofs.Linkage.Duplicates
import Devicetree.Proofs.Linkage.Ownership

/-!
# Which blocks of a body are about one node

The blocks of a body are opened one after another, before anything else in it. So two blocks of
one name are about one node, unless that node was deleted in between, and this only a delete
written inside one of the blocks from the first up to the second can do. A delete in the body
itself comes too late for it. Whether the check of the body reports the second block is another
matter: it goes by the deletes in the body alone.
-/

namespace Devicetree

/-- The deletes of nodes that an action carries out. -/
def Action.deletes : Action → List DeleteNode
  | .deleteNode delete => [delete]
  | _ => []

theorem Action.cargo_deletes : Cargo deletes := ⟨fun _ _ => rfl, rfl⟩

theorem Action.mem_deletes {as : List Action} {d : DeleteNode} :
    d ∈ as.flatMap deletes ↔ .deleteNode d ∈ as := by
  rw [List.mem_flatMap]
  constructor
  · rintro ⟨a, ha, hd⟩
    cases a with
    | deleteNode delete => exact List.mem_singleton.mp hd ▸ ha
    | _ => cases hd
  · exact fun h => ⟨_, h, List.mem_singleton_self d⟩

/-! ### Tombstones -/

namespace Outline

variable {o : Outline}

/-- Only a delete adds a tombstone. -/
theorem deletedNodes_step (hs : o.Sound) (a : Action) (id : NodeId) :
    ∃ late, ((o.step a).tree.node id).deletedNodes = (o.tree.node id).deletedNodes ++ late ∧
      ∀ s ∈ late, ∃ d ∈ a.deletes, s.deletedBy = d.ref := by
  have hquiet : ∀ {t : Tree}, (t.node id).deletedNodes = (o.tree.node id).deletedNodes →
      ∃ late, (t.node id).deletedNodes = (o.tree.node id).deletedNodes ++ late ∧
        ∀ s ∈ late, ∃ d ∈ a.deletes, s.deletedBy = d.ref :=
    fun h => ⟨[], by rw [h, List.append_nil], nofun⟩
  have hmodify : ∀ {t : Tree} (node : NodeId) {f : Node → Node}, (∀ n : Node, n.SameShape (f n)) →
      ((t.modify node f).node id).deletedNodes = (t.node id).deletedNodes :=
    fun {t} node {f} hf => ((t.sameShape_modify node hf).node id).deletedNodes.symm
  cases a with
  | clash name first => exact hquiet rfl
  | leave => exact hquiet rfl
  | property definition => exact hquiet (hmodify _ (·.sameShape_define definition))
  | deleteProperty delete => exact hquiet (hmodify _ (·.sameShape_undefine _ _))
  | enter head =>
      have hopened : ∀ (t : Tree) (node : NodeId),
          ((t.modify node (·.opened head)).node id).deletedNodes = (t.node id).deletedNodes :=
        fun t node => hmodify node (·.sameShape_opened head)
      simp only [step, enter]
      split
      · exact hquiet (hopened _ _)
      · cases o.tree.findChild? o.scope.node _ with
        | some child => exact hquiet (hopened _ _)
        | none =>
            exact hquiet ((hopened _ _).trans (Tree.addChild_deletedNodes hs.scope_node_lt _ id))
      · cases o.target? _ with
        | some node => exact hquiet (hopened _ _)
        | none => exact hquiet ((hopened _ _).trans (by rw [Tree.node_addStandIn]))
  | deleteNode delete =>
      simp only [step, deleteNode]
      cases o.doomed? delete.target with
      | none => exact hquiet rfl
      | some target =>
          simp only [remove]
          cases hu : o.tree.deleteNode? target delete.ref with
          | none => exact hquiet rfl
          | some tree =>
              obtain ⟨parent, hp, -⟩ := Option.map_eq_some_iff.mp hu
              have hlt := hs.tree.parent_lt hp
              by_cases hid : id = parent
              · refine ⟨[⟨target, delete.ref⟩], ?_, fun s hs => ?_⟩
                · rw [Tree.deleteNode?_deletedNodes hp hlt hu, if_pos hid]
                · rw [List.mem_singleton.mp hs]
                  exact ⟨delete, List.mem_singleton_self _, rfl⟩
              · exact hquiet (by rw [Tree.deleteNode?_deletedNodes hp hlt hu, if_neg hid])

/-- The tombstones that a run adds are of its deletes. -/
theorem deletedNodes_run (hs : o.Sound) (as : List Action) (id : NodeId) :
    ∃ late, ((o.run as).tree.node id).deletedNodes = (o.tree.node id).deletedNodes ++ late ∧
      ∀ s ∈ late, ∃ d ∈ as.flatMap Action.deletes, s.deletedBy = d.ref := by
  induction as generalizing o with
  | nil => exact ⟨[], (List.append_nil _).symm, nofun⟩
  | cons a as ih =>
      obtain ⟨first, hfirst, hdeletes⟩ := deletedNodes_step hs a id
      obtain ⟨rest, hrest, hdeletes'⟩ := ih (hs.step a)
      refine ⟨first ++ rest, by rw [run_cons, hrest, hfirst, List.append_assoc], fun s hs => ?_⟩
      rw [List.flatMap_cons]
      rcases List.mem_append.mp hs with hs | hs
      · exact (hdeletes s hs).imp fun d h => ⟨List.mem_append_left _ h.1, h.2⟩
      · exact (hdeletes' s hs).imp fun d h => ⟨List.mem_append_right _ h.1, h.2⟩

end Outline

namespace Linkage

variable {files : List SourceFile}

theorem deletedNodes_outline (p : Pass) (id : NodeId) :
    (p.outline.tree.node id).deletedNodes = (p.tree.node id).deletedNodes := by
  rw [Pass.outline, Tree.node_bare]
  rfl

/-- The tombstones that are added from one moment to another. -/
theorem deletedNodes_passAt (files : List SourceFile) (count more : Nat) (id : NodeId) :
    ∃ late, ((passAt files (count + more)).tree.node id).deletedNodes =
        ((passAt files count).tree.node id).deletedNodes ++ late ∧
      ∀ s ∈ late, ∃ d ∈ (((actionsOf files).drop count).take more).flatMap Action.deletes,
        s.deletedBy = d.ref := by
  obtain ⟨late, hlate, hdeletes⟩ := Outline.deletedNodes_run (sound_passAt files count)
    (((actionsOf files).drop count).take more) id
  rw [← Pass.outline_run, ← passAt_add, deletedNodes_outline, deletedNodes_outline] at hlate
  exact ⟨late, hlate, hdeletes⟩

/-- The tombstones that are added from some moment to the end. -/
theorem deletedNodes_link (files : List SourceFile) (reportUnresolved : Bool)
    (generation count : Nat) (id : NodeId) :
    ∃ late, ((link files reportUnresolved generation).node id).deletedNodes =
        ((passAt files count).tree.node id).deletedNodes ++ late ∧
      ∀ s ∈ late, ∃ d ∈ ((actionsOf files).drop count).flatMap Action.deletes,
        s.deletedBy = d.ref := by
  have hend : (link files reportUnresolved generation).tree.bare =
      (passAt files (count + (actionsOf files).length)).outline.tree := by
    rw [link_tree_bare, outline_passAt, List.take_of_length_le (Nat.le_add_left _ _)]
    rfl
  have hnode : ((link files reportUnresolved generation).tree.bare.node id).deletedNodes =
      ((link files reportUnresolved generation).node id).deletedNodes := by
    rw [Tree.node_bare]
    rfl
  obtain ⟨late, hlate, hdeletes⟩ :=
    deletedNodes_passAt files count (actionsOf files).length id
  rw [List.take_of_length_le (by simp)] at hdeletes
  rw [← hnode, hend, deletedNodes_outline]
  exact ⟨late, hlate, hdeletes⟩

/-- No delete is carried out twice. -/
theorem delete_ref_ne (hparsed : ∀ f ∈ files, f.Parsed) (hnodup : (files.map (·.file)).Nodup)
    {count : Nat} {d d' : DeleteNode} (hd : .deleteNode d ∈ (actionsOf files).take count)
    (hd' : .deleteNode d' ∈ (actionsOf files).drop count) : d.ref ≠ d'.ref := by
  have hids := nodup_action_ids hparsed hnodup
  rw [← List.take_append_drop count (actionsOf files), List.flatMap_append] at hids
  have hne : d.id ≠ d'.id := (List.nodup_append.mp hids).2.2
    d.id (List.mem_flatMap.mpr ⟨_, hd, List.mem_singleton_self _⟩)
    d'.id (List.mem_flatMap.mpr ⟨_, hd', List.mem_singleton_self _⟩)
  exact fun heq => hne (congrArg AstRef.id heq)

/-! ### Two blocks of one name -/

section Pair

variable {count more : Nat} {head head' : BlockHead} {name name' : NodeName}
  (hfirst : (actionsOf files)[count]? = some (.enter head))
  (hsecond : (actionsOf files)[count + more]? = some (.enter head'))
  (hname : head.target = .child name)

include hfirst hname in
/-- A node that was just defined has no tombstone. -/
theorem target_ne_of_enter {s : Tombstone NodeId}
    (hs : s ∈ ((passAt files (count + 1)).tree.node
      (passAt files count).outline.scope.node).deletedNodes) :
    s.target ≠ (passAt files count).outline.subject (.enter head) := by
  have hw := wellFormed_passAt files (count + 1)
  have hkept := (hw.mem_children.mp (child_of_name hfirst hname).1).2
  intro heq
  have hdead := (hw.mem_tombstones.mp ⟨s, hs, heq⟩).2
  rw [hkept] at hdead
  cases hdead

include hfirst hsecond hname in
/-- Two blocks of one name in one body are about one node, unless the first has got a tombstone
by the turn of the second. -/
theorem subject_eq_iff (hname' : head'.target = .child name') (hvalue : name.value = name'.value)
    (hscope : (passAt files (count + more)).outline.scope.node =
      (passAt files count).outline.scope.node) :
    (passAt files count).outline.subject (.enter head) =
        (passAt files (count + more)).outline.subject (.enter head') ↔
      ∀ s ∈ ((passAt files (count + (more + 1))).tree.node
        (passAt files count).outline.scope.node).deletedNodes,
        s.target ≠ (passAt files count).outline.subject (.enter head) := by
  obtain ⟨hchild, hchildName⟩ := child_of_name hfirst hname
  obtain ⟨hchild', hchildName'⟩ := child_of_name hsecond hname'
  rw [← Pass.outline_scope] at hchild hchild'
  rw [hscope] at hchild'
  have hw := wellFormed_passAt files (count + (more + 1))
  constructor
  · intro heq s hs htarget
    have hkept := (hw.mem_children.mp hchild').2
    have hdead := (hw.mem_tombstones.mp ⟨s, hs, htarget⟩).2
    rw [heq, hkept] at hdead
    cases hdead
  · intro hnone
    have hparent := ((wellFormed_passAt files (count + 1)).mem_children.mp hchild).1
    have hlt := (wellFormed_passAt files (count + 1)).lt_size_of_mem_children hchild
    have hcontinues := (continues_passAt files (count + 1) more).tree.node _ hlt
    rw [Nat.add_right_comm, Nat.add_assoc] at hcontinues
    have hkept : ((passAt files (count + (more + 1))).tree.node
        ((passAt files count).outline.subject (.enter head))).deleted = false := by
      rw [← Bool.not_eq_true]
      intro hdead
      obtain ⟨s, hs, htarget⟩ := hw.mem_tombstones.mpr ⟨hcontinues.parent.trans hparent, hdead⟩
      exact hnone s hs htarget
    refine hw.siblings (hw.mem_children.mpr ⟨hcontinues.parent.trans hparent, hkept⟩) hchild' ?_
    rw [hcontinues.name, hchildName, hvalue]
    exact hchildName'.symm

include hfirst hsecond hname in
/-- A node has got a tombstone between two blocks if the tombstone it has in the end is of a
delete that was carried out between them. -/
theorem exists_tombstone_iff (hparsed : ∀ f ∈ files, f.Parsed)
    (hnodup : (files.map (·.file)).Nodup) (reportUnresolved : Bool) (generation : Nat) :
    (∃ s ∈ ((passAt files (count + (more + 1))).tree.node
        (passAt files count).outline.scope.node).deletedNodes,
        s.target = (passAt files count).outline.subject (.enter head)) ↔
      ∃ d, .deleteNode d ∈ ((actionsOf files).drop count).take more ∧
        ⟨(passAt files count).outline.subject (.enter head), d.ref⟩ ∈
          ((link files reportUnresolved generation).node
            (passAt files count).outline.scope.node).deletedNodes := by
  obtain ⟨later, hlater, hdeletes⟩ := deletedNodes_link files reportUnresolved generation
    (count + (more + 1)) (passAt files count).outline.scope.node
  rw [hlater]
  constructor
  · rintro ⟨s, hs, htarget⟩
    obtain ⟨early, hearly, -⟩ := deletedNodes_passAt files count 1
      (passAt files count).outline.scope.node
    obtain ⟨late, hlate, hlateDeletes⟩ := deletedNodes_passAt files count (more + 1)
      (passAt files count).outline.scope.node
    have hmem := hs
    rw [hlate] at hmem
    rcases List.mem_append.mp hmem with hmem | hmem
    · refine absurd htarget (target_ne_of_enter hfirst hname ?_)
      rw [hearly]
      exact List.mem_append_left _ hmem
    · obtain ⟨d, hd, hby⟩ := hlateDeletes s hmem
      have hlast : ((actionsOf files).drop count)[more]? = some (.enter head') := by
        rw [List.getElem?_drop]
        exact hsecond
      rw [List.take_add_one, hlast, Action.mem_deletes] at hd
      refine ⟨d, ?_, List.mem_append_left _ ?_⟩
      · simpa using hd
      · rw [← htarget, ← hby]
        exact hs
  · rintro ⟨d, hd, hmem⟩
    rcases List.mem_append.mp hmem with hmem | hmem
    · exact ⟨_, hmem, rfl⟩
    · -- A later tombstone is of a later delete.
      obtain ⟨d', hd', hby⟩ := hdeletes _ hmem
      have hearlier : .deleteNode d ∈ (actionsOf files).take (count + (more + 1)) := by
        rw [List.take_drop] at hd
        exact List.take_subset_take_left _ (Nat.add_le_add_left (Nat.le_succ more) count)
          (List.mem_of_mem_drop hd)
      exact absurd hby (delete_ref_ne hparsed hnodup hearlier (Action.mem_deletes.mp hd'))

end Pair

end Linkage

namespace Statement

/-- A delete of a node that is written inside a block. -/
def Encloses (s : Statement) (d : DeleteNode) : Prop :=
  s.isBlock = true ∧ .deleteNode d ∈ s.all

theorem exists_of_childName? {s : Statement} {value : UnitName} (h : s.childName? = some value) :
    ∃ head body name, s = .block head body ∧ head.target = .child name ∧ name.value = value := by
  cases s with
  | block head body =>
      cases htarget : head.target with
      | child name =>
          rw [childName?, htarget] at h
          exact ⟨head, body, name, rfl, htarget, Option.some_inj.mp h⟩
      | _ => rw [childName?, htarget] at h; cases h
  | _ => cases h

theorem deleteNode_mem_actions {s : Statement} {d : DeleteNode} :
    .deleteNode d ∈ s.actions ↔ .deleteNode d ∈ s.all := by
  rw [← Action.mem_deletes, (actions_perm Action.cargo_deletes s).mem_iff, List.mem_flatMap]
  constructor
  · rintro ⟨t, ht, hd⟩
    cases t with
    | deleteNode delete => exact List.mem_singleton.mp hd ▸ ht
    | _ => cases hd
  · exact fun h => ⟨_, h, List.mem_singleton_self d⟩

/-- The deletes carried out by the blocks among some statements are those written inside them. -/
theorem deleteNode_mem_blockActions {ss : List Statement} {d : DeleteNode} :
    .deleteNode d ∈ blockActions ss ↔ ∃ s ∈ ss, s.Encloses d := by
  induction ss with
  | nil => simp [blockActions]
  | cons s ss ih =>
      rw [blockActions]
      by_cases hblock : s.isBlock = true
      · simp [hblock, ih, deleteNode_mem_actions, Encloses]
      · simp [hblock, ih, Encloses]

end Statement

namespace Linkage

variable {files : List SourceFile}

/-- From the turn of one block of a body to that of a later one, the blocks in between have their
turns, and nothing else. -/
theorem TurnAt.exists_pair {head : BlockHead} {front mid after : List Statement}
    {s t : Statement} {count : Nat}
    (h : TurnAt files (.block head (front ++ s :: mid ++ t :: after)) count)
    (hs : s.isBlock = true) (ht : t.isBlock = true) :
    ∃ first, let second := first + (Statement.blockActions (s :: mid)).length
      TurnAt files s first ∧ TurnAt files t second ∧
      (passAt files first).outline.scope.node =
        (passAt files count).outline.subject (.enter head) ∧
      (passAt files second).outline.scope.node =
        (passAt files count).outline.subject (.enter head) ∧
      ((actionsOf files).drop first).take (Statement.blockActions (s :: mid)).length =
        Statement.blockActions (s :: mid) := by
  let body := front ++ s :: mid ++ t :: after
  let ahead := Statement.clashes body ++ Statement.blockActions front
  let leaves := body.filterMap Statement.leafAction?
  have hahead : Action.Even ahead :=
    (Statement.even_clashes body).append (Statement.even_blockActions front)
  have hblock : ∀ {u : Statement} (ss : List Statement), u.isBlock = true →
      Statement.blockActions (u :: ss) = u.actions ++ Statement.blockActions ss :=
    fun ss hu => by rw [Statement.blockActions, if_pos hu]
  have hsecond : Statement.bodyActions body = ahead ++ Statement.blockActions (s :: mid) ++
      t.actions ++ (Statement.blockActions after ++ leaves) := by
    simp only [Statement.bodyActions, body, ahead, leaves, Statement.blockActions_append,
      hblock after ht, List.append_assoc]
  have hfirst : Statement.bodyActions body = ahead ++ s.actions ++
      (Statement.blockActions mid ++ t.actions ++ (Statement.blockActions after ++ leaves)) := by
    simp only [hsecond, hblock mid hs, List.append_assoc]
  obtain ⟨hturn, hscope⟩ := h.in_body hahead hfirst
  obtain ⟨hturn', hscope'⟩ :=
    h.in_body (hahead.append (Statement.even_blockActions (s :: mid))) hsecond
  rw [List.length_append, ← Nat.add_assoc] at hturn' hscope'
  refine ⟨count + 1 + ahead.length, hturn, hturn', hscope, hscope', ?_⟩
  obtain ⟨rest, hrest⟩ := h.drop_body
  rw [← List.drop_drop, hrest, hsecond]
  simp only [List.append_assoc, List.drop_left, List.take_left]

section Parsed

variable (hparsed : ∀ f ∈ files, f.Parsed) (hnodup : (files.map (·.file)).Nodup)
include hparsed hnodup

/-- In files as read, two blocks of a body that open a child of one name are about one node,
unless a delete written inside one of the blocks from the first up to the second deleted the node
that the first is about. -/
theorem owner_eq_iff (reportUnresolved : Bool) (generation : Nat) {head : BlockHead}
    {front mid after : List Statement} {s t : Statement} {value : UnitName}
    (hblock : .block head (front ++ s :: mid ++ t :: after) ∈ statementsOf files)
    (hs : s.childName? = some value) (ht : t.childName? = some value) :
    let l := link files reportUnresolved generation
    ∃ parent a b, l.owner? head.id = some parent ∧ l.owner? s.id = some a ∧
      l.owner? t.id = some b ∧
      (a = b ↔ ¬∃ u ∈ s :: mid, ∃ d, u.Encloses d ∧ ⟨a, d.ref⟩ ∈ (l.node parent).deletedNodes) := by
  intro l
  obtain ⟨head₁, body₁, name₁, rfl, htarget₁, rfl⟩ := Statement.exists_of_childName? hs
  obtain ⟨head₂, body₂, name₂, rfl, htarget₂, hvalue⟩ := Statement.exists_of_childName? ht
  obtain ⟨count, hturn⟩ := exists_turnAt hblock
  obtain ⟨first, hfirst, hsecond, hscope, hscope', htake⟩ := hturn.exists_pair rfl rfl
  refine ⟨_, _, _, hturn.owner? hparsed hnodup, hfirst.owner? hparsed hnodup,
    hsecond.owner? hparsed hnodup, ?_⟩
  have htombstone := exists_tombstone_iff hfirst.action hsecond.action htarget₁ hparsed hnodup
    reportUnresolved generation
  have hsubject := subject_eq_iff hfirst.action hsecond.action htarget₁ htarget₂ hvalue.symm
    (hscope'.trans hscope.symm)
  rw [htake, hscope] at htombstone
  rw [hscope] at hsubject
  refine hsubject.trans ⟨?_, ?_⟩
  · rintro hnone ⟨u, hu, d, hd, hmem⟩
    have hcarried := Statement.deleteNode_mem_blockActions.mpr ⟨u, hu, hd⟩
    obtain ⟨s, hs, htarget⟩ := htombstone.mpr ⟨d, hcarried, hmem⟩
    exact hnone s hs htarget
  · intro hnone s hs htarget
    obtain ⟨d, hcarried, hmem⟩ := htombstone.mp ⟨s, hs, htarget⟩
    obtain ⟨u, hu, hd⟩ := Statement.deleteNode_mem_blockActions.mp hcarried
    exact hnone ⟨u, hu, d, hd, hmem⟩

end Parsed

/-- In files as read, for a block of a child in a body: there is an issue at its name exactly if
an earlier block of the body opens a child of the same name, and the body does not delete that
name in between. An earlier block of the same name is about the same node, unless a delete
written inside one of the blocks from that one on deleted its node; a delete of the name in the
body itself does not part the two. So where no delete comes in between, neither in the body nor
inside its blocks, there is an issue exactly if an earlier block of the same name is about the
same node. -/
theorem duplicates_and_merging (files : List SourceFile) (reportUnresolved : Bool)
    (generation : Nat) (hparsed : ∀ f ∈ files, f.Parsed)
    (hnodup : (files.map (·.file)).Nodup) {head : BlockHead} {before after : List Statement}
    {s : Statement} {name : NodeName}
    (hblock : .block head (before ++ s :: after) ∈ statementsOf files)
    (hname : s.child? = some name) :
    let l := link files reportUnresolved generation
    let reported := ∃ i ∈ l.issues, i.kind = .duplicateNodeName ∧ i.span = name.span
    (reported ↔ Statement.LeavesNamed name.value before) ∧
    ∃ parent, l.owner? head.id = some parent ∧
      (∀ front t mid, before = front ++ t :: mid → t.childName? = some name.value →
        ∃ a b, l.owner? t.id = some a ∧ l.owner? s.id = some b ∧
          (a = b ↔ ¬∃ u ∈ t :: mid, ∃ d, u.Encloses d ∧
            ⟨a, d.ref⟩ ∈ (l.node parent).deletedNodes)) ∧
      ((∀ u ∈ before, u.deletedName? ≠ some name.value) →
        (∀ u ∈ before, ∀ d, u.Encloses d → ∀ id, ⟨id, d.ref⟩ ∉ (l.node parent).deletedNodes) →
        (reported ↔ ∃ t ∈ before, t.childName? = some name.value ∧
          l.owner? t.id = l.owner? s.id)) := by
  intro l reported
  have hreported : reported ↔ Statement.LeavesNamed name.value before :=
    duplicate_iff hparsed hnodup reportUnresolved generation hblock hname
  have hvalue : s.childName? = some name.value := by
    rw [Statement.childName?_eq, hname]
    rfl
  obtain ⟨count, hturn⟩ := exists_turnAt hblock
  obtain ⟨parent, hparent⟩ : ∃ parent, l.owner? head.id = some parent :=
    ⟨_, hturn.owner? hparsed hnodup⟩
  have hmerged : ∀ front t mid, before = front ++ t :: mid → t.childName? = some name.value →
      ∃ a b, l.owner? t.id = some a ∧ l.owner? s.id = some b ∧
        (a = b ↔ ¬∃ u ∈ t :: mid, ∃ d, u.Encloses d ∧
          ⟨a, d.ref⟩ ∈ (l.node parent).deletedNodes) := by
    rintro front t mid rfl ht
    obtain ⟨owner, a, b, howner, ha, hb, hiff⟩ :=
      owner_eq_iff hparsed hnodup reportUnresolved generation hblock ht hvalue
    obtain rfl := Option.some_inj.mp (hparent.symm.trans howner)
    exact ⟨a, b, ha, hb, hiff⟩
  refine ⟨hreported, parent, hparent, hmerged, fun hbody hinside => ?_⟩
  rw [hreported]
  constructor
  · rintro ⟨front, t, mid, hsplit, ht, -⟩
    obtain ⟨a, b, ha, hb, hiff⟩ := hmerged front t mid hsplit ht
    have hsub : ∀ u ∈ t :: mid, u ∈ before := fun u hu => hsplit ▸ List.mem_append_right _ hu
    have heq : a = b := hiff.mpr fun ⟨u, hu, d, hd, hmem⟩ => hinside u (hsub u hu) d hd a hmem
    exact ⟨t, hsub t List.mem_cons_self, ht, by rw [ha, hb, heq]⟩
  · rintro ⟨t, ht, hvalue, -⟩
    obtain ⟨front, mid, rfl⟩ := List.append_of_mem ht
    refine ⟨front, t, mid, rfl, hvalue, fun u hu => hbody u ?_⟩
    exact List.mem_append_right _ (List.mem_cons_of_mem t hu)

/-- Two blocks of a name, and a block in between that deletes the node of the first by its label,
read from `/{x:a{};b{/delete-node/&x;};a{};};`. -/
def partedFile : SourceFile :=
  .read ⟨0⟩ "/\x7bx:a\x7b\x7d;b\x7b/delete-node/&x;\x7d;a\x7b\x7d;\x7d;".toList

theorem partedFile_reported :
    let l := link [partedFile] true 0
    ∃ head s t u name, .block head [s, t, u] ∈ statementsOf [partedFile] ∧
      u.child? = some name ∧ s.childName? = some name.value ∧
      (∃ i ∈ l.issues, i.kind = .duplicateNodeName ∧ i.span = name.span) ∧
      l.owner? s.id ≠ l.owner? u.id ∧
      ∃ v ∈ [s, t], ∃ d, v.Encloses d ∧ ⟨⟨1⟩, d.ref⟩ ∈ (l.node Tree.root).deletedNodes := by
  intro l
  have hparsed : ∀ f ∈ [partedFile], f.Parsed := by
    simp only [List.mem_singleton, forall_eq]
    exact ⟨_, rfl⟩
  have hbody : ∃ b ∈ statementsOf [partedFile],
      b.body.map (·.childName?) = [some ⟨"a", none⟩, some ⟨"b", none⟩, some ⟨"a", none⟩] ∧
      b.body.map (·.deletedName?) = [none, none, none] ∧ l.owner? b.id = some Tree.root ∧
      b.body.map (fun s => l.owner? s.id) = [some ⟨1⟩, some ⟨2⟩, some ⟨3⟩] := by
    decide +kernel
  obtain ⟨b, hblock, hnames, hdeletes, hroot, howners⟩ := hbody
  cases b with
  | block head body =>
      obtain ⟨s, t, u, rfl⟩ : ∃ s t u, body = [s, t, u] :=
        List.length_eq_three.mp ((List.length_map _).symm.trans (congrArg List.length howners))
      simp only [Statement.body, List.map_cons, List.map_nil, List.cons.injEq, and_true]
        at hnames hdeletes howners
      obtain ⟨name, hname, hvalue⟩ :=
        Option.map_eq_some_iff.mp (u.childName?_eq.symm.trans hnames.2.2)
      have hs : s.childName? = some name.value := hvalue ▸ hnames.1
      obtain ⟨hreported, parent, hparent, hmerged, -⟩ :=
        duplicates_and_merging [partedFile] true 0 hparsed (List.nodup_singleton _)
          (show Statement.block head ([s, t] ++ [u]) ∈ _ from hblock) hname
      obtain ⟨a, b, ha, hb, hiff⟩ := hmerged [] s [t] rfl hs
      obtain rfl := Option.some_inj.mp (howners.1.symm.trans ha)
      obtain rfl := Option.some_inj.mp (howners.2.2.symm.trans hb)
      obtain rfl := Option.some_inj.mp (hroot.symm.trans hparent)
      refine ⟨head, s, t, u, name, hblock, hname, hs, hreported.mpr ?_, ?_, ?_⟩
      · exact ⟨[], s, [t], rfl, hs, by simp [hdeletes]⟩
      · simp [howners]
      · exact not_not.mp fun hnone => absurd (hiff.mpr hnone) (by decide)
  | _ => cases hnames

/-- Two blocks of a name that the body deletes in between, read from
`/{a{};/delete-node/a;a{};};`. -/
def redefinedFile : SourceFile :=
  .read ⟨0⟩ "/\x7ba\x7b\x7d;/delete-node/a;a\x7b\x7d;\x7d;".toList

/-- The two blocks are about one node and there is no issue: the blocks of a body are resolved
before its deletes. -/
theorem redefinedFile_one_node_unreported :
    redefinedFile.Parsed ∧
    let l := link [redefinedFile] true 0
    ∃ b ∈ statementsOf [redefinedFile],
      b.body.map (·.childName?) = [some ⟨"a", none⟩, none, some ⟨"a", none⟩] ∧
      b.body.map (·.deletedName?) = [none, some ⟨"a", none⟩, none] ∧
      b.body.map (fun s => l.owner? s.id) = [some ⟨1⟩, some Tree.root, some ⟨1⟩] ∧
      l.issues = [] := by
  refine ⟨⟨_, rfl⟩, ?_⟩
  decide +kernel

end Linkage

end Devicetree
