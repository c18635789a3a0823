import Devicetree.Linkage.Query
import Devicetree.Proofs.Linkage.Schedule
import Devicetree.Proofs.Overlay.View
import Devicetree.Proofs.Source.Spelling

/-!
# A path leads back to its node

Every node of a linked tree that has a parent is named by a word of some file, so its path falls
apart into the names along its lineage. Following those from the root leads back: of the children
in force of a node no two share a name, and one that is named exactly goes before all others.
-/

namespace Devicetree

namespace Tree

/-- The root has its name, and every node that has a parent has a name of some kind. -/
structure Named (kind : UnitName → Prop) (t : Tree) : Prop where
  root : (t.node Tree.root).name = ⟨"/", none⟩
  child : ∀ {id parent}, (t.node id).parent = some parent → kind (t.node id).name

namespace Named

variable {kind : UnitName → Prop} {t u : Tree}

theorem start : Named kind start where
  root := rfl
  child {id parent} h := by
    rw [node_start] at h
    split at h <;> cases h

theorem of_sameShape (h : t.Named kind) (hs : t.SameShape u) : u.Named kind where
  root := (hs.node Tree.root).name.symm.trans h.root
  child {id parent} hp := by
    rw [← (hs.node id).parent] at hp
    rw [← (hs.node id).name]
    exact h.child hp

theorem addChild (h : t.Named kind) {parent : NodeId} (hp : parent.index < t.size)
    {name : UnitName} (hname : kind name) : (t.addChild parent name).Named kind where
  root := by
    have hne : Tree.root ≠ t.nextId := ne_nextId (Nat.zero_lt_of_lt hp)
    rw [addChild_name hp, if_neg hne]
    exact h.root
  child {id above} hup := by
    rw [addChild_parent hp] at hup
    rw [addChild_name hp]
    split at hup
    · rwa [if_pos ‹_›]
    · rw [if_neg ‹_›]
      exact h.child hup

theorem addStandIn (h : t.Named kind) : t.addStandIn.Named kind where
  root := by
    rw [node_addStandIn]
    exact h.root
  child {id parent} hp := by
    rw [node_addStandIn] at hp ⊢
    exact h.child hp

theorem deleteNode? (h : t.Named kind) (ht : t.WellFormed) {target : NodeId} {deletedBy : AstRef}
    (hu : t.deleteNode? target deletedBy = some u) : u.Named kind := by
  obtain ⟨parent, hp, -⟩ := Option.map_eq_some_iff.mp hu
  have hlt := ht.parent_lt hp
  constructor
  · rw [deleteNode?_name hp hlt hu]
    exact h.root
  · intro id above hup
    rw [deleteNode?_parent hp hlt hu] at hup
    rw [deleteNode?_name hp hlt hu]
    exact h.child hup

end Named

theorem reach?_append (t : Tree) (start : NodeId) (path rest : List UnitName) :
    t.reach? start (path ++ rest) = (t.reach? start path).bind (t.reach? · rest) := by
  induction path generalizing start with
  | nil => rfl
  | cons segment path ih =>
      rw [List.cons_append, reach?, reach?, Option.bind_assoc]
      congr 1
      funext child
      exact ih child

namespace WellFormed

variable {t : Tree} (ht : t.WellFormed)
include ht

/-- A child is found by its name. -/
theorem lookup?_self {parent child : NodeId} (hc : child ∈ (t.node parent).children) :
    t.lookup? parent (t.node child).name = some child := by
  have hfind := ht.findChild?_self hc
  rw [findChild?] at hfind
  rw [lookup?, select?, hfind]

/-- The names along a lineage lead back to the node. -/
theorem reach?_names {id : NodeId} (h : t.Under root id) :
    t.reach? root (t.names id) = some id := by
  induction h with
  | refl =>
      rw [ht.names_root]
      rfl
  | @child parent id _ hc ih =>
      rw [ht.names_child hc, reach?_append, ih, Option.bind_some, reach?, ht.lookup?_self hc]
      rfl

/-- The path of a live node goes through names of nodes that have a parent. -/
theorem kind_of_mem_names {kind : UnitName → Prop} (hn : t.Named kind) {id : NodeId}
    (h : t.Under root id) : ∀ n ∈ t.names id, kind n := by
  induction h with
  | refl =>
      rw [ht.names_root]
      exact List.forall_mem_nil _
  | @child parent id _ hc ih =>
      rw [ht.names_child hc]
      intro n hmem
      rcases List.mem_append.mp hmem with hmem | hmem
      · exact ih n hmem
      · rw [List.mem_singleton.mp hmem]
        exact hn.child (ht.mem_children.mp hc).1

end WellFormed

/-- The path of a node is its names with a slash before each, or a slash alone. -/
theorem toList_path (t : Tree) (id : NodeId) :
    (t.path id).toList = '/' :: ['/'].intercalate ((t.names id).map (·.text.toList)) := by
  rw [path, names]
  split
  · rename_i hnil
    rw [hnil]
    rfl
  · rename_i hne
    cases hmembers : (t.lineage id).dropLast.reverse with
    | nil => exact absurd (List.reverse_eq_nil_iff.mp hmembers) hne
    | cons member members =>
        rw [List.map_map, List.map_cons, List.map_cons, cons_intercalate, String.toList_join]
        simp [List.flatMap_map]

end Tree

/-- The names of the children that an action opens. -/
def Action.childNames : Action → List UnitName
  | .enter head => head.target.childName?.toList
  | _ => []

namespace Outline

variable {kind : UnitName → Prop} {o : Outline}

theorem named_enter (hs : o.Sound) (ht : o.tree.Named kind) {head : BlockHead}
    (hhead : ∀ n ∈ (Action.enter head).childNames, kind n) : (o.enter head).tree.Named kind := by
  have hopened : ∀ {t : Tree}, t.Named kind → ∀ node, (t.modify node (·.opened head)).Named kind :=
    fun h node => h.of_sameShape (Tree.sameShape_modify _ node (·.sameShape_opened head))
  unfold enter
  split
  · exact hopened ht _
  · rename_i name htarget
    have hname : kind name.value := by
      apply hhead
      rw [Action.childNames, htarget]
      exact List.mem_singleton_self _
    split
    · exact hopened ht _
    · exact hopened (ht.addChild hs.scope_node_lt hname) _
  · split
    · exact hopened ht _
    · exact hopened ht.addStandIn _

/-- Nodes are named as the blocks that open them say. -/
theorem named_step (hs : o.Sound) (ht : o.tree.Named kind) {a : Action}
    (ha : ∀ n ∈ a.childNames, kind n) : (o.step a).tree.Named kind := by
  cases a with
  | clash name first => exact ht
  | leave => exact ht
  | enter head => exact named_enter hs ht ha
  | property definition =>
      exact ht.of_sameShape (Tree.sameShape_modify _ _ (·.sameShape_define definition))
  | deleteProperty delete =>
      exact ht.of_sameShape
        (Tree.sameShape_modify _ _ (·.sameShape_undefine delete.name.value delete.ref))
  | deleteNode delete =>
      rw [step, deleteNode]
      cases o.doomed? delete.target with
      | none => exact ht
      | some target =>
          change (o.remove target delete.ref).tree.Named kind
          unfold remove
          split
          · exact ht.deleteNode? hs.tree ‹_›
          · exact ht

theorem named_run (hs : o.Sound) (ht : o.tree.Named kind) {as : List Action}
    (has : ∀ n ∈ as.flatMap Action.childNames, kind n) : (o.run as).tree.Named kind := by
  induction as generalizing o with
  | nil => exact ht
  | cons a as ih =>
      rw [List.flatMap_cons] at has
      apply ih (hs.step a)
      · exact named_step hs ht fun n hn => has n (List.mem_append_left _ hn)
      · exact fun n hn => has n (List.mem_append_right _ hn)

end Outline

namespace Linkage

variable {files : List SourceFile}

theorem childNames_actionsOf (hparsed : ∀ f ∈ files, f.Parsed) :
    ∀ n ∈ (actionsOf files).flatMap Action.childNames, n.Proper := by
  intro n hn
  have hperm := actionsOf_perm ⟨fun _ _ => rfl, rfl⟩ files (g := Action.childNames)
  obtain ⟨s, hs, hmem⟩ := List.mem_flatMap.mp (hperm.mem_iff.mp hn)
  obtain ⟨f, hf, hsf⟩ := List.mem_flatMap.mp hs
  apply (hparsed f hf).proper_childNames
  have hopening : s.opening.childNames = s.childName?.toList := by
    cases s <;> rfl
  rw [hopening, Option.mem_toList] at hmem
  exact List.mem_filterMap.mpr ⟨s, hsf, hmem⟩

/-- In the tree of parsed files every node that has a parent has a proper name. -/
theorem named_link (hparsed : ∀ f ∈ files, f.Parsed) (reportUnresolved : Bool) (generation : Nat) :
    (link files reportUnresolved generation).tree.Named UnitName.Proper := by
  have hbare : (link files reportUnresolved generation).tree.bare.Named UnitName.Proper := by
    rw [link_tree_bare, outlineOf]
    exact Outline.named_run .start .start (childNames_actionsOf hparsed)
  exact hbare.of_sameShape (Tree.sameShape_bare _).symm

/-- A path of proper names falls apart into their written forms. -/
theorem pathSegments_of_names {path : String} {names : List UnitName}
    (hpath : path.toList = '/' :: ['/'].intercalate (names.map (·.text.toList)))
    (hproper : ∀ n ∈ names, n.Proper) : pathSegments path = "/" :: names.map (·.text) := by
  have hsplit := UnitName.splitOn_intercalate (fun n hn => (hproper n hn).text_ne_nil)
    fun n hn => (hproper n hn).slash_not_mem
  simp only [pathSegments, hpath, hsplit, List.map_map]
  simp

/-- Written names are followed as the names themselves are. -/
theorem foldlM_text (t : Tree) {names : List UnitName} (hproper : ∀ n ∈ names, n.Proper)
    (start : NodeId) :
    (names.map (·.text)).foldlM (fun node segment => t.lookup? node (UnitName.read segment))
      start = t.reach? start names := by
  induction names generalizing start with
  | nil => rfl
  | cons n ns ih =>
      have hn := (hproper n List.mem_cons_self).read_text
      rw [List.map_cons, List.foldlM_cons, hn, Tree.reach?]
      apply congrArg (Option.bind (t.lookup? start n))
      funext child
      exact ih (fun m hm => hproper m (List.mem_cons_of_mem _ hm)) child

/-- In a linkage of parsed files the path of every live node leads back to that node, so no two
live nodes have one path. -/
theorem live_nodes_identified_by_path (hparsed : ∀ f ∈ files, f.Parsed) (reportUnresolved : Bool)
    (generation : Nat) :
    let l := link files reportUnresolved generation
    (∀ id, l.tree.isLive id = true → l.resolve? (l.tree.path id) = some id) ∧
    ∀ a b, l.tree.isLive a = true → l.tree.isLive b = true → l.tree.path a = l.tree.path b →
      a = b := by
  intro l
  have hw : l.tree.WellFormed := wellFormed_link files reportUnresolved generation
  have hback : ∀ id, l.tree.isLive id = true → l.resolve? (l.tree.path id) = some id := by
    intro id hid
    have hunder := hw.isLive_iff_under.mp hid
    have hproper := hw.kind_of_mem_names (named_link hparsed reportUnresolved generation) hunder
    calc l.resolve? (l.tree.path id)
        = l.resolveSegments? ("/" :: (l.tree.names id).map (·.text)) := by
          rw [resolve?, pathSegments_of_names (l.tree.toList_path id) hproper]
      _ = l.tree.reach? Tree.root (l.tree.names id) := foldlM_text l.tree hproper Tree.root
      _ = some id := hw.reach?_names hunder
  refine ⟨hback, fun a b ha hb hpath => ?_⟩
  apply Option.some.inj
  rw [← hback a ha, ← hback b hb, hpath]

/-- Two children of one name, the first with an address, and two nodes with units that are no
address: one has a second `@`, the other does not fit into a word. Read from
`/{n@01{};n{m@a@2{@10000000000000000{};};};};`. -/
def namesakesFile : SourceFile :=
  .read ⟨0⟩ "/\x7bn@01\x7b\x7d;n\x7bm@a@2\x7b@10000000000000000\x7b\x7d;\x7d;\x7d;\x7d;".toList

/-- Without its address the first child is not meant, whichever of the two was there before. -/
theorem namesakesFile_identified :
    let l := link [namesakesFile] true 0
    (∀ f ∈ [namesakesFile], f.Parsed) ∧
      [1, 2, 4].map (fun index => l.tree.path ⟨index⟩) =
        ["/n@1", "/n", "/n/m@a@2/@10000000000000000"] ∧
      l.resolve? (l.tree.path ⟨1⟩) = some ⟨1⟩ ∧ l.resolve? (l.tree.path ⟨2⟩) = some ⟨2⟩ ∧
      l.resolve? (l.tree.path ⟨4⟩) = some ⟨4⟩ := by
  have hparsed : ∀ f ∈ [namesakesFile], f.Parsed := by
    intro f hf
    rw [List.mem_singleton.mp hf]
    exact ⟨_, rfl⟩
  have hback := (live_nodes_identified_by_path hparsed true 0).1
  exact ⟨hparsed, by decide +kernel, hback ⟨1⟩ (by decide +kernel), hback ⟨2⟩ (by decide +kernel),
    hback ⟨4⟩ (by decide +kernel)⟩

end Linkage

end Devicetree
