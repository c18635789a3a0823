import Devicetree.Proofs.Overlay.View

/-!
# Linking refines overlays

The live tree that linking builds, and its label table, are what the files say as an overlay,
provided that root blocks, reference blocks and deletes of a reference stand at the top level
only. A body is then about one node, and its actions change the value at that node's path. The
body of a block whose target was not found is about a node that is not live, and nothing it does
shows.
-/

namespace Devicetree

namespace Tree

/-- What a body about a node leaves as it is: paths, and the life of what came before the node. -/
structure Keeps (bound : NodeId) (t u : Tree) : Prop where
  size_le : t.size ≤ u.size
  names : ∀ id, id.index < t.size → u.names id = t.names id
  dead : ∀ id, id.index < t.size → t.isLive id = false → u.isLive id = false
  live : ∀ id, id.index ≤ bound.index → t.isLive id = true → u.isLive id = true

namespace Keeps

variable {bound inner : NodeId} {t u w : Tree}

theorem refl (bound : NodeId) (t : Tree) : t.Keeps bound t :=
  ⟨Nat.le_refl _, fun _ _ => rfl, fun _ _ h => h, fun _ _ h => h⟩

theorem trans (htu : t.Keeps bound u) (huw : u.Keeps inner w) (hb : bound.index ≤ inner.index) :
    t.Keeps bound w where
  size_le := Nat.le_trans htu.size_le huw.size_le
  names := fun id hid =>
    (huw.names id (Nat.lt_of_lt_of_le hid htu.size_le)).trans (htu.names id hid)
  dead := fun id hid hd =>
    huw.dead id (Nat.lt_of_lt_of_le hid htu.size_le) (htu.dead id hid hd)
  live := fun id hle hl => huw.live id (Nat.le_trans hle hb) (htu.live id hle hl)

theorem of_sameShape (bound : NodeId) (hs : t.SameShape u) : t.Keeps bound u where
  size_le := Nat.le_of_eq hs.size
  names := fun id _ => (hs.names id).symm
  dead := fun id _ hd => (hs.isLive id).symm.trans hd
  live := fun id _ hl => (hs.isLive id).symm.trans hl

theorem addStandIn (bound : NodeId) (t : Tree) : t.Keeps bound t.addStandIn where
  size_le := by simp
  names := fun id _ => names_congr (by simp) (by simp) id
  dead := fun id _ hd => (isLive_addStandIn t id).trans hd
  live := fun id _ hl => (isLive_addStandIn t id).trans hl

theorem addChild (ht : t.WellFormed) {parent : NodeId} {name : UnitName}
    (hp : parent.index < t.size) (hf : t.findChild? parent name = none)
    (hb : bound.index < t.size) : t.Keeps bound (t.addChild parent name) := by
  have hold : ∀ id : NodeId, id.index < t.size →
      (t.addChild parent name).isLive id = t.isLive id := by
    intro id hid
    rw [ht.isLive_addChild hp hf, if_neg (ne_nextId hid)]
  refine ⟨by simp, fun id hid => ht.names_addChild hp hf hid, fun id hid hd => ?_,
    fun id hle hl => ?_⟩
  · exact (hold id hid).trans hd
  · exact (hold id (Nat.lt_of_le_of_lt hle hb)).trans hl

theorem deleteNode? (ht : t.WellFormed) {target : NodeId} {deletedBy : AstRef}
    (hk : (t.node target).deleted = false) (hu : t.deleteNode? target deletedBy = some u)
    (hb : bound.index < target.index) : t.Keeps bound u := by
  obtain ⟨parent, hp, -⟩ := Option.map_eq_some_iff.mp hu
  have hlt := ht.parent_lt hp
  refine ⟨Nat.le_of_eq (size_of_deleteNode? hu).symm, fun id _ => ?_, fun id _ hd => ?_,
    fun id hle hl => ?_⟩
  · exact names_congr (deleteNode?_parent hp hlt hu) (deleteNode?_name hp hlt hu) id
  · apply Bool.eq_false_iff.mpr
    intro hl
    rw [((ht.isLive_deleteNode? hu hk).mp hl).1] at hd
    cases hd
  · -- Only nodes created after the target can be below it.
    refine (ht.isLive_deleteNode? hu hk).mpr ⟨hl, fun hunder => ?_⟩
    exact Nat.lt_irrefl _ (Nat.lt_of_le_of_lt (Nat.le_trans (hunder.index_le ht) hle) hb)

end Keeps

end Tree

namespace Overlay

theorem blocks_cons (v : Overlay) (path : NodePath) (s : Statement) (ss : List Statement) :
    v.blocks path (s :: ss) = (v.blocks path [s]).blocks path ss := by
  cases s with
  | block head body =>
      obtain ⟨id, labels, target, span⟩ := head
      cases target <;> simp only [blocks]
  | _ => simp only [blocks]

/-- What a body does, or nothing if it is detached. -/
def inPlace (v : Overlay) (place : Option NodePath) (f : NodePath → Overlay → Overlay) : Overlay :=
  match place with
  | some path => f path v
  | none => v

end Overlay

namespace Outline

/-- What an outline shows. -/
def overlay (o : Outline) : Overlay where
  tree := o.tree.rose Tree.root
  labels := o.labels.mapValues o.tree.names

theorem Sound.keeps_remove {o : Outline} (hs : o.Sound) {bound target : NodeId}
    {deletedBy : AstRef} (hk : (o.tree.node target).deleted = false)
    (hb : bound.index < target.index) : o.tree.Keeps bound (o.remove target deletedBy).tree := by
  rw [Outline.remove]
  cases hu : o.tree.deleteNode? target deletedBy with
  | none => exact .refl _ _
  | some u => exact .deleteNode? hs.tree hk hu hb

/-- An outline that shows an overlay. Its labels name live nodes. -/
structure Follows (o : Outline) (v : Overlay) : Prop where
  sound : o.Sound
  live : ∀ e ∈ o.labels.entries, o.tree.isLive e.2 = true
  tree : o.tree.rose Tree.root = v.tree
  labels : o.labels.mapValues o.tree.names = v.labels

theorem mapValues_bind {μ : Type} (g : NodeId → μ) (labels : Table String NodeId) (node : NodeId)
    (bound : List Label) : (bind labels node bound).mapValues g =
      bound.foldl (fun table label => table.insert label.value (g node)) (labels.mapValues g) := by
  induction bound generalizing labels with
  | nil => rfl
  | cons label bound ih =>
      rw [List.foldl_cons, ← Table.mapValues_insert]
      exact ih _

namespace Follows

variable {o : Outline} {v : Overlay} (h : o.Follows v)
include h

theorem labels_of_keeps {bound : NodeId} {u : Tree} (hk : o.tree.Keeps bound u) :
    o.labels.mapValues u.names = v.labels :=
  (Table.mapValues_congr fun e he => hk.names e.2 (h.sound.label_lt e he)).trans h.labels

/-- Only the scopes of an outline do not show. -/
theorem leave : (o.step .leave).Follows v :=
  ⟨h.sound.step .leave, h.live, h.tree, h.labels⟩

/-! ### Changes to one node -/

section Modify

variable {id : NodeId} {f : Node → Node} (hs : ∀ n : Node, n.SameShape (f n))
include hs

theorem modify_dead (hl : o.tree.isLive id = false) :
    { o with tree := o.tree.modify id f }.Follows v where
  sound := h.sound.modify hs
  live := fun e he => ((o.tree.sameShape_modify id hs).isLive e.2).symm.trans (h.live e he)
  tree := (h.sound.tree.rose_modify_dead hs hl).trans h.tree
  labels := h.labels_of_keeps (.of_sameShape id (o.tree.sameShape_modify id hs))

theorem modify {g : Rose → Rose} (hl : o.tree.isLive id = true)
    (hg : ∀ (n : Node) children, (f n).rose children = g (n.rose children)) :
    { o with tree := o.tree.modify id f }.Follows (v.update (o.tree.names id) g) where
  sound := h.sound.modify hs
  live := fun e he => ((o.tree.sameShape_modify id hs).isLive e.2).symm.trans (h.live e he)
  tree := (h.sound.tree.rose_modify hs hl hg).trans (congrArg (Rose.update g _) h.tree)
  labels := h.labels_of_keeps (.of_sameShape id (o.tree.sameShape_modify id hs))

end Modify

theorem define_dead {head : BlockHead} {node : NodeId} (hlt : node.index < o.tree.size)
    (hl : o.tree.isLive node = false) : (o.define head node true).Follows v := by
  have hm := h.modify_dead (·.sameShape_opened head) hl
  exact ⟨h.sound.define hlt Bool.noConfusion, hm.live, hm.tree, hm.labels⟩

theorem define (head : BlockHead) {node : NodeId} (hl : o.tree.isLive node = true) :
    (o.define head node false).Follows (v.bind (o.tree.names node) head.labels) := by
  have hm := h.modify (·.sameShape_opened head) hl (·.rose_opened head)
  have hshape := o.tree.sameShape_modify node (·.sameShape_opened head)
  refine ⟨h.sound.define (h.sound.tree.lt_size_of_isLive hl)
    fun _ => h.sound.tree.kept_of_isLive hl, fun e he => ?_, hm.tree, ?_⟩
  · rcases mem_bind he with ⟨hnode, -⟩ | he
    · rw [hnode]
      exact (hshape.isLive node).symm.trans hl
    · exact hm.live e he
  · have hlabels : o.labels.mapValues (o.tree.modify node (·.opened head)).names = v.labels :=
      hm.labels
    refine (mapValues_bind _ _ _ _).trans ?_
    change head.labels.foldl (fun table label =>
      table.insert label.value ((o.tree.modify node (·.opened head)).names node))
      (o.labels.mapValues (o.tree.modify node (·.opened head)).names) = _
    rw [hlabels, ← hshape.names node]
    rfl

theorem addStandIn : { o with tree := o.tree.addStandIn }.Follows v where
  sound := h.sound.addStandIn
  live := fun e he => (Tree.isLive_addStandIn _ _).trans (h.live e he)
  tree := by
    rw [← h.tree]
    exact h.sound.tree.rose_of_dead h.sound.addStandIn.tree fun id _ =>
      .of_node (o.tree.node_addStandIn id)
  labels := h.labels_of_keeps (.addStandIn Tree.root o.tree)

/-! ### Children -/

section AddChild

variable {parent : NodeId} {name : UnitName} (hp : parent.index < o.tree.size)
  (hf : o.tree.findChild? parent name = none)
include hp hf

theorem isLive_addChild {e : String × NodeId} (he : e ∈ o.labels.entries) :
    (o.tree.addChild parent name).isLive e.2 = true :=
  (Tree.Keeps.addChild h.sound.tree hp hf (h.sound.label_lt e he)).live e.2 (Nat.le_refl _)
    (h.live e he)

theorem addChild_dead (hl : o.tree.isLive parent = false) :
    { o with tree := o.tree.addChild parent name }.Follows v where
  sound := h.sound.addChild hp hf
  live := fun _ he => h.isLive_addChild hp hf he
  tree := (h.sound.tree.rose_addChild_dead hp hf hl).trans h.tree
  labels := h.labels_of_keeps (.addChild h.sound.tree hp hf hp)

theorem addChild (hl : o.tree.isLive parent = true) :
    { o with tree := o.tree.addChild parent name }.Follows
      (v.update (o.tree.names parent) (·.adopt name)) where
  sound := h.sound.addChild hp hf
  live := fun _ he => h.isLive_addChild hp hf he
  tree := (h.sound.tree.rose_addChild hp hf hl).trans (congrArg (Rose.update _ _) h.tree)
  labels := h.labels_of_keeps (.addChild h.sound.tree hp hf hp)

end AddChild

/-- A child that is there already is found again. -/
theorem update_adopt {parent child : NodeId} {name : UnitName}
    (hf : o.tree.findChild? parent name = some child) (hl : o.tree.isLive parent = true) :
    v.update (o.tree.names parent) (·.adopt name) = v := by
  have htree := h.sound.tree.update_adopt_self hf hl
  rw [h.tree] at htree
  rw [Overlay.update, htree]

/-! ### Deletes -/

theorem remove_dead {target : NodeId} {deletedBy : AstRef}
    (hk : (o.tree.node target).deleted = false) (hl : o.tree.isLive target = false) :
    (o.remove target deletedBy).Follows v := by
  have ht := h.sound.tree
  have hsound : (o.remove target deletedBy).Sound := h.sound.remove hk
  rw [Outline.remove] at hsound ⊢
  cases hu : o.tree.deleteNode? target deletedBy with
  | none => exact h
  | some u =>
      rw [hu] at hsound
      obtain ⟨parent, hp, -⟩ := Option.map_eq_some_iff.mp hu
      have hapart : ∀ e ∈ o.labels.entries, ¬ o.tree.Under target e.2 := by
        intro e he hunder
        have hlive := h.live e he
        rw [ht.isLive_of_under hunder, hl] at hlive
        cases hlive
      have hsame : o.labels.filterValues (fun node => !(u.subtree target).contains node) =
          o.labels := by
        refine congrArg Table.mk (List.filter_eq_self.mpr fun e he => ?_)
        rw [Bool.not_eq_true', ← Bool.not_eq_true, List.contains_iff_mem,
          (ht.deleteNode? hk hu).mem_subtree, ht.under_deleteNode? hu]
        exact hapart e he
      simp only [hsame] at hsound ⊢
      refine ⟨hsound, fun e he => ?_, ?_, ?_⟩
      · exact (ht.isLive_deleteNode? hu hk).mpr ⟨h.live e he, hapart e he⟩
      · exact (ht.rose_deleteNode?_dead hp hu hk hl).trans h.tree
      · exact h.labels_of_keeps (.deleteNode? ht hk hu (ht.parent_lt hp))

theorem remove {target : NodeId} {deletedBy : AstRef} (hl : o.tree.isLive target = true) :
    (o.remove target deletedBy).Follows (v.remove (o.tree.names target)) := by
  have ht := h.sound.tree
  have hk := ht.kept_of_isLive hl
  have hsound : (o.remove target deletedBy).Sound := h.sound.remove hk
  cases hp : (o.tree.node target).parent with
  | none =>
      -- A live node without a parent is the root, and it stays.
      have hroot : target = Tree.root := by
        rw [Tree.isLive, Tree.reachesRoot_of_none hp] at hl
        simpa using (Bool.and_eq_true_iff.mp hl).2
      rw [Outline.remove, Tree.deleteNode?, hp, hroot, ht.names_root]
      exact h
  | some parent =>
      obtain ⟨u, hu⟩ : ∃ u, o.tree.deleteNode? target deletedBy = some u :=
        ⟨_, by rw [Tree.deleteNode?, hp, Option.map_some]⟩
      have hkeeps : o.tree.Keeps parent u := .deleteNode? ht hk hu (ht.parent_lt hp)
      rw [Outline.remove, hu] at hsound ⊢
      rw [Overlay.remove, ht.names_of_some hp, List.getLast?_concat, List.dropLast_concat,
        ← ht.names_of_some hp]
      refine ⟨hsound, fun e he => ?_, ?_, ?_⟩
      · obtain ⟨he, hout⟩ := List.mem_filter.mp he
        rw [Bool.not_eq_true', ← Bool.not_eq_true, List.contains_iff_mem,
          (ht.deleteNode? hk hu).mem_subtree, ht.under_deleteNode? hu] at hout
        exact (ht.isLive_deleteNode? hu hk).mpr ⟨h.live e he, hout⟩
      · exact (ht.rose_deleteNode? hp hu hk hl).trans (congrArg (Rose.update _ _) h.tree)
      · rw [← h.labels_of_keeps hkeeps]
        change (o.labels.filterValues fun node => !(u.subtree target).contains node).mapValues
          u.names = (o.labels.mapValues u.names).filterValues fun other =>
            !(o.tree.names target).isPrefixOf other
        apply Table.mapValues_filterValues
        intro e he
        rw [hkeeps.names e.2 (h.sound.label_lt e he)]
        congr 1
        rw [Bool.eq_iff_iff, List.contains_iff_mem, (ht.deleteNode? hk hu).mem_subtree,
          ht.under_deleteNode? hu, List.isPrefixOf_iff_prefix]
        exact ht.under_iff_prefix hl (h.live e he)

/-! ### References -/

/-- A reference leads to the path of the live node it names. -/
theorem target? (ref : Reference) :
    v.target? ref = (o.target? ref).map o.tree.names ∧
      ∀ node, o.target? ref = some node → o.tree.isLive node = true := by
  have ht := h.sound.tree
  cases ref with
  | label ref =>
      refine ⟨?_, fun node hnode => h.live _ (Table.mem_of_get? hnode)⟩
      rw [Overlay.target?, ← h.labels, Table.get?_mapValues]
      rfl
  | path ref =>
      rw [o.target?_path, Overlay.target?, ← h.tree]
      rcases ht.resolve?_rose Tree.root (ref.segments.map (·.value)) with
        ⟨id, path, hid, hunder, hresolve, hnames⟩ | ⟨hid, hresolve⟩
      · rw [hid, hresolve, Option.map_some, hnames, ht.names_root, List.nil_append]
        refine ⟨rfl, fun node hnode => ?_⟩
        cases hnode
        exact ht.isLive_iff_under.mpr hunder
      · rw [hid, hresolve]
        exact ⟨rfl, fun node hnode => by cases hnode⟩

/-- A delete by name finds a child if there is one at that path. -/
theorem doomed?_name {node : NodeId} (hl : o.tree.isLive node = true) (name : NodeName) :
    v.doomed? (o.tree.names node) (.name name) =
      (o.tree.findChild? node name.value).map o.tree.names := by
  have ht := h.sound.tree
  have hcontains : v.tree.contains (o.tree.names node ++ [name.value]) =
      (o.tree.findChild? node name.value).isSome := by
    rw [← h.tree, ht.contains_rose (ht.isLive_iff_under.mp hl)
      (by rw [ht.names_root, List.nil_append]), Rose.contains, ht.child?_rose]
    cases o.tree.findChild? node name.value <;> rfl
  rw [Overlay.doomed?, hcontains]
  cases hf : o.tree.findChild? node name.value with
  | none => rfl
  | some child =>
      obtain ⟨hc, hname⟩ := Tree.mem_of_findChild? hf
      rw [Option.map_some, ht.names_child hc, hname]
      rfl

end Follows

/-- The innermost open body is about the live node at a path, or it is detached. -/
def Stands (o : Outline) : Option NodePath → Prop
  | some path => o.scope.detached = false ∧ o.tree.isLive o.scope.node = true ∧
      o.tree.names o.scope.node = path
  | none => o.scope.detached = true ∧ o.tree.isLive o.scope.node = false

theorem Stands.of_keeps {o o' : Outline} {place : Option NodePath} (h : o.Stands place)
    (hs : o.Sound) (hscopes : o'.scopes = o.scopes) (hk : o.tree.Keeps o.scope.node o'.tree) :
    o'.Stands place := by
  have hscope : o'.scope = o.scope := by rw [scope, scope, hscopes]
  have hlt := hs.scope_node_lt
  cases place with
  | none =>
      rw [Stands, hscope]
      exact ⟨h.1, hk.dead _ hlt h.2⟩
  | some path =>
      rw [Stands, hscope]
      exact ⟨h.1, hk.live _ (Nat.le_refl _) h.2.1, (hk.names _ hlt).trans h.2.2⟩

/-- In every body, some actions do to what is shown what `f` does at the path of the body. -/
def Does (as : List Action) (f : NodePath → Overlay → Overlay) : Prop :=
  ∀ ⦃o : Outline⦄ ⦃v : Overlay⦄ ⦃place : Option NodePath⦄, o.Follows v → o.Stands place →
    (o.run as).Follows (v.inPlace place f) ∧ (o.run as).scopes = o.scopes ∧
      o.tree.Keeps o.scope.node (o.run as).tree

namespace Does

variable {as bs : List Action} {f g : NodePath → Overlay → Overlay}

theorem nil : Does [] fun _ v => v := by
  intro o v place h _
  refine ⟨?_, rfl, .refl _ _⟩
  cases place <;> exact h

theorem append (hf : Does as f) (hg : Does bs g) :
    Does (as ++ bs) fun path v => g path (f path v) := by
  intro o v place h hs
  obtain ⟨hfirst, hscopes, hkeeps⟩ := hf h hs
  obtain ⟨hsecond, hscopes', hkeeps'⟩ := hg hfirst (hs.of_keeps h.sound hscopes hkeeps)
  have hscope : (o.run as).scope = o.scope := by rw [scope, scope, hscopes]
  rw [run_append]
  refine ⟨?_, hscopes'.trans hscopes, hkeeps.trans hkeeps' (Nat.le_of_eq (by rw [hscope]))⟩
  cases place <;> exact hsecond

theorem clash (name : NodeName) (first : Span) : Does [.clash name first] fun _ v => v :=
  nil

theorem property (definition : PropertyDef) :
    Does [.property definition] fun path v => v.update path (·.setProperty definition) := by
  intro o v place h hs
  have hshape := fun n : Node => n.sameShape_define definition
  refine ⟨?_, rfl, .of_sameShape _ (o.tree.sameShape_modify _ hshape)⟩
  cases place with
  | none => exact h.modify_dead hshape hs.2
  | some path => exact hs.2.2 ▸ h.modify hshape hs.2.1 (·.rose_define definition)

theorem deleteProperty (delete : DeleteProperty) :
    Does [.deleteProperty delete] fun path v =>
      v.update path (·.dropProperty delete.name.value) := by
  intro o v place h hs
  have hshape := fun n : Node => n.sameShape_undefine delete.name.value delete.ref
  refine ⟨?_, rfl, .of_sameShape _ (o.tree.sameShape_modify _ hshape)⟩
  cases place with
  | none => exact h.modify_dead hshape hs.2
  | some path =>
      exact hs.2.2 ▸ h.modify hshape hs.2.1 (·.rose_undefine delete.name.value delete.ref)

theorem deleteNode {delete : DeleteNode} {name : NodeName} (ht : delete.target = .name name) :
    Does [.deleteNode delete] fun path v => v.leaf path (.deleteNode delete) := by
  intro o v place h hs
  have hstep : o.run [.deleteNode delete] =
      (o.tree.findChild? o.scope.node name.value).elim o (o.remove · delete.ref) := by
    change o.deleteNode delete = (o.doomed? (.name name)).elim o (o.remove · delete.ref)
    rw [Outline.deleteNode, ht]
    cases o.doomed? (.name name) <;> rfl
  have hleaf : ∀ path, v.leaf path (.deleteNode delete) =
      (v.doomed? path (.name name)).elim v v.remove := by
    intro path
    rw [Overlay.leaf, ht]
    cases v.doomed? path (.name name) <;> rfl
  rw [hstep]
  cases hf : o.tree.findChild? o.scope.node name.value with
  | none =>
      refine ⟨?_, rfl, .refl _ _⟩
      cases place with
      | none => exact h
      | some path =>
          rw [Overlay.inPlace, hleaf, ← hs.2.2, h.doomed?_name hs.2.1, hf]
          exact h
  | some child =>
      have hc := (Tree.mem_of_findChild? hf).1
      obtain ⟨hp, hk⟩ := h.sound.tree.mem_children.mp hc
      refine ⟨?_, ?_, ?_⟩
      · cases place with
        | none => exact h.remove_dead hk ((h.sound.tree.isLive_child hc).trans hs.2)
        | some path =>
            rw [Overlay.inPlace, hleaf, ← hs.2.2, h.doomed?_name hs.2.1, hf]
            exact h.remove ((h.sound.tree.isLive_child hc).trans hs.2.1)
      · exact o.scopes_remove child delete.ref
      · exact h.sound.keeps_remove hk (h.sound.tree.parent_lt hp)

/-- The properties and deletes of a body. -/
theorem leaves {body : List Statement} (hbody : Statement.areLocal body = true) :
    Does (body.filterMap Statement.leafAction?) fun path v => body.foldl (·.leaf path) v := by
  induction body with
  | nil => exact nil
  | cons s body ih =>
      rw [Statement.areLocal, Bool.and_eq_true] at hbody
      have hrest := ih hbody.2
      cases s with
      | block head inner => exact hrest
      | property definition => exact (property definition).append hrest
      | deleteProperty delete => exact (deleteProperty delete).append hrest
      | deleteNode delete =>
          cases htarget : delete.target with
          | name name => exact (deleteNode htarget).append hrest
          | reference ref =>
              have hlocal := hbody.1
              rw [Statement.isLocal, htarget] at hlocal
              cases hlocal

theorem clashes (seen : List NodeName) (body : List Statement) :
    Does (Statement.clashesFrom seen body) fun _ v => v := by
  fun_induction Statement.clashesFrom seen body with
  | case1 => exact nil
  | case2 _ name _ _ _ _ _ first _ ih => exact (clash _ _).append ih
  | case3 => assumption
  | case4 => assumption
  | case5 => assumption

/-- Opening a block about a child of the node that the innermost body is about. -/
theorem openChild {o : Outline} {v : Overlay} {place : Option NodePath} (h : o.Follows v)
    (hs : o.Stands place) (head : BlockHead) {child : NodeId} {name : UnitName}
    (hc : child ∈ (o.tree.node o.scope.node).children) (hname : (o.tree.node child).name = name) :
    (o.define head child o.scope.detached).Follows
        (v.inPlace place fun path v => v.bind (path ++ [name]) head.labels) ∧
      (o.define head child o.scope.detached).Stands (place.map (· ++ [name])) ∧
      o.tree.Keeps o.scope.node (o.define head child o.scope.detached).tree := by
  have ht := h.sound.tree
  have hlive := ht.isLive_child hc
  have hshape : o.tree.SameShape (o.define head child o.scope.detached).tree :=
    o.tree.sameShape_modify child (·.sameShape_opened head)
  refine ⟨?_, ?_, .of_sameShape _ hshape⟩
  · cases place with
    | none =>
        rw [hs.1]
        exact h.define_dead (ht.lt_size_of_mem_children hc) (hlive.trans hs.2)
    | some path =>
        have hpath : o.tree.names child = path ++ [name] := by
          rw [ht.names_child hc, hname, hs.2.2]
        rw [hs.1, Overlay.inPlace, ← hpath]
        exact h.define head (hlive.trans hs.2.1)
  · cases place with
    | none => exact ⟨hs.1, (hshape.isLive child).symm.trans (hlive.trans hs.2)⟩
    | some path =>
        refine ⟨hs.1, (hshape.isLive child).symm.trans (hlive.trans hs.2.1), ?_⟩
        refine (hshape.names child).symm.trans ?_
        rw [ht.names_child hc, hname, hs.2.2]

theorem enterChild {o : Outline} {v : Overlay} {place : Option NodePath} (h : o.Follows v)
    (hs : o.Stands place) {head : BlockHead} {name : NodeName}
    (htarget : head.target = .child name) :
    (o.enter head).Follows (v.inPlace place fun path v =>
        (v.update path (·.adopt name.value)).bind (path ++ [name.value]) head.labels) ∧
      (o.enter head).Stands (place.map (· ++ [name.value])) ∧
      (o.enter head).scopes.tail = o.scopes ∧
      o.scope.node.index ≤ (o.enter head).scope.node.index ∧
      o.tree.Keeps o.scope.node (o.enter head).tree := by
  have ht := h.sound.tree
  have hlt := h.sound.scope_node_lt
  cases hf : o.tree.findChild? o.scope.node name.value with
  | some child =>
      have henter : o.enter head = o.define head child o.scope.detached := by
        simp only [Outline.enter, htarget, hf]
      obtain ⟨hc, hname⟩ := Tree.mem_of_findChild? hf
      obtain ⟨hfollows, hstands, hkeeps⟩ := openChild h hs head hc hname
      rw [henter]
      refine ⟨?_, hstands, rfl, Nat.le_of_lt (ht.lt_of_mem_children hc), hkeeps⟩
      cases place with
      | none => exact hfollows
      | some path =>
          have hadopt := h.update_adopt hf hs.2.1
          rw [hs.2.2] at hadopt
          rw [Overlay.inPlace, hadopt]
          exact hfollows
  | none =>
      have henter : o.enter head = { o with
          tree := o.tree.addChild o.scope.node name.value }.define head o.tree.nextId
            o.scope.detached := by
        simp only [Outline.enter, htarget, hf]
      have hadded : o.tree.Keeps o.scope.node (o.tree.addChild o.scope.node name.value) :=
        .addChild ht hlt hf hlt
      -- First the child is added, as to an overlay, and then the block about it is opened.
      have hfirst : { o with tree := o.tree.addChild o.scope.node name.value }.Follows
          (v.inPlace place fun path v => v.update path (·.adopt name.value)) := by
        cases place with
        | none => exact h.addChild_dead hlt hf hs.2
        | some path => exact hs.2.2 ▸ h.addChild hlt hf hs.2.1
      have hplace : { o with tree := o.tree.addChild o.scope.node name.value }.Stands place :=
        hs.of_keeps h.sound rfl hadded
      have hc : o.tree.nextId ∈
          ((o.tree.addChild o.scope.node name.value).node o.scope.node).children := by
        rw [Tree.addChild_children hlt, if_pos rfl]
        exact List.mem_append_right _ List.mem_cons_self
      have hname : ((o.tree.addChild o.scope.node name.value).node o.tree.nextId).name =
          name.value := by
        rw [Tree.addChild_name hlt, if_pos rfl]
      obtain ⟨hfollows, hstands, hkeeps⟩ := openChild hfirst hplace head hc hname
      rw [henter]
      refine ⟨?_, hstands, rfl, Nat.le_of_lt hlt, hadded.trans hkeeps (Nat.le_refl _)⟩
      cases place <;> exact hfollows

/-- A child block, given what its body does. -/
theorem child {head : BlockHead} {name : NodeName} (htarget : head.target = .child name)
    (hbody : Does as f) : Does (.enter head :: (as ++ [.leave])) fun path v =>
      f (path ++ [name.value])
        ((v.update path (·.adopt name.value)).bind (path ++ [name.value]) head.labels) := by
  intro o v place h hs
  obtain ⟨hfollows, hstands, htail, hle, hkeeps⟩ := enterChild h hs htarget
  obtain ⟨hdone, hscopes, hkept⟩ := hbody hfollows hstands
  rw [run_cons, run_append]
  refine ⟨?_, ?_, hkeeps.trans hkept hle⟩
  · cases place <;> exact hdone.leave
  · exact (congrArg List.tail hscopes).trans htail

mutual

/-- A child block in a body does what it does to an overlay. -/
theorem block : ∀ {s : Statement}, s.isLocal = true → s.isBlock = true →
    Does s.actions fun path v => v.blocks path [s]
  | .block head body, hlocal, _ => by
      rw [Statement.isLocal, Bool.and_eq_true] at hlocal
      obtain ⟨id, labels, target, span⟩ := head
      cases target with
      | root slash => cases hlocal.1
      | reference ref => cases hlocal.1
      | child name =>
          have hbody := ((clashes [] body).append (blocks hlocal.2)).append (leaves hlocal.2)
          have htarget : BlockHead.target ⟨id, labels, .child name, span⟩ = .child name := rfl
          have hchild := child htarget hbody
          rw [Statement.actions, List.cons_append, List.cons_append, List.cons_append]
          exact hchild

/-- The child blocks of a body, one after the other. -/
theorem blocks : ∀ {body : List Statement}, Statement.areLocal body = true →
    Does (Statement.blockActions body) fun path v => v.blocks path body
  | [], _ => nil
  | s :: body, hlocal => by
      rw [Statement.areLocal, Bool.and_eq_true] at hlocal
      have hrest := blocks hlocal.2
      rw [Statement.blockActions]
      split
      · rename_i hblock
        have hboth := (block hlocal.1 hblock).append hrest
        simp only [← Overlay.blocks_cons] at hboth
        exact hboth
      · rename_i hleaf
        have hskip : ∀ path v, Overlay.blocks v path (s :: body) = v.blocks path body := by
          intro path v
          cases s with
          | block head inner => exact absurd rfl hleaf
          | _ => simp only [Overlay.blocks]
        simp only [hskip]
        exact hrest

end

/-- The whole body of a block. -/
theorem body {ss : List Statement} (hss : Statement.areLocal ss = true) :
    Does (Statement.clashes ss ++ Statement.blockActions ss ++ ss.filterMap Statement.leafAction?)
      fun path v => ss.foldl (·.leaf path) (v.blocks path ss) :=
  ((clashes [] ss).append (blocks hss)).append (leaves hss)

end Does

/-! ### Top-level statements -/

section TopLevel

variable {o : Outline} {v : Overlay} (h : o.Follows v) (hscopes : o.scopes = [])
include h hscopes

theorem stands_top : o.Stands (some []) := by
  have hscope : o.scope = ⟨Tree.root, false⟩ := by rw [scope, hscopes]
  rw [Stands, hscope]
  exact ⟨rfl, h.sound.tree.isLive_root, h.sound.tree.names_root⟩

theorem follows_of_does {as : List Action} {f : NodePath → Overlay → Overlay} (hdoes : Does as f) :
    (o.run as).Follows (f [] v) ∧ (o.run as).scopes = [] := by
  obtain ⟨hfollows, hkept, -⟩ := hdoes h (stands_top h hscopes)
  exact ⟨hfollows, hkept.trans hscopes⟩

omit h hscopes in
/-- A block at the top level, given where its opening leads. -/
theorem follows_block {head : BlockHead} {ss : List Statement} {w : Overlay}
    {place : Option NodePath} (hss : Statement.areLocal ss = true) (hw : (o.enter head).Follows w)
    (hs : (o.enter head).Stands place) (htail : (o.enter head).scopes.tail = []) :
    (o.run (Statement.block head ss).actions).Follows
        (w.inPlace place fun path v => ss.foldl (·.leaf path) (v.blocks path ss)) ∧
      (o.run (Statement.block head ss).actions).scopes = [] := by
  obtain ⟨hdone, hkept, -⟩ := Does.body hss hw hs
  have hrun : o.run (Statement.block head ss).actions = ((o.enter head).run (Statement.clashes ss ++
      Statement.blockActions ss ++ ss.filterMap Statement.leafAction?)).step .leave := by
    rw [Statement.actions, List.cons_append, List.cons_append, List.cons_append, run_cons,
      run_append]
    rfl
  rw [hrun]
  exact ⟨hdone.leave, (congrArg List.tail hkept).trans htail⟩

/-- A block about a live node, at the top level. -/
theorem follows_block_at {head : BlockHead} {ss : List Statement} {node : NodeId}
    (hss : Statement.areLocal ss = true) (hl : o.tree.isLive node = true)
    (henter : o.enter head = o.define head node false) :
    (o.run (Statement.block head ss).actions).Follows
        (v.block (o.tree.names node) (.block head ss)) ∧
      (o.run (Statement.block head ss).actions).scopes = [] := by
  have hshape : o.tree.SameShape (o.define head node false).tree :=
    o.tree.sameShape_modify node (·.sameShape_opened head)
  have hstands : (o.enter head).Stands (some (o.tree.names node)) := by
    rw [henter]
    exact ⟨rfl, (hshape.isLive node).symm.trans hl, (hshape.names node).symm⟩
  have hw : (o.enter head).Follows (v.bind (o.tree.names node) head.labels) := by
    rw [henter]
    exact h.define head hl
  rw [Overlay.block]
  exact follows_block hss hw hstands (by rw [henter]; exact hscopes)

/-- A block whose target was not found, at the top level, shows nothing. -/
theorem follows_block_detached {head : BlockHead} {ss : List Statement}
    (hss : Statement.areLocal ss = true)
    (henter : o.enter head =
      { o with tree := o.tree.addStandIn }.define head o.tree.nextId true) :
    (o.run (Statement.block head ss).actions).Follows v ∧
      (o.run (Statement.block head ss).actions).scopes = [] := by
  have hdead : o.tree.addStandIn.isLive o.tree.nextId = false := by
    rw [Tree.isLive_addStandIn, ← Bool.not_eq_true]
    intro hl
    exact Nat.lt_irrefl _ (h.sound.tree.lt_size_of_isLive hl)
  have hshape := o.tree.addStandIn.sameShape_modify o.tree.nextId (·.sameShape_opened head)
  have hw : (o.enter head).Follows v := by
    rw [henter]
    exact h.addStandIn.define_dead (by simp) hdead
  have hstands : (o.enter head).Stands none := by
    rw [henter]
    exact ⟨rfl, (hshape.isLive _).symm.trans hdead⟩
  exact follows_block hss hw hstands (by rw [henter]; exact hscopes)

theorem follows_deleteNode (delete : DeleteNode) :
    (o.run [.deleteNode delete]).Follows (v.leaf [] (.deleteNode delete)) ∧
      (o.run [.deleteNode delete]).scopes = [] := by
  cases htarget : delete.target with
  | name name => exact follows_of_does h hscopes (Does.deleteNode htarget)
  | reference ref =>
      obtain ⟨hpath, hlive⟩ := h.target? ref
      simp only [run_cons, run_nil, step, Outline.deleteNode, Overlay.leaf, htarget, doomed?,
        Overlay.doomed?, hpath]
      cases hnode : o.target? ref with
      | none => exact ⟨h, hscopes⟩
      | some node =>
          exact ⟨h.remove (hlive node hnode), (o.scopes_remove node delete.ref).trans hscopes⟩

/-- Each top-level statement does what it does to an overlay. -/
theorem follows_statement {s : Statement} (hs : s.isLayered = true) :
    (o.run s.actions).Follows (v.apply s) ∧ (o.run s.actions).scopes = [] := by
  cases s with
  | property definition => exact follows_of_does h hscopes (Does.property definition)
  | deleteProperty delete => exact follows_of_does h hscopes (Does.deleteProperty delete)
  | deleteNode delete => exact follows_deleteNode h hscopes delete
  | block head ss =>
      obtain ⟨id, labels, target, span⟩ := head
      cases target with
      | root slash =>
          have henter : o.enter ⟨id, labels, .root slash, span⟩ =
              o.define ⟨id, labels, .root slash, span⟩ Tree.root false := rfl
          have hroot := follows_block_at h hscopes hs h.sound.tree.isLive_root henter
          rwa [h.sound.tree.names_root] at hroot
      | child name =>
          have hlocal :
              (Statement.block ⟨id, labels, .child name, span⟩ ss).isLocal = true := by
            rw [Statement.isLocal]
            exact Bool.and_eq_true_iff.mpr ⟨rfl, hs⟩
          exact follows_of_does h hscopes (Does.block hlocal rfl)
      | reference ref =>
          obtain ⟨hpath, hlive⟩ := h.target? ref
          simp only [Overlay.apply, hpath]
          cases hnode : o.target? ref with
          | none =>
              exact follows_block_detached h hscopes hs (by simp only [Outline.enter, hnode])
          | some node =>
              exact follows_block_at h hscopes hs (hlive node hnode)
                (by simp only [Outline.enter, hnode])

theorem follows_statements {ss : List Statement} (hss : ∀ s ∈ ss, s.isLayered = true) :
    (o.run (ss.flatMap Statement.actions)).Follows (ss.foldl Overlay.apply v) := by
  induction ss generalizing o v with
  | nil => exact h
  | cons s ss ih =>
      obtain ⟨hfirst, hempty⟩ := follows_statement h hscopes (hss s List.mem_cons_self)
      rw [List.flatMap_cons, run_append]
      exact ih hfirst hempty fun r hr => hss r (List.mem_cons_of_mem _ hr)

end TopLevel

theorem follows_start : start.Follows .start := by
  refine ⟨.start, (fun e he => by cases he), ?_, rfl⟩
  exact Tree.WellFormed.start.rose_eq Tree.root

end Outline

namespace Linkage

/-- What a linkage shows. -/
def overlay (l : Linkage) : Overlay where
  tree := l.tree.rose Tree.root
  labels := l.labels.mapValues l.tree.names

theorem overlay_link (files : List SourceFile) (reportUnresolved : Bool) (generation : Nat) :
    (link files reportUnresolved generation).overlay = (outlineOf files).overlay := by
  have ht := wellFormed_link files reportUnresolved generation
  have hshape := (link files reportUnresolved generation).tree.sameShape_bare
  have hrose := ht.rose_of_dead (ht.of_sameShape hshape) fun id _ => by
    rw [Tree.Agree, Tree.node_bare]
    exact ⟨fun _ => rfl, rfl⟩
  have hnames := funext hshape.names
  rw [link_tree_bare] at hrose hnames
  rw [overlay, Outline.overlay, ← hrose, hnames, link_labels]

/-- If root blocks, reference blocks and deletes of a reference stand at the top level only,
then linking gives what the top-level statements say, applied to an overlay in order. -/
theorem link_eq_overlay {files : List SourceFile}
    (hlayered : ∀ f ∈ files, ∀ s ∈ f.statements, s.isLayered = true) (reportUnresolved : Bool)
    (generation : Nat) :
    (link files reportUnresolved generation).overlay = Overlay.ofFiles files := by
  have hall : ∀ s ∈ files.flatMap (·.statements), s.isLayered = true := by
    intro s hs
    obtain ⟨f, hf, hs⟩ := List.mem_flatMap.mp hs
    exact hlayered f hf s hs
  have hfollows := Outline.follows_statements Outline.follows_start rfl hall
  have hactions : (files.flatMap (·.statements)).flatMap Statement.actions = actionsOf files :=
    List.flatMap_assoc
  rw [hactions] at hfollows
  rw [overlay_link, Outline.overlay, outlineOf, hfollows.tree, hfollows.labels]
  rfl

/-- Two nodes, one with a unit address, read from `/{a:b@1{x;y;};c{d:e{};};};`. -/
def baseFile : SourceFile :=
  .read ⟨0⟩ "/\x7ba:b@1\x7bx;y;\x7d;c\x7bd:e\x7b\x7d;\x7d;\x7d;".toList

/-- Changes to them and a block without a target, read from
`&{/b}{x;f:g{};};/delete-node/&{/c};&z{h:i{};};`. -/
def changeFile : SourceFile :=
  .read ⟨1⟩ ("&\x7b/b\x7d\x7bx;f:g\x7b\x7d;\x7d;/delete-node/&\x7b/c\x7d;" ++
    "&z\x7bh:i\x7b\x7d;\x7d;").toList

/-- The delete takes the label `d` with it, and the label `h` is never bound. -/
theorem baseFile_changed :
    (∀ f ∈ [baseFile, changeFile], ∀ s ∈ f.statements, s.isLayered = true) ∧
    (link [baseFile, changeFile] true 0).overlay = Overlay.ofFiles [baseFile, changeFile] ∧
    (link [baseFile, changeFile] true 0).overlay.labels.entries =
      [("a", [⟨"b", some 1⟩]), ("f", [⟨"b", some 1⟩, ⟨"g", none⟩])] := by
  have hlayered : ∀ f ∈ [baseFile, changeFile], ∀ s ∈ f.statements, s.isLayered = true := by
    decide +kernel
  have heq := link_eq_overlay hlayered true 0
  refine ⟨hlayered, heq, ?_⟩
  rw [heq]
  decide +kernel

end Linkage

end Devicetree
