import Devicetree.Proofs.Linkage.History
import Devicetree.Proofs.Overlay.Basic

/-!
# Trees as values

A tree whose nodes hang together well can be read as a value, and each live node is known by
its path in it. Changing one live node changes the value at its path and nowhere else, and what
happens to other nodes does not show.
-/

namespace Devicetree

namespace Table

variable {κ ν μ : Type}

/-- The table with other values under the same keys. -/
def mapValues (g : ν → μ) (t : Table κ ν) : Table κ μ :=
  ⟨t.entries.map fun e => (e.1, g e.2)⟩

theorem mapValues_congr {g h : ν → μ} {t : Table κ ν} (he : ∀ e ∈ t.entries, g e.2 = h e.2) :
    t.mapValues g = t.mapValues h :=
  congrArg Table.mk (List.map_congr_left fun e hm => by rw [he e hm])

theorem mapValues_filterValues {g : ν → μ} {t : Table κ ν} {p : ν → Bool} {q : μ → Bool}
    (h : ∀ e ∈ t.entries, p e.2 = q (g e.2)) :
    (t.filterValues p).mapValues g = (t.mapValues g).filterValues q := by
  simp only [mapValues, filterValues, List.filter_map, Function.comp_def]
  exact congrArg (fun es => Table.mk (List.map _ es)) (List.filter_congr h)

variable [DecidableEq κ] (g : ν → μ) (t : Table κ ν)

theorem mapValues_insert (k : κ) (v : ν) :
    (t.insert k v).mapValues g = (t.mapValues g).insert k (g v) := by
  have hentries : ∀ es : List (κ × ν), (insertEntry k v es).map (fun e => (e.1, g e.2)) =
      insertEntry k (g v) (es.map fun e => (e.1, g e.2)) := by
    intro es
    induction es with
    | nil => rfl
    | cons e es ih =>
        rw [List.map_cons, insertEntry, insertEntry, ← ih]
        split <;> rfl
  exact congrArg Table.mk (hentries t.entries)

theorem mapValues_erase (k : κ) : (t.erase k).mapValues g = (t.mapValues g).erase k := by
  simp only [mapValues, erase, List.filter_map, Function.comp_def]

theorem get?_mapValues (k : κ) : (t.mapValues g).get? k = (t.get? k).map g := by
  have hentries : ∀ es : List (κ × ν),
      lookup? k (es.map fun e => (e.1, g e.2)) = (lookup? k es).map g := by
    intro es
    induction es with
    | nil => rfl
    | cons e es ih =>
        rw [List.map_cons, lookup?, lookup?, ih]
        split <;> rfl
  exact hentries t.entries

theorem erase_of_none {k : κ} (h : t.get? k = none) : t.erase k = t := by
  have hfresh := (insertEntry_of_lookup?_none h).1
  exact congrArg Table.mk (List.filter_eq_self.mpr fun e he => decide_eq_true (hfresh e he))

end Table

/-- A node as a value, given its children. -/
def Node.rose (n : Node) (children : List Rose) : Rose where
  name := n.name
  labels := n.labels.map (·.value)
  properties := n.properties.mapValues (·.definition)
  children := children

namespace Node

theorem rose_opened (n : Node) (head : BlockHead) (children : List Rose) :
    (n.opened head).rose children = (n.rose children).addLabels head.labels := by
  simp only [opened, rose, Rose.addLabels, List.map_append]

theorem rose_define (n : Node) (definition : PropertyDef) (children : List Rose) :
    (n.define definition).rose children = (n.rose children).setProperty definition := by
  rw [rose, rose, properties_define, Table.mapValues_insert, definition_renewed]
  rfl

theorem rose_undefine (n : Node) (name : String) (deletedBy : AstRef) (children : List Rose) :
    ((n.undefine? name deletedBy).getD n).rose children =
      (n.rose children).dropProperty name := by
  unfold undefine?
  cases hp : n.property? name with
  | none =>
      have hget : (n.properties.mapValues (·.definition)).get? name = none :=
        (Table.get?_mapValues _ _ _).trans (congrArg _ hp)
      simp only [Option.map_none, Option.getD_none, rose, Rose.dropProperty,
        Table.erase_of_none _ hget]
  | some p =>
      simp only [Option.map_some, Option.getD_some, rose, Rose.dropProperty,
        Table.mapValues_erase]

end Node

namespace Tree

/-- A node and all below it through children in force, as a value. -/
def rose (t : Tree) (id : NodeId) : Rose :=
  (t.node id).rose ((t.node id).children.flatMap fun child =>
    if id.index < child.index ∧ child.index < t.size then [t.rose child] else [])
termination_by t.size - id.index

/-- The path of a node. -/
def names (t : Tree) (id : NodeId) : NodePath :=
  (t.lineage id).dropLast.reverse.map fun member => (t.node member).name

/-- The node that all segments of a path together name. -/
def reach? (t : Tree) (start : NodeId) : List UnitName → Option NodeId
  | [] => some start
  | segment :: rest => (t.lookup? start segment).bind (t.reach? · rest)

/-- Two trees show the same at a node. -/
def Agree (t u : Tree) (id : NodeId) : Prop :=
  (∀ children, (u.node id).rose children = (t.node id).rose children) ∧
    (u.node id).children = (t.node id).children

theorem Agree.of_node {t u : Tree} {id : NodeId} (h : u.node id = t.node id) : t.Agree u id :=
  ⟨fun _ => by rw [h], by rw [h]⟩

theorem Under.eq_or_below {t : Tree} {top id : NodeId} (h : t.Under top id) :
    id = top ∨ ∃ child ∈ (t.node top).children, t.Under child id := by
  induction h with
  | refl => exact .inl rfl
  | @child mid id _ hc ih =>
      rcases ih with rfl | ⟨child, hchild, hmid⟩
      · exact .inr ⟨id, hc, .refl⟩
      · exact .inr ⟨child, hchild, hmid.child hc⟩

theorem names_congr {t u : Tree} (hparent : ∀ id, (t.node id).parent = (u.node id).parent)
    (hname : ∀ id, (t.node id).name = (u.node id).name) (id : NodeId) :
    t.names id = u.names id := by
  rw [names, names, lineage_congr hparent]
  exact List.map_congr_left fun member _ => hname member

theorem SameShape.names {t u : Tree} (h : t.SameShape u) (id : NodeId) : t.names id = u.names id :=
  names_congr (fun id => (h.node id).parent) (fun id => (h.node id).name) id

/-- A path names a node if each of its segments names one. -/
theorem descend_eq_reach? (t : Tree) (start : NodeId) (segments : List UnitName) :
    (if (t.descend start segments).length = segments.length then
      some ((t.descend start segments).getLast?.getD start) else none) =
      t.reach? start segments := by
  induction segments generalizing start with
  | nil => rfl
  | cons segment rest ih =>
      rw [descend, reach?]
      cases t.lookup? start segment with
      | none => simp
      | some child =>
          rw [Option.bind_some, ← ih child]
          simp [List.getLast?_cons]

theorem SameShape.reach? {t u : Tree} (h : t.SameShape u) (start : NodeId)
    (segments : List UnitName) : t.reach? start segments = u.reach? start segments := by
  rw [← descend_eq_reach?, ← descend_eq_reach?, h.descend]

theorem name_rose (t : Tree) (id : NodeId) : (t.rose id).name = (t.node id).name := by
  rw [rose]
  rfl

theorem ne_of_isLive {t : Tree} {a b : NodeId} (ha : t.isLive a = true)
    (hb : t.isLive b = false) : a ≠ b := by
  rintro rfl
  rw [ha] at hb
  cases hb

theorem agree_addChild {t : Tree} {parent other : NodeId} (hp : parent.index < t.size)
    (name : UnitName) (hne : other ≠ parent) (hlt : other.index < t.size) :
    t.Agree (t.addChild parent name) other := by
  apply Agree.of_node
  rw [node_addChild hp, if_neg (ne_nextId hlt), if_neg hne]

namespace WellFormed

variable {t u : Tree} (ht : t.WellFormed)
include ht

/-! ### Paths -/

theorem names_root : t.names root = [] := by
  rw [names, lineage_of_none ht.root_parent]
  rfl

theorem names_of_some {id parent : NodeId} (hp : (t.node id).parent = some parent) :
    t.names id = t.names parent ++ [(t.node id).name] := by
  have hne : t.lineage parent ≠ [] := by
    rw [lineage]
    split
    · exact List.cons_ne_nil _ _
    · split <;> exact List.cons_ne_nil _ _
  rw [names, names, ht.lineage_of_some hp, List.dropLast_cons_of_ne_nil hne, List.reverse_cons,
    List.map_append]
  rfl

theorem names_child {parent child : NodeId} (hc : child ∈ (t.node parent).children) :
    t.names child = t.names parent ++ [(t.node child).name] :=
  ht.names_of_some (ht.mem_children.mp hc).1

theorem names_prefix {top id : NodeId} (h : t.Under top id) : t.names top <+: t.names id := by
  induction h with
  | refl => exact List.prefix_rfl
  | child _ hc ih =>
      rw [ht.names_child hc]
      exact ih.trans (List.prefix_append _ _)

/-- A path leads to one live node at most. -/
theorem names_injective {a b : NodeId} (ha : t.isLive a = true) (hb : t.isLive b = true)
    (h : t.names a = t.names b) : a = b := by
  rw [ht.isLive_iff_under] at ha hb
  induction ha generalizing b with
  | refl =>
      cases hb with
      | refl => rfl
      | child _ hc =>
          rw [ht.names_root, ht.names_child hc] at h
          exact absurd h.symm (List.append_ne_nil_of_right_ne_nil _ (List.cons_ne_nil _ _))
  | @child parent a _ hc ih =>
      cases hb with
      | refl =>
          rw [ht.names_root, ht.names_child hc] at h
          exact absurd h (List.append_ne_nil_of_right_ne_nil _ (List.cons_ne_nil _ _))
      | @child other _ hother hd =>
          rw [ht.names_child hc, ht.names_child hd] at h
          obtain ⟨hparents, hname⟩ := List.append_inj' h rfl
          obtain rfl := ih hother hparents
          exact ht.siblings hc hd (List.singleton_inj.mp hname)

/-- Every beginning of a live node's path leads to a node above it. -/
theorem exists_of_prefix {id : NodeId} (hid : t.isLive id = true) {path : NodePath}
    (h : path <+: t.names id) :
    ∃ top, t.isLive top = true ∧ t.Under top id ∧ t.names top = path := by
  have hlive : ∀ {id}, t.Under root id → t.isLive id = true := ht.isLive_iff_under.mpr
  rw [ht.isLive_iff_under] at hid
  induction hid with
  | refl =>
      rw [ht.names_root, List.prefix_nil] at h
      exact ⟨root, hlive .refl, .refl, h ▸ ht.names_root⟩
  | @child parent id hparent hc ih =>
      rw [ht.names_child hc, List.prefix_concat_iff] at h
      rcases h with rfl | h
      · exact ⟨id, hlive (hparent.child hc), .refl, ht.names_child hc⟩
      · obtain ⟨top, htop, hunder, hnames⟩ := ih h
        exact ⟨top, htop, hunder.child hc, hnames⟩

/-- Live nodes lie in a subtree as their paths do. -/
theorem under_iff_prefix {top id : NodeId} (htop : t.isLive top = true)
    (hid : t.isLive id = true) : t.Under top id ↔ t.names top <+: t.names id := by
  constructor
  · exact ht.names_prefix
  · intro h
    obtain ⟨other, hother, hunder, hnames⟩ := ht.exists_of_prefix hid h
    rwa [ht.names_injective hother htop hnames] at hunder

/-- The path from a node down to one below it goes through a child. -/
theorem path_cases {top id : NodeId} {path : NodePath} (hid : t.Under top id)
    (hpath : t.names id = t.names top ++ path) :
    (id = top ∧ path = []) ∨ ∃ child ∈ (t.node top).children, t.Under child id ∧
      ∃ rest, path = (t.node child).name :: rest ∧ t.names id = t.names child ++ rest := by
  rcases hid.eq_or_below with rfl | ⟨child, hc, hbelow⟩
  · exact .inl ⟨rfl, List.self_eq_append_right.mp hpath⟩
  · obtain ⟨rest, hrest⟩ := ht.names_prefix hbelow
    refine .inr ⟨child, hc, hbelow, rest, ?_, hrest.symm⟩
    rw [← hrest, ht.names_child hc, List.append_assoc] at hpath
    exact (List.append_cancel_left hpath).symm

theorem ne_of_under_child {parent child id : NodeId} (hc : child ∈ (t.node parent).children)
    (h : t.Under child id) : id ≠ parent := by
  rintro rfl
  exact Nat.lt_irrefl _ (Nat.lt_of_lt_of_le (ht.lt_of_mem_children hc) (h.index_le ht))

/-- No node is below two siblings. -/
theorem eq_of_under {parent a b id : NodeId} (ha : a ∈ (t.node parent).children)
    (hb : b ∈ (t.node parent).children) (hai : t.Under a id) (hbi : t.Under b id) : a = b := by
  have hpa := ht.names_prefix hai
  have hpb := ht.names_prefix hbi
  rw [ht.names_child ha] at hpa
  rw [ht.names_child hb] at hpb
  have heq := List.prefix_of_prefix_length_le hpa hpb (by simp)
  -- Both are beginnings of one path, and of the same length.
  have hsame := heq.eq_of_length (by simp)
  exact ht.siblings ha hb (List.singleton_inj.mp (List.append_cancel_left hsame))

/-! ### Changes -/

theorem rose_eq (id : NodeId) :
    t.rose id = (t.node id).rose ((t.node id).children.map t.rose) := by
  rw [rose, List.map_eq_flatMap]
  congr 1
  apply List.flatMap_congr
  intro child hc
  exact if_pos ⟨ht.lt_of_mem_children hc, ht.lt_size_of_mem_children hc⟩

/-- What happens elsewhere does not show. -/
theorem rose_congr (hu : u.WellFormed) {top : NodeId}
    (h : ∀ id, t.Under top id → t.Agree u id) : u.rose top = t.rose top := by
  induction top using ht.down_induction with
  | step top ih =>
      obtain ⟨hface, hchildren⟩ := h top .refl
      rw [hu.rose_eq, ht.rose_eq, hchildren, hface]
      congr 1
      apply List.map_congr_left
      intro child hc
      exact ih child hc fun id hid => h id (.of_mem_children hc hid)

/-- A change at one node shows at its path, and nowhere else. -/
theorem rose_update (hu : u.WellFormed) {top id : NodeId} {f : Rose → Rose} {path : NodePath}
    (hid : t.Under top id) (hf : u.rose id = f (t.rose id))
    (hsame : ∀ other, t.Under top other → other ≠ id → t.Agree u other)
    (hpath : t.names id = t.names top ++ path) : u.rose top = (t.rose top).update f path := by
  induction top using ht.down_induction generalizing path with
  | step top ih =>
      rcases ht.path_cases hid hpath with ⟨rfl, rfl⟩ | ⟨child, hc, hbelow, rest, rfl, hrest⟩
      · exact hf
      · obtain ⟨hface, hchildren⟩ := hsame top .refl (ht.ne_of_under_child hc hbelow).symm
        rw [hu.rose_eq, ht.rose_eq, hchildren, hface]
        change _ = (t.node top).rose (((t.node top).children.map t.rose).map fun r =>
          if r.name = (t.node child).name then r.update f rest else r)
        rw [List.map_map]
        congr 1
        apply List.map_congr_left
        intro other hother
        rw [Function.comp_apply, name_rose]
        -- The path goes into the one child of its next name. The node is below no other child.
        by_cases heq : other = child
        · subst heq
          rw [if_pos rfl]
          exact ih other hc hbelow (fun m hm => hsame m (.of_mem_children hc hm)) hrest
        · rw [if_neg fun hname => heq (ht.siblings hother hc hname)]
          apply ht.rose_congr hu
          intro m hm
          apply hsame m (.of_mem_children hother hm)
          rintro rfl
          exact heq (ht.eq_of_under hother hc hm hbelow)

/-- What happens to nodes that are not live does not show. -/
theorem rose_of_dead (hu : u.WellFormed)
    (h : ∀ id, t.isLive id = true → t.Agree u id) : u.rose root = t.rose root :=
  ht.rose_congr hu fun id hid => h id (ht.isLive_iff_under.mpr hid)

/-- A change at one live node shows at its path. -/
theorem rose_of_live (hu : u.WellFormed) {id : NodeId} {f : Rose → Rose}
    (hid : t.isLive id = true) (hf : u.rose id = f (t.rose id))
    (hsame : ∀ other, other ≠ id → other.index < t.size → t.Agree u other) :
    u.rose root = (t.rose root).update f (t.names id) := by
  refine ht.rose_update hu (ht.isLive_iff_under.mp hid) hf (fun other hother hne => ?_) ?_
  · exact hsame other hne (hother.lt_size ht ht.size_pos)
  · rw [ht.names_root, List.nil_append]

section Modify

variable {id : NodeId} {f : Node → Node} (hs : ∀ n : Node, n.SameShape (f n))
include hs

theorem rose_modify_dead (hid : t.isLive id = false) :
    (t.modify id f).rose root = t.rose root := by
  apply ht.rose_of_dead (ht.of_sameShape (t.sameShape_modify id hs))
  intro other hother
  exact .of_node (node_modify_ne _ (ne_of_isLive hother hid).symm)

theorem rose_modify {g : Rose → Rose} (hid : t.isLive id = true)
    (hg : ∀ (n : Node) children, (f n).rose children = g (n.rose children)) :
    (t.modify id f).rose root = (t.rose root).update g (t.names id) := by
  have hu := ht.of_sameShape (t.sameShape_modify id hs)
  have hagree : ∀ other, other ≠ id → t.Agree (t.modify id f) other := by
    intro other hne
    exact .of_node (node_modify_ne _ (Ne.symm hne))
  refine ht.rose_of_live hu hid ?_ fun other hne _ => hagree other hne
  rw [hu.rose_eq, ht.rose_eq, node_modify_self _ (ht.lt_size_of_isLive hid), hg,
    ← (hs (t.node id)).children]
  congr 2
  apply List.map_congr_left
  intro child hc
  apply ht.rose_congr hu
  intro other hother
  exact hagree other (ht.ne_of_under_child hc hother)

end Modify

/-! ### Children -/

theorem findChild?_self {parent child : NodeId} (hc : child ∈ (t.node parent).children) :
    t.findChild? parent (t.node child).name = some child := by
  cases hf : t.findChild? parent (t.node child).name with
  | none => exact absurd (decide_eq_true rfl) (List.find?_eq_none.mp hf child hc)
  | some found =>
      obtain ⟨hmem, hname⟩ := mem_of_findChild? hf
      rw [ht.siblings hmem hc hname]

theorem child?_rose (id : NodeId) (name : UnitName) :
    (t.rose id).child? name = (t.findChild? id name).map t.rose := by
  rw [ht.rose_eq]
  change ((t.node id).children.map t.rose).find? _ = _
  rw [List.find?_map, findChild?]
  simp only [Function.comp_def, name_rose]

section AddChild

variable {parent : NodeId} {name : UnitName} (hp : parent.index < t.size)
  (hf : t.findChild? parent name = none)
include hp hf

theorem rose_addChild_dead (hl : t.isLive parent = false) :
    (t.addChild parent name).rose root = t.rose root := by
  apply ht.rose_of_dead (ht.addChild hp hf)
  intro other hother
  exact agree_addChild hp name (ne_of_isLive hother hl) (ht.lt_size_of_isLive hother)

theorem rose_addChild (hl : t.isLive parent = true) :
    (t.addChild parent name).rose root = (t.rose root).update (·.adopt name) (t.names parent) := by
  have hu := ht.addChild hp hf
  have hnew : (t.addChild parent name).rose t.nextId = .leaf name := by
    rw [hu.rose_eq, node_addChild hp, if_pos rfl]
    rfl
  have hne := ne_nextId hp
  refine ht.rose_of_live hu hl ?_ fun other => agree_addChild hp name
  have hold : ∀ child ∈ (t.node parent).children,
      (t.addChild parent name).rose child = t.rose child := by
    intro child hc
    apply ht.rose_congr hu
    intro other hother
    exact agree_addChild hp name (ht.ne_of_under_child hc hother)
      (hother.lt_size ht (ht.lt_size_of_mem_children hc))
  have hnone : ((t.rose parent).child? name).isSome = false := by
    rw [ht.child?_rose, hf]
    rfl
  rw [Rose.adopt, if_neg (by simp [hnone]), hu.rose_eq, ht.rose_eq, node_addChild hp, if_neg hne,
    if_pos rfl, List.map_append, List.map_congr_left hold, List.map_singleton, hnew]
  rfl

end AddChild

/-- A child that is there already is not added again. -/
theorem update_adopt_self {parent child : NodeId} {name : UnitName}
    (hf : t.findChild? parent name = some child) (hl : t.isLive parent = true) :
    (t.rose root).update (·.adopt name) (t.names parent) = t.rose root := by
  refine (ht.rose_of_live ht hl ?_ fun other _ _ => ⟨fun _ => rfl, rfl⟩).symm
  rw [Rose.adopt, ht.child?_rose, hf]
  rfl

section DeleteNode

variable {target parent : NodeId} {deletedBy : AstRef}
  (hp : (t.node target).parent = some parent)
  (hu : t.deleteNode? target deletedBy = some u)
include hp hu

theorem agree_deleteNode? {other : NodeId} (hne : other ≠ parent) : t.Agree u other := by
  rw [Agree, node_of_deleteNode? hp (ht.parent_lt hp) hu]
  split
  · exact ⟨fun _ => rfl, rfl⟩
  · exact ⟨fun _ => rfl, rfl⟩

variable (hk : (t.node target).deleted = false)
include hk

theorem rose_deleteNode?_dead (hl : t.isLive target = false) : u.rose root = t.rose root := by
  apply ht.rose_of_dead (ht.deleteNode? hk hu)
  intro other hother
  apply ht.agree_deleteNode? hp hu
  rintro rfl
  rw [ht.isLive_of_some hp, hk, hother] at hl
  cases hl

theorem rose_deleteNode? (hl : t.isLive target = true) :
    u.rose root = (t.rose root).update (·.dropChild (t.node target).name) (t.names parent) := by
  have hw := ht.deleteNode? hk hu
  have hlive : t.isLive parent = true := by
    rw [ht.isLive_of_some hp, Bool.and_eq_true] at hl
    exact hl.2
  have htarget : target ∈ (t.node parent).children := ht.mem_children.mpr ⟨hp, hk⟩
  have hne : parent ≠ target := by
    rintro rfl
    exact Nat.lt_irrefl _ (ht.parent_lt hp)
  refine ht.rose_of_live hw hlive ?_ fun other hother _ => ht.agree_deleteNode? hp hu hother
  have hold : ∀ child ∈ (t.node parent).children, u.rose child = t.rose child := by
    intro child hc
    apply ht.rose_congr hw
    intro other hother
    exact ht.agree_deleteNode? hp hu (ht.ne_of_under_child hc hother)
  have hchildren : ((t.node parent).children.filter (· ≠ target)).map u.rose =
      ((t.node parent).children.map t.rose).filter (·.name ≠ (t.node target).name) := by
    rw [List.map_congr_left fun child hc => hold child (List.mem_of_mem_filter hc), List.filter_map]
    congr 1
    apply List.filter_congr
    intro child hc
    rw [Function.comp_apply, name_rose]
    by_cases heq : child = target
    · simp [heq]
    · have hname : (t.node child).name ≠ (t.node target).name :=
        fun hname => heq (ht.siblings hc htarget hname)
      simp [heq, hname]
  rw [hw.rose_eq, ht.rose_eq, node_of_deleteNode? hp (ht.parent_lt hp) hu, if_neg hne, if_pos rfl]
  exact congrArg (t.node parent).rose hchildren

end DeleteNode

/-! ### References -/

theorem lookup?_rose (id : NodeId) (segment : UnitName) :
    (t.rose id).lookup? segment = (t.lookup? id segment).map t.rose := by
  have hname : (t.rose id).children.find? (·.name.name = segment.name) =
      ((t.node id).children.find? fun child => (t.node child).name.name = segment.name).map
        t.rose := by
    rw [ht.rose_eq]
    change ((t.node id).children.map t.rose).find? _ = _
    rw [List.find?_map]
    simp only [Function.comp_def, name_rose]
  have hexact : ((t.node id).children.find? fun child => (t.node child).name = segment) =
      t.findChild? id segment := rfl
  rw [Rose.lookup?, ht.child?_rose, Tree.lookup?, select?, hname, hexact]
  cases t.findChild? id segment with
  | some child => rfl
  | none => cases segment.address <;> rfl

/-- A path goes on below a node as the node's own value says. -/
theorem contains_rose {top id : NodeId} {path : NodePath} (hid : t.Under top id)
    (hpath : t.names id = t.names top ++ path) (rest : NodePath) :
    (t.rose top).contains (path ++ rest) = (t.rose id).contains rest := by
  induction top using ht.down_induction generalizing path with
  | step top ih =>
      rcases ht.path_cases hid hpath with ⟨rfl, rfl⟩ | ⟨child, hc, hbelow, more, rfl, hmore⟩
      · rfl
      · rw [List.cons_append, Rose.contains, ht.child?_rose, ht.findChild?_self hc]
        exact ih child hc hbelow hmore

/-- A path reference leads along the same way in a tree and in its value. -/
theorem resolve?_rose (start : NodeId) (segments : List UnitName) :
    (∃ id path, t.reach? start segments = some id ∧ t.Under start id ∧
      (t.rose start).resolve? segments = some path ∧ t.names id = t.names start ++ path) ∨
    (t.reach? start segments = none ∧ (t.rose start).resolve? segments = none) := by
  induction segments generalizing start with
  | nil => exact .inl ⟨start, [], rfl, .refl, rfl, (List.append_nil _).symm⟩
  | cons segment rest ih =>
      rw [reach?, Rose.resolve?, ht.lookup?_rose]
      cases hl : t.lookup? start segment with
      | none => exact .inr ⟨rfl, rfl⟩
      | some child =>
          have hc := mem_of_lookup? hl
          simp only [Option.bind_some, Option.map_some, name_rose]
          rcases ih child with ⟨id, path, hreach, hunder, hresolve, hnames⟩ | ⟨hreach, hresolve⟩
          · refine .inl ⟨id, (t.node child).name :: path, hreach, .of_mem_children hc hunder,
              ?_, ?_⟩
            · rw [hresolve, Option.map_some]
            · rw [hnames, ht.names_child hc, List.append_assoc]
              rfl
          · exact .inr ⟨hreach, by rw [hresolve, Option.map_none]⟩

theorem names_addChild {parent : NodeId} {name : UnitName} (hp : parent.index < t.size)
    (hf : t.findChild? parent name = none) {id : NodeId} (hid : id.index < t.size) :
    (t.addChild parent name).names id = t.names id := by
  have hu := ht.addChild hp hf
  induction id using ht.up_induction with
  | step id ih =>
      have hne := ne_nextId hid
      have hparent := addChild_parent hp name id
      have hname := addChild_name hp name id
      rw [if_neg hne] at hparent hname
      cases hup : (t.node id).parent with
      | none => simp [names, lineage_of_none hup, lineage_of_none (hparent.trans hup)]
      | some above =>
          rw [hu.names_of_some (hparent.trans hup), ht.names_of_some hup, hname,
            ih above hup (Nat.lt_trans (ht.parent_lt hup) hid)]

end WellFormed

end Tree

/-- A path names what walking along its segments reaches. -/
theorem Outline.target?_path (o : Outline) (ref : PathRef) :
    o.target? (.path ref) = o.tree.reach? Tree.root (ref.segments.map (·.value)) := by
  rw [← Tree.descend_eq_reach?, List.length_map]
  rfl

end Devicetree
