import Mathlib.Data.List.Basic
import Devicetree.Proofs.Tree.WellFormed

/-!
# Ancestry and liveness

A node is live if a chain of children in force leads from the root to it. In a well-formed tree
the walk up from the node and the walk down from the root agree on this. The last part says
which nodes are live after a child is added or a node is deleted.
-/

namespace Devicetree

namespace Tree

/-- A node hangs under another one through children in force. -/
inductive Under (t : Tree) (top : NodeId) : NodeId → Prop
  | refl : Under t top top
  | child {parent id : NodeId} :
      Under t top parent → id ∈ (t.node parent).children → Under t top id

namespace Under

variable {t u : Tree} {top mid id : NodeId}

theorem trans (h₁ : t.Under top mid) (h₂ : t.Under mid id) : t.Under top id := by
  induction h₂ with
  | refl => exact h₁
  | child _ hc ih => exact ih.child hc

theorem of_mem_children (hc : mid ∈ (t.node top).children) (h : t.Under mid id) :
    t.Under top id :=
  trans (.child .refl hc) h

theorem index_le (hw : t.WellFormed) (h : t.Under top id) : top.index ≤ id.index := by
  induction h with
  | refl => exact Nat.le_refl _
  | child _ hc ih => exact Nat.le_trans ih (Nat.le_of_lt (hw.lt_of_mem_children hc))

theorem lt_size (hw : t.WellFormed) (ht : top.index < t.size) (h : t.Under top id) :
    id.index < t.size := by
  cases h with
  | refl => exact ht
  | child _ hc => exact hw.lt_size_of_mem_children hc

/-- Below its top, a chain passes through the parent. -/
theorem parent_of_ne (hw : t.WellFormed) (h : t.Under top id) (hne : id ≠ top) :
    ∃ parent, (t.node id).parent = some parent ∧ (t.node id).deleted = false ∧
      t.Under top parent := by
  cases h with
  | refl => exact absurd rfl hne
  | child hu hc =>
      obtain ⟨hp, hd⟩ := hw.mem_children.mp hc
      exact ⟨_, hp, hd, hu⟩

/-- Of two nodes above a third one, one is above the other. -/
theorem total (hw : t.WellFormed) (h : t.Under top id) (h' : t.Under mid id) :
    t.Under top mid ∨ t.Under mid top := by
  induction h with
  | refl => exact .inr h'
  | @child parent id hu hc ih =>
      by_cases hid : id = mid
      · exact .inl (hid ▸ hu.child hc)
      · obtain ⟨above, hparent, -, hmid⟩ := h'.parent_of_ne hw hid
        rw [(hw.mem_children.mp hc).1] at hparent
        exact ih (Option.some_inj.mp hparent ▸ hmid)

end Under

/-- A lineage depends on the parents alone. -/
theorem lineage_congr {t u : Tree} (h : ∀ id, (t.node id).parent = (u.node id).parent)
    (id : NodeId) :
    t.lineage id = u.lineage id := by
  induction hn : id.index using Nat.strongRecOn generalizing id with
  | ind n ih =>
      rw [lineage, lineage, h id]
      split
      · rfl
      · rename_i parent _
        split
        · rename_i hlt
          rw [ih parent.index (hn ▸ hlt) parent rfl]
        · rfl

theorem lineage_of_none {t : Tree} {id : NodeId} (hp : (t.node id).parent = none) :
    t.lineage id = [id] := by
  rw [lineage, hp]

theorem reachesRoot_of_none {t : Tree} {id : NodeId} (hp : (t.node id).parent = none)
    (holds : NodeId → Bool) : t.reachesRoot id holds = (holds id && id == root) := by
  simp [reachesRoot, lineage_of_none hp]

theorem isLive_addStandIn (t : Tree) (id : NodeId) : t.addStandIn.isLive id = t.isLive id := by
  have hl := lineage_congr fun id => congrArg Node.parent (node_addStandIn t id)
  simp only [isLive, reachesRoot, hl, node_addStandIn]

namespace WellFormed

variable {t u : Tree}

/-- Induction from the leaves to the root. -/
theorem down_induction (h : t.WellFormed) {motive : NodeId → Prop}
    (step : ∀ id, (∀ child ∈ (t.node id).children, motive child) → motive id) (id : NodeId) :
    motive id := by
  induction hn : t.size - id.index using Nat.strongRecOn generalizing id with
  | ind n ih =>
      apply step
      intro child hc
      have hlt := h.lt_of_mem_children hc
      have hsize := h.lt_size_of_mem_children hc
      exact ih (t.size - child.index) (by omega) child rfl

/-- Induction from the root to the leaves. -/
theorem up_induction (h : t.WellFormed) {motive : NodeId → Prop}
    (step : ∀ id, (∀ parent, (t.node id).parent = some parent → motive parent) → motive id)
    (id : NodeId) : motive id := by
  induction hn : id.index using Nat.strongRecOn generalizing id with
  | ind n ih =>
      apply step
      intro parent hp
      exact ih parent.index (hn ▸ h.parent_lt hp) parent rfl

theorem subtree_eq (h : t.WellFormed) (top : NodeId) :
    t.subtree top = top :: (t.node top).children.flatMap t.subtree := by
  rw [subtree]
  congr 1
  apply List.flatMap_congr
  intro child hc
  rw [if_pos ⟨h.lt_of_mem_children hc, h.lt_size_of_mem_children hc⟩]

/-- The subtree of a node is what hangs under it. -/
theorem mem_subtree (h : t.WellFormed) {top id : NodeId} :
    id ∈ t.subtree top ↔ t.Under top id := by
  constructor
  · induction top using h.down_induction with
    | step top ih =>
        intro hm
        rw [h.subtree_eq, List.mem_cons, List.mem_flatMap] at hm
        rcases hm with rfl | ⟨child, hc, hm⟩
        · exact .refl
        · exact .of_mem_children hc (ih child hc hm)
  · have closed : ∀ top, ∀ parent ∈ t.subtree top, ∀ id ∈ (t.node parent).children,
        id ∈ t.subtree top := by
      intro top
      induction top using h.down_induction with
      | step top ih =>
          intro parent hm id hc
          rw [h.subtree_eq, List.mem_cons, List.mem_flatMap] at hm ⊢
          rcases hm with rfl | ⟨child, hchild, hm⟩
          · exact .inr ⟨id, hc, by simp [h.subtree_eq id]⟩
          · exact .inr ⟨child, hchild, ih child hchild parent hm id hc⟩
    intro hu
    induction hu with
    | refl => simp [h.subtree_eq top]
    | child _ hc ih => exact closed top _ ih _ hc

/-- Nothing hangs under two children of one node. -/
theorem eq_of_under_children (h : t.WellFormed) {parent a b id : NodeId}
    (ha : a ∈ (t.node parent).children) (hb : b ∈ (t.node parent).children)
    (hia : t.Under a id) (hib : t.Under b id) : a = b := by
  have hroot : ∀ {c d}, c ∈ (t.node parent).children → d ∈ (t.node parent).children →
      t.Under c d → c = d := by
    intro c d hc hd hu
    by_contra hne
    obtain ⟨above, hparent, -, hc'⟩ := hu.parent_of_ne h (Ne.symm hne)
    rw [(h.mem_children.mp hd).1] at hparent
    cases hparent
    exact Nat.not_lt_of_le (hc'.index_le h) (h.lt_of_mem_children hc)
  rcases hia.total h hib with hu | hu
  · exact hroot ha hb hu
  · exact (hroot hb ha hu).symm

/-- A node is met once on the walk down. -/
theorem nodup_subtree (h : t.WellFormed) (top : NodeId) : (t.subtree top).Nodup := by
  induction top using h.down_induction with
  | step top ih =>
      rw [h.subtree_eq]
      refine List.nodup_cons.mpr ⟨fun hm => ?_, List.nodup_flatMap.mpr ⟨ih, ?_⟩⟩
      · obtain ⟨child, hc, hm⟩ := List.mem_flatMap.mp hm
        have hle := (h.mem_subtree.mp hm).index_le h
        exact Nat.not_lt_of_le hle (h.lt_of_mem_children hc)
      · refine (h.nodup_children top).imp_of_mem fun {a b} ha hb hne id hia hib => hne ?_
        exact h.eq_of_under_children ha hb (h.mem_subtree.mp hia) (h.mem_subtree.mp hib)

theorem lineage_of_some (h : t.WellFormed) {id parent : NodeId}
    (hp : (t.node id).parent = some parent) : t.lineage id = id :: t.lineage parent := by
  rw [lineage, hp]
  exact if_pos (h.parent_lt hp)

theorem reachesRoot_of_some (h : t.WellFormed) {id parent : NodeId}
    (hp : (t.node id).parent = some parent) (holds : NodeId → Bool) :
    t.reachesRoot id holds = (holds id && t.reachesRoot parent holds) := by
  have hne : t.lineage parent ≠ [] := by
    rw [lineage]
    split
    · simp
    · split <;> simp
  simp [reachesRoot, h.lineage_of_some hp, List.getLast?_cons_of_ne_nil hne, Bool.and_assoc]

theorem isLive_root (h : t.WellFormed) : t.isLive root = true := by
  simp [isLive, reachesRoot_of_none h.root_parent, h.root_kept]

theorem isLive_of_some (h : t.WellFormed) {id parent : NodeId}
    (hp : (t.node id).parent = some parent) :
    t.isLive id = (!(t.node id).deleted && t.isLive parent) :=
  h.reachesRoot_of_some hp _

theorem isLive_child (h : t.WellFormed) {id parent : NodeId}
    (hc : id ∈ (t.node parent).children) : t.isLive id = t.isLive parent := by
  obtain ⟨hp, hd⟩ := h.mem_children.mp hc
  simp [h.isLive_of_some hp, hd]

/-- What hangs off a node through children in force is live if the node is. -/
theorem isLive_of_under (h : t.WellFormed) {top id : NodeId} (hu : t.Under top id) :
    t.isLive id = t.isLive top := by
  induction hu with
  | refl => rfl
  | child _ hc ih => rw [h.isLive_child hc, ih]

/-- The walk up and the walk down agree. -/
theorem isLive_iff_under (h : t.WellFormed) {id : NodeId} :
    t.isLive id = true ↔ t.Under root id := by
  constructor
  · induction id using h.up_induction with
    | step id ih =>
        intro hl
        cases hp : (t.node id).parent with
        | none =>
            simp only [isLive, reachesRoot_of_none hp, Bool.and_eq_true, beq_iff_eq] at hl
            exact hl.2 ▸ .refl
        | some parent =>
            rw [h.isLive_of_some hp, Bool.and_eq_true, Bool.not_eq_true'] at hl
            exact (ih parent hp hl.2).child (h.mem_children.mpr ⟨hp, hl.1⟩)
  · intro hu
    induction hu with
    | refl => exact h.isLive_root
    | child _ hc ih => rwa [h.isLive_child hc]

theorem mem_liveNodes (h : t.WellFormed) {id : NodeId} :
    id ∈ t.liveNodes ↔ t.isLive id = true := by
  rw [h.isLive_iff_under]
  exact h.mem_subtree

theorem kept_of_isLive (h : t.WellFormed) {id : NodeId} (hl : t.isLive id = true) :
    (t.node id).deleted = false := by
  cases hd : (t.node id).deleted with
  | false => rfl
  | true =>
      obtain ⟨parent, hp⟩ := Option.isSome_iff_exists.mp (h.deleted_parent hd)
      simp [h.isLive_of_some hp, hd] at hl

theorem lt_size_of_isLive (h : t.WellFormed) {id : NodeId} (hl : t.isLive id = true) :
    id.index < t.size :=
  (h.isLive_iff_under.mp hl).lt_size h h.size_pos

end WellFormed

namespace WellFormed

variable {t u : Tree}

/-- An added child is live exactly if its parent is, and nothing else changes. -/
theorem isLive_addChild (h : t.WellFormed) {parent : NodeId} {name : UnitName}
    (hp : parent.index < t.size) (hf : t.findChild? parent name = none) (id : NodeId) :
    (t.addChild parent name).isLive id =
      if id = t.nextId then t.isLive parent else t.isLive id := by
  have hu := h.addChild hp hf
  have olds : ∀ id, id ≠ t.nextId → (t.addChild parent name).isLive id = t.isLive id := by
    intro id
    induction id using h.up_induction with
    | step id ih =>
        intro hid
        have hparent : ((t.addChild parent name).node id).parent = (t.node id).parent := by
          rw [addChild_parent hp, if_neg hid]
        cases hq : (t.node id).parent with
        | none =>
            simp only [isLive, reachesRoot_of_none hq, reachesRoot_of_none (hparent.trans hq),
              addChild_deleted hp]
        | some q =>
            have hlt := Nat.lt_trans (h.parent_lt hq) (lt_size_of_parent hq)
            rw [hu.isLive_of_some (hparent.trans hq), h.isLive_of_some hq, addChild_deleted hp,
              ih q hq (ne_nextId hlt)]
  split
  · rename_i hid
    subst hid
    have hparent : ((t.addChild parent name).node t.nextId).parent = some parent := by
      rw [addChild_parent hp, if_pos rfl]
    rw [hu.isLive_of_some hparent, addChild_deleted hp, node_nextId, olds parent (ne_nextId hp)]
    rfl
  · rename_i hid
    exact olds id hid

section DeleteNode

variable {target parent : NodeId} {deletedBy : AstRef} (h : t.WellFormed)
  (hu : t.deleteNode? target deletedBy = some u)
include h hu

/-- Deleting a node leaves what hangs under it as it is. -/
theorem under_deleteNode? {id : NodeId} : u.Under target id ↔ t.Under target id := by
  obtain ⟨parent, hp, -⟩ := Option.map_eq_some_iff.mp hu
  have hlt := h.parent_lt hp
  have hchildren := deleteNode?_children hp hlt hu
  constructor
  · intro hd
    induction hd with
    | refl => exact .refl
    | child _ hc ih =>
        rw [hchildren] at hc
        split at hc
        · exact ih.child (List.mem_of_mem_filter hc)
        · exact ih.child hc
  · intro hd
    induction hd with
    | refl => exact .refl
    | child hd hc ih =>
        -- The one list of children that changed is above the deleted node.
        refine ih.child ?_
        rw [hchildren, if_neg]
        · exact hc
        · rintro rfl
          exact Nat.not_lt_of_le (hd.index_le h) hlt

/-- Deleting a node takes life from it and from all that hangs under it, and from nothing else. -/
theorem isLive_deleteNode? (hk : (t.node target).deleted = false) {id : NodeId} :
    u.isLive id = true ↔ t.isLive id = true ∧ ¬ t.Under target id := by
  have hw := h.deleteNode? hk hu
  obtain ⟨parent, hp, -⟩ := Option.map_eq_some_iff.mp hu
  have hlt := h.parent_lt hp
  have hparents := deleteNode?_parent hp hlt hu
  have hdeleted := deleteNode?_deleted hp hlt hu
  induction id using h.up_induction with
  | step id ih =>
      by_cases hid : id = target
      · subst hid
        rw [hw.isLive_of_some ((hparents id).trans hp), hdeleted, if_pos rfl]
        constructor
        · intro hl
          cases hl
        · rintro ⟨-, hl⟩
          exact absurd .refl hl
      · cases hq : (t.node id).parent with
        | none =>
            have hout : ¬ t.Under target id := by
              intro hd
              obtain ⟨q, hq', -⟩ := hd.parent_of_ne h hid
              rw [hq] at hq'
              cases hq'
            simp only [isLive, reachesRoot_of_none hq, reachesRoot_of_none ((hparents id).trans hq),
              hdeleted, if_neg hid, hout, not_false_eq_true, and_true]
        | some q =>
            have hih : u.isLive q = true ↔ t.isLive q = true ∧ ¬ t.Under target q := ih q hq
            rw [hw.isLive_of_some ((hparents id).trans hq), h.isLive_of_some hq, hdeleted,
              if_neg hid, Bool.and_eq_true, Bool.and_eq_true, hih, and_assoc]
            have hbelow : (!(t.node id).deleted) = true →
                (¬ t.Under target q ↔ ¬ t.Under target id) := by
              intro hd
              have hc : id ∈ (t.node q).children :=
                h.mem_children.mpr ⟨hq, by simpa using hd⟩
              refine not_congr ⟨fun hq => hq.child hc, fun hd => ?_⟩
              obtain ⟨q', hq', -, hd'⟩ := hd.parent_of_ne h hid
              rw [hq] at hq'
              cases hq'
              exact hd'
            constructor
            · rintro ⟨hd, hl, hout⟩
              exact ⟨hd, hl, (hbelow hd).mp hout⟩
            · rintro ⟨hd, hl, hout⟩
              exact ⟨hd, hl, (hbelow hd).mpr hout⟩

end DeleteNode

end WellFormed

theorem mem_of_findChild? {t : Tree} {parent child : NodeId} {name : UnitName}
    (h : t.findChild? parent name = some child) :
    child ∈ (t.node parent).children ∧ (t.node child).name = name :=
  ⟨List.mem_of_find?_eq_some h, by simpa using List.find?_some h⟩

theorem mem_of_select? {t : Tree} {candidates : List NodeId} {segment : UnitName} {child : NodeId}
    (h : t.select? candidates segment = some child) : child ∈ candidates := by
  unfold select? at h
  split at h
  · rename_i found hf
    cases h
    exact List.mem_of_find?_eq_some hf
  · split at h
    · cases h
    · exact List.mem_of_find?_eq_some h

theorem mem_of_lookup? {t : Tree} {parent child : NodeId} {segment : UnitName}
    (h : t.lookup? parent segment = some child) : child ∈ (t.node parent).children :=
  mem_of_select? h

/-- A walk along a path stays below its start. -/
theorem under_of_mem_descend {t : Tree} {start id : NodeId} {segments : List UnitName}
    (h : id ∈ t.descend start segments) : t.Under start id := by
  induction segments generalizing start with
  | nil => cases h
  | cons segment rest ih =>
      unfold descend at h
      split at h
      · rename_i next hn
        have hc := mem_of_lookup? hn
        rcases List.mem_cons.mp h with rfl | h
        · exact .of_mem_children hc .refl
        · exact .of_mem_children hc (ih h)
      · cases h

theorem self_mem_subtree (t : Tree) (id : NodeId) : id ∈ t.subtree id := by
  rw [subtree]
  exact List.mem_cons_self

end Tree

namespace Tree.SameShape

variable {t u : Tree}

theorem findChild? (h : t.SameShape u) (parent : NodeId) (name : UnitName) :
    t.findChild? parent name = u.findChild? parent name := by
  simp only [Tree.findChild?, (h.node _).children, (h.node _).name]

theorem lookup? (h : t.SameShape u) (parent : NodeId) (segment : UnitName) :
    t.lookup? parent segment = u.lookup? parent segment := by
  simp only [Tree.lookup?, Tree.select?, (h.node _).children, (h.node _).name]

theorem descend (h : t.SameShape u) (start : NodeId) (segments : List UnitName) :
    t.descend start segments = u.descend start segments := by
  induction segments generalizing start with
  | nil => rfl
  | cons segment rest ih => simp only [Tree.descend, h.lookup?, ih]

theorem lineage (h : t.SameShape u) (id : NodeId) : t.lineage id = u.lineage id :=
  lineage_congr (fun id => (h.node id).parent) id

theorem subtree (h : t.SameShape u) (id : NodeId) : t.subtree id = u.subtree id := by
  induction hn : t.size - id.index using Nat.strongRecOn generalizing id with
  | ind n ih =>
      rw [Tree.subtree, Tree.subtree, (h.node id).children, ← h.size]
      congr 1
      apply List.flatMap_congr
      intro child _
      split
      · rename_i hlt
        exact ih (t.size - child.index) (by omega) child rfl
      · rfl

theorem isLive (h : t.SameShape u) (id : NodeId) : t.isLive id = u.isLive id := by
  simp only [Tree.isLive, Tree.reachesRoot, h.lineage, (h.node _).deleted]

end Tree.SameShape

end Devicetree
