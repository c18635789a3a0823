import Devicetree.Linkage.Visibility
import Devicetree.Source.Parser
import Devicetree.Proofs.Linkage.Sound

/-!
# Liveness has one meaning

Whether a node is live or visible, what its path is and what hangs under it can all be found out by
plain loops that follow the parents up, or the children down with a stack. Such a loop checks
nothing that would make it stop. On the trees that a linking pass goes through the loops stop all
the same, for every node, and they answer as the walks over a tree do. The walk down lists each
node below its start once, a node before what hangs under it, and what hangs under one child before
what hangs under the next.
-/

namespace Devicetree

/-! ### Loops -/

/-- What one round of a loop comes to. -/
inductive Round (σ ρ : Type)
  | again (state : σ)
  | done (answer : ρ)

/-- A loop is given by what it does in one round. -/
def Loop (σ ρ : Type) : Type :=
  σ → Round σ ρ

/-- A loop that stops with an answer after finitely many rounds. -/
inductive Loop.Ends {σ ρ : Type} (loop : Loop σ ρ) : σ → ρ → Prop
  | done {s : σ} {r : ρ} (h : loop s = .done r) : Ends loop s r
  | again {s next : σ} {r : ρ} (h : loop s = .again next) (hr : Ends loop next r) : Ends loop s r

/-- A loop that stops has one answer. -/
theorem Loop.Ends.iff {σ ρ : Type} {loop : Loop σ ρ} {s : σ} {answer : ρ}
    (h : loop.Ends s answer) (r : ρ) : loop.Ends s r ↔ r = answer := by
  constructor
  · intro hr
    induction h with
    | done hdone =>
        cases hr with
        | done h => exact Round.done.inj (h.symm.trans hdone)
        | again h _ => cases h.symm.trans hdone
    | again hagain _ ih =>
        cases hr with
        | done h => cases h.symm.trans hagain
        | again h hr =>
            cases h.symm.trans hagain
            exact ih hr
  · rintro rfl
    exact h

namespace Tree

/-- Up the parents, as long as a test holds; the last node has to be the root. -/
def climb (t : Tree) (holds : NodeId → Bool) : Loop NodeId Bool := fun current =>
  if holds current then
    match (t.node current).parent with
    | some parent => .again parent
    | none => .done (current == root)
  else .done false

/-- The path with these names, the first of which is written last. -/
def writePath (names : List String) : String :=
  if names.isEmpty then "/" else names.reverse.foldl (fun path name => path ++ "/" ++ name) ""

/-- Up the parents, gathering names. -/
def gatherPath (t : Tree) : Loop (NodeId × List String) String := fun (current, names) =>
  match (t.node current).parent with
  | some parent => .again (parent, names ++ [(t.node current).name.text])
  | none => .done (writePath names)

/-- Down the children. The next node is the last on the stack, in whose place its children are put,
the first of them last. -/
def popSubtree (t : Tree) : Loop (List NodeId × List NodeId) (List NodeId) := fun (out, stack) =>
  match stack.getLast? with
  | some next => .again (out ++ [next], stack.dropLast ++ (t.node next).children.reverse)
  | none => .done out

/-! ### The loops stop -/

/-- The names on the way from a node to its top, the node's own first. -/
def namesUp (t : Tree) (id : NodeId) : List String :=
  (t.lineage id).dropLast.map fun member => (t.node member).name.text

theorem path_eq_writePath (t : Tree) (id : NodeId) : t.path id = writePath (t.namesUp id) := by
  have hjoin : ∀ (names : List String) (start : String),
      names.foldl (fun path name => path ++ "/" ++ name) start =
        (names.map ("/" ++ ·)).foldl (· ++ ·) start := by
    intro names
    induction names with
    | nil => exact fun _ => rfl
    | cons name names ih =>
        intro start
        rw [List.foldl_cons, List.map_cons, List.foldl_cons, ih, String.append_assoc]
  unfold path
  split
  · rename_i hnone
    simp [writePath, namesUp, hnone]
  · rename_i hsome
    have hnames : ¬ (t.namesUp id).isEmpty := fun hempty =>
      hsome (List.map_eq_nil_iff.mp (List.isEmpty_iff.mp hempty))
    rw [writePath, if_neg hnames, hjoin, namesUp, ← List.map_reverse, List.map_map]
    rfl

namespace WellFormed

variable {t : Tree}

theorem ends_climb (h : t.WellFormed) (holds : NodeId → Bool) (id : NodeId) :
    (t.climb holds).Ends id (t.reachesRoot id holds) := by
  induction id using h.up_induction with
  | step id ih =>
      cases hholds : holds id with
      | false =>
          have hanswer : t.reachesRoot id holds = false := by
            cases hp : (t.node id).parent with
            | none => simp [reachesRoot_of_none hp, hholds]
            | some parent => simp [h.reachesRoot_of_some hp, hholds]
          rw [hanswer]
          exact .done (by simp [climb, hholds])
      | true =>
          cases hp : (t.node id).parent with
          | none =>
              rw [reachesRoot_of_none hp, hholds, Bool.true_and]
              exact .done (by simp [climb, hholds, hp])
          | some parent =>
              rw [h.reachesRoot_of_some hp, hholds, Bool.true_and]
              exact .again (by simp [climb, hholds, hp]) (ih parent hp)

theorem namesUp_of_some (h : t.WellFormed) {id parent : NodeId}
    (hp : (t.node id).parent = some parent) :
    t.namesUp id = (t.node id).name.text :: t.namesUp parent := by
  have hne : t.lineage parent ≠ [] := by
    rw [lineage]
    split
    · simp
    · split <;> simp
  rw [namesUp, h.lineage_of_some hp, List.dropLast_cons_of_ne_nil hne, List.map_cons]
  rfl

theorem ends_gatherPath (h : t.WellFormed) (id : NodeId) :
    t.gatherPath.Ends (id, []) (t.path id) := by
  have hgather : ∀ id names,
      t.gatherPath.Ends (id, names) (writePath (names ++ t.namesUp id)) := by
    intro id
    induction id using h.up_induction with
    | step id ih =>
        intro names
        cases hp : (t.node id).parent with
        | none =>
            have hnone : t.namesUp id = [] := by
              rw [namesUp, lineage_of_none hp]
              rfl
            rw [hnone, List.append_nil]
            exact .done (by simp [gatherPath, hp])
        | some parent =>
            have hnext := ih parent hp (names ++ [(t.node id).name.text])
            rw [List.append_assoc, List.singleton_append, ← h.namesUp_of_some hp] at hnext
            exact .again (by simp [gatherPath, hp]) hnext
  rw [path_eq_writePath]
  exact hgather id []

/-- What is left to list when the loop down has a stack. -/
theorem ends_popSubtree (h : t.WellFormed) (out stack : List NodeId) :
    t.popSubtree.Ends (out, stack) (out ++ stack.reverse.flatMap t.subtree) := by
  -- Each round lists one node of those that are left.
  induction hn : (stack.reverse.flatMap t.subtree).length generalizing out stack with
  | zero =>
      have hempty : stack = [] := by
        cases hlast : stack.reverse with
        | nil => exact List.reverse_eq_nil_iff.mp hlast
        | cons next rest =>
            rw [hlast, List.flatMap_cons, h.subtree_eq] at hn
            cases hn
      subst hempty
      rw [List.reverse_nil, List.flatMap_nil, List.append_nil]
      exact .done rfl
  | succ n ih =>
      rcases List.eq_nil_or_concat stack with rfl | ⟨rest, next, rfl⟩
      · cases hn
      · have hleft : (rest ++ [next]).reverse.flatMap t.subtree =
            next :: (rest ++ (t.node next).children.reverse).reverse.flatMap t.subtree := by
          rw [List.reverse_append, List.reverse_append, List.reverse_reverse, List.flatMap_append,
            List.flatMap_append, List.reverse_singleton, List.flatMap_singleton, h.subtree_eq]
          rfl
        rw [List.concat_eq_append, hleft] at hn ⊢
        have hrest := ih (out ++ [next]) (rest ++ (t.node next).children.reverse)
          (Nat.succ.inj hn)
        rw [List.append_assoc, List.singleton_append] at hrest
        exact .again (by simp [popSubtree]) hrest

end WellFormed

/-! ### The order of the walk down -/

/-- Of two nodes below a top, the first comes before the second: the second hangs under it, or they
hang under two children of one node, in this order. -/
def Precedes (t : Tree) (top a b : NodeId) : Prop :=
  (t.Under top a ∧ t.Under a b ∧ a ≠ b) ∨
    ∃ parent c d, t.Under top parent ∧ [c, d].Sublist (t.node parent).children ∧
      t.Under c a ∧ t.Under d b

theorem Precedes.of_mem_children {t : Tree} {top child a b : NodeId}
    (hc : child ∈ (t.node top).children) (h : t.Precedes child a b) : t.Precedes top a b := by
  rcases h with ⟨ha, hab⟩ | ⟨parent, c, d, hparent, hcd⟩
  · exact .inl ⟨.of_mem_children hc ha, hab⟩
  · exact .inr ⟨parent, c, d, .of_mem_children hc hparent, hcd⟩

end Tree

/-- One element comes before another in two lists put together. -/
theorem pair_sublist_append {α : Type} {a b : α} {l₁ l₂ : List α} :
    [a, b].Sublist (l₁ ++ l₂) ↔
      [a, b].Sublist l₁ ∨ (a ∈ l₁ ∧ b ∈ l₂) ∨ [a, b].Sublist l₂ := by
  constructor
  · intro h
    obtain ⟨front, back, hsplit, hfront, hback⟩ := List.sublist_append_iff.mp h
    rcases List.append_eq_cons_iff.mp hsplit.symm with ⟨rfl, rfl⟩ | ⟨more, rfl, hmore⟩
    · exact .inr (.inr hback)
    · rcases List.append_eq_cons_iff.mp hmore.symm with ⟨rfl, rfl⟩ | ⟨others, rfl, hothers⟩
      · exact .inr (.inl ⟨List.singleton_sublist.mp hfront, List.singleton_sublist.mp hback⟩)
      · obtain ⟨rfl, -⟩ := List.append_eq_nil_iff.mp hothers.symm
        exact .inl hfront
  · rintro (h | ⟨ha, hb⟩ | h)
    · exact h.trans (List.sublist_append_left _ _)
    · exact (List.singleton_sublist.mpr ha).append (List.singleton_sublist.mpr hb)
    · exact h.trans (List.sublist_append_right _ _)

theorem pair_sublist_flatMap {α β : Type} {f : α → List β} {a b : β} {l : List α} :
    [a, b].Sublist (l.flatMap f) ↔
      (∃ c ∈ l, [a, b].Sublist (f c)) ∨ ∃ c d, [c, d].Sublist l ∧ a ∈ f c ∧ b ∈ f d := by
  induction l with
  | nil => simp
  | cons x l ih =>
      rw [List.flatMap_cons, pair_sublist_append, ih]
      constructor
      · rintro (h | ⟨ha, hb⟩ | ⟨c, hc, h⟩ | ⟨c, d, hcd, h⟩)
        · exact .inl ⟨x, List.mem_cons_self, h⟩
        · obtain ⟨d, hd, hb⟩ := List.mem_flatMap.mp hb
          exact .inr ⟨x, d, (List.singleton_sublist.mpr hd).cons_cons x, ha, hb⟩
        · exact .inl ⟨c, List.mem_cons_of_mem x hc, h⟩
        · exact .inr ⟨c, d, hcd.cons x, h⟩
      · rintro (⟨c, hc, h⟩ | ⟨c, d, hcd, ha, hb⟩)
        · rcases List.mem_cons.mp hc with rfl | hc
          · exact .inl h
          · exact .inr (.inr (.inl ⟨c, hc, h⟩))
        · cases hcd with
          | cons _ hcd => exact .inr (.inr (.inr ⟨c, d, hcd, ha, hb⟩))
          | cons_cons _ hd =>
              have hb := List.mem_flatMap.mpr ⟨d, List.singleton_sublist.mp hd, hb⟩
              exact .inr (.inl ⟨ha, hb⟩)

namespace Tree.WellFormed

variable {t : Tree}

/-- What hangs under a node is that node, or hangs under one of its children. -/
theorem under_iff (h : t.WellFormed) {top id : NodeId} :
    t.Under top id ↔ id = top ∨ ∃ child ∈ (t.node top).children, t.Under child id := by
  simp only [← h.mem_subtree, h.subtree_eq top, List.mem_cons, List.mem_flatMap]

theorem not_under_parent (h : t.WellFormed) {top child : NodeId}
    (hc : child ∈ (t.node top).children) : ¬ t.Under child top :=
  fun hu => Nat.not_lt_of_le (hu.index_le h) (h.lt_of_mem_children hc)

/-- The walk down is in pre-order. -/
theorem sublist_subtree (h : t.WellFormed) (top : NodeId) {a b : NodeId} :
    [a, b].Sublist (t.subtree top) ↔ t.Precedes top a b := by
  induction top using h.down_induction with
  | step top ih =>
      rw [h.subtree_eq, List.sublist_cons_iff, pair_sublist_flatMap]
      constructor
      · rintro ((⟨child, hc, hab⟩ | ⟨c, d, hcd, ha, hb⟩) | ⟨rest, hrest, hb⟩)
        · exact .of_mem_children hc ((ih child hc).mp hab)
        · exact .inr ⟨top, c, d, .refl, hcd, h.mem_subtree.mp ha, h.mem_subtree.mp hb⟩
        · obtain ⟨rfl, rfl⟩ := List.cons.inj hrest
          obtain ⟨child, hc, hb⟩ := List.mem_flatMap.mp (List.singleton_sublist.mp hb)
          have hbelow := h.mem_subtree.mp hb
          refine .inl ⟨.refl, .of_mem_children hc hbelow, ?_⟩
          rintro rfl
          exact h.not_under_parent hc hbelow
      · rintro (⟨ha, hab, hne⟩ | ⟨parent, c, d, hparent, hcd, ha, hb⟩)
        · rcases h.under_iff.mp ha with rfl | ⟨child, hc, ha⟩
          · -- The first is the top, and the second is any node below.
            rcases h.under_iff.mp hab with rfl | ⟨child, hc, hab⟩
            · exact absurd rfl hne
            · refine .inr ⟨[b], rfl, List.singleton_sublist.mpr ?_⟩
              exact List.mem_flatMap.mpr ⟨child, hc, h.mem_subtree.mpr hab⟩
          · exact .inl (.inl ⟨child, hc, (ih child hc).mpr (.inl ⟨ha, hab, hne⟩)⟩)
        · rcases h.under_iff.mp hparent with rfl | ⟨child, hc, hparent⟩
          · exact .inl (.inr ⟨c, d, hcd, h.mem_subtree.mpr ha, h.mem_subtree.mpr hb⟩)
          · have hbelow : t.Precedes child a b := .inr ⟨parent, c, d, hparent, hcd, ha, hb⟩
            exact .inl (.inl ⟨child, hc, (ih child hc).mpr hbelow⟩)

end Tree.WellFormed

/-! ### The trees of a pass -/

namespace Linkage

/-- A tree that linking some files comes to: between two actions, or in the result. -/
inductive Reaches (files : List SourceFile) : Tree → Prop
  | passing (count : Nat) : Reaches files (passAt files count).tree
  | result (reportUnresolved : Bool) (generation : Nat) :
      Reaches files (link files reportUnresolved generation).tree

theorem Reaches.wellFormed {files : List SourceFile} {t : Tree} (h : Reaches files t) :
    t.WellFormed := by
  cases h with
  | passing count => exact wellFormed_of_bare (sound_passAt files count).tree
  | result reportUnresolved generation => exact wellFormed_link files reportUnresolved generation

/-- On every tree that linking comes to, and for every node, the loops up that tell whether the
node is live, what its path is and whether it is visible at a cursor stop, and so does the loop
down with a stack. The last lists the node and exactly what hangs under it, each once and in
pre-order. A node is live by the way up exactly if the way down from the root meets it. -/
theorem liveness_has_one_meaning {files : List SourceFile} {t : Tree} (ht : Reaches files t)
    (id : NodeId) :
    (∀ r, (t.climb fun member => !(t.node member).deleted).Ends id r ↔ r = t.isLive id) ∧
      (∀ r, t.gatherPath.Ends (id, []) r ↔ r = t.path id) ∧
      (∀ (l : Linkage) (c : Cursor), l.tree = t → ∀ r,
        (t.climb fun member => !l.deletedAt c member).Ends id r ↔ r = l.visibleAt c id) ∧
      (∀ r, t.popSubtree.Ends ([], [id]) r ↔ r = t.subtree id) ∧
      (∀ a, a ∈ t.subtree id ↔ t.Under id a) ∧
      (t.subtree id).Nodup ∧
      (∀ a b, [a, b].Sublist (t.subtree id) ↔ t.Precedes id a b) ∧
      (t.isLive id = true ↔ id ∈ t.liveNodes) := by
  have h := ht.wellFormed
  refine ⟨?_, ?_, ?_, ?_, ?_, ?_, ?_, ?_⟩
  · exact (h.ends_climb _ id).iff
  · exact (h.ends_gatherPath id).iff
  · rintro l c rfl
    exact (h.ends_climb _ id).iff
  · have hends := h.ends_popSubtree [] [id]
    rw [List.nil_append, List.reverse_singleton, List.flatMap_singleton] at hends
    exact hends.iff
  · exact fun a => h.mem_subtree
  · exact h.nodup_subtree id
  · exact fun a b => h.sublist_subtree id
  · exact h.mem_liveNodes.symm

/-- A node with two children is deleted, and a block without a target has a child. -/
def prunedFile : SourceFile :=
  .read ⟨0⟩ "/ \x7b a: n \x7b m \x7b \x7d; k \x7b \x7d; \x7d; b \x7b \x7d; \x7d;
    /delete-node/ &a; &z \x7b q \x7b \x7d; \x7d;".toList

/-- What was deleted can still be walked, and neither it nor what was never attached is live. -/
theorem prunedFile_walks :
    let t := (link [prunedFile] true 0).tree
    t.popSubtree.Ends ([], [⟨1⟩]) [⟨1⟩, ⟨2⟩, ⟨3⟩] ∧ t.gatherPath.Ends (⟨3⟩, []) "/n/k" ∧
      (∀ id ∈ t.ids, (t.climb fun member => !(t.node member).deleted).Ends id
        (decide (id ∈ [⟨0⟩, ⟨4⟩]))) ∧
      t.liveNodes = [⟨0⟩, ⟨4⟩] := by
  intro t
  have hreached : Reaches [prunedFile] t := .result true 0
  have hwalks := liveness_has_one_meaning hreached
  obtain ⟨hsubtree, hpath, hlive, hnodes⟩ : t.subtree ⟨1⟩ = [⟨1⟩, ⟨2⟩, ⟨3⟩] ∧
      t.path ⟨3⟩ = "/n/k" ∧ (∀ id ∈ t.ids, t.isLive id = decide (id ∈ [⟨0⟩, ⟨4⟩])) ∧
      t.liveNodes = [⟨0⟩, ⟨4⟩] := by
    decide +kernel
  refine ⟨?_, ?_, fun id hid => ?_, hnodes⟩
  · exact ((hwalks ⟨1⟩).2.2.2.1 _).mpr hsubtree.symm
  · exact ((hwalks ⟨3⟩).2.1 _).mpr hpath.symm
  · exact ((hwalks id).1 _).mpr (hlive id hid).symm

end Linkage

end Devicetree
