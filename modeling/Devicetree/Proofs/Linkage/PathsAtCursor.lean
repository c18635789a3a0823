import Mathlib.Data.List.Find
import Devicetree.Proofs.Linkage.Past

/-!
# Paths as seen from a cursor

A path from the root, followed as seen from a place between two top-level statements, should lead
where it led when nothing after that place was linked. Where each segment is the full name of a
child it does. A segment that lacks the unit address stands for the first of several namesakes, and
of what is visible the nodes that are deleted later come last, in the order of their deletion. So
another namesake comes first if the first one is deleted later, unless all of them are and it is
the first to go. There is no other case: the main result is an equivalence.
-/

namespace Devicetree

namespace Tree

/-! ### The order of creation -/

/-- The children of every node stand in the order of their creation. -/
def InOrder (t : Tree) : Prop :=
  ∀ id, (t.node id).children.Pairwise (·.index < ·.index)

theorem inOrder_start : start.InOrder := by
  intro id
  rw [node_start]
  split
  · exact List.Pairwise.nil
  · exact List.Pairwise.nil

theorem InOrder.edited {t u : Tree} {mark : Span → Prop} (h : t.InOrder) (ht : t.WellFormed)
    (he : t.Edited mark u) : u.InOrder := by
  intro id
  refine List.Pairwise.sublist (he.children id) (List.pairwise_append.mpr
    ⟨h id, List.pairwise_singleton _ _, fun child hchild next hnext => ?_⟩)
  rw [List.mem_singleton.mp hnext]
  exact ht.lt_size_of_mem_children hchild

/-! ### Namesakes -/

/-- The children in force of a node that share a name, whatever their unit addresses. -/
def namesakes (t : Tree) (parent : NodeId) (name : String) : List NodeId :=
  (t.node parent).children.filter fun child => (t.node child).name.name = name

/-- Of some namesakes the first one still comes first: it has not been deleted since, or all of
them have been and it was the first to go. -/
def StaysFirst (now past : Tree) (parent : NodeId) (name : String) : Prop :=
  ∀ first ∈ (past.namesakes parent name).head?,
    (now.node first).deleted = false ∨
      (∀ other ∈ past.namesakes parent name, (now.node other).deleted = true) ∧
        ((now.node parent).deletedNodes.map (·.target)).find? (· ∈ past.namesakes parent name) =
          some first

/-- A segment that did not give the full name of a child still stands for the same one. -/
def Settled (now past : Tree) (parent : NodeId) (segment : UnitName) : Prop :=
  segment.address = none → past.findChild? parent segment = none →
    now.StaysFirst past parent segment.name

/-- All segments on the way that a path led in the past are settled. -/
def Steady (now past : Tree) : NodeId → List UnitName → Prop
  | _, [] => True
  | id, segment :: rest =>
    now.Settled past id segment ∧ ∀ next ∈ past.lookup? id segment, now.Steady past next rest

instance (now past : Tree) (parent : NodeId) (name : String) :
    Decidable (now.StaysFirst past parent name) :=
  inferInstanceAs (Decidable (∀ first ∈ (past.namesakes parent name).head?, _))

instance (now past : Tree) (parent : NodeId) (segment : UnitName) :
    Decidable (now.Settled past parent segment) :=
  inferInstanceAs (Decidable (_ → _ → _))

instance decidableSteady (now past : Tree) : ∀ id path, Decidable (now.Steady past id path)
  | _, [] => isTrue trivial
  | id, segment :: rest =>
    haveI := fun next => decidableSteady now past next rest
    inferInstanceAs (Decidable (now.Settled past id segment ∧
      ∀ next ∈ past.lookup? id segment, now.Steady past next rest))

/-- A walk from children to children stays below its start. -/
theorem under_of_foldlM {t : Tree} {next : NodeId → UnitName → Option NodeId}
    (hnext : ∀ {id segment child}, next id segment = some child → child ∈ (t.node id).children)
    {path : List UnitName} {id n : NodeId} (h : path.foldlM next id = some n) : t.Under id n := by
  induction path generalizing id with
  | nil =>
      cases h
      exact .refl
  | cons segment path ih =>
      obtain ⟨child, hchild, h⟩ := Option.bind_eq_some_iff.mp h
      exact .of_mem_children (hnext hchild) (ih h)

end Tree

namespace Linkage

theorem inOrder_link (files : List SourceFile) (reportUnresolved : Bool) (generation : Nat) :
    (link files reportUnresolved generation).tree.InOrder := by
  have hall : ∀ a ∈ actionsOf files, ∀ s ∈ a.spans, True := fun _ _ _ _ => trivial
  have h : (outlineOf files).tree.InOrder :=
    Outline.edited_run (fun ht h he => h.edited ht he) .start hall Tree.inOrder_start
  intro id
  have hid := h id
  rwa [← link_tree_bare _ reportUnresolved generation, Tree.node_bare] at hid

/-! ### One segment -/

/-- Where there is only one to be found, the order does not matter. -/
theorem find?_eq_of_unique {α : Type} {as bs : List α} {p q : α → Bool}
    (hmem : ∀ a, (a ∈ as ∧ p a = true) ↔ (a ∈ bs ∧ q a = true))
    (hunique : ∀ a ∈ bs, ∀ b ∈ bs, q a = true → q b = true → a = b) :
    as.find? p = bs.find? q := by
  cases hb : bs.find? q with
  | none =>
      rw [List.find?_eq_none] at hb ⊢
      exact fun a ha hp => hb a ((hmem a).mp ⟨ha, hp⟩).1 ((hmem a).mp ⟨ha, hp⟩).2
  | some b =>
      have hbmem := List.mem_of_find?_eq_some hb
      have hbq := List.find?_some hb
      obtain ⟨hbas, hbp⟩ := (hmem b).mpr ⟨hbmem, hbq⟩
      obtain ⟨a, ha⟩ := Option.isSome_iff_exists.mp (List.find?_isSome.mpr ⟨b, hbas, hbp⟩)
      obtain ⟨habs, haq⟩ := (hmem a).mp ⟨List.mem_of_find?_eq_some ha, List.find?_some ha⟩
      rw [ha, hunique a habs b hbmem haq hbq]

/-- Of nodes in the order of their creation the earliest is found first. -/
theorem find?_eq_earliest {ids : List NodeId} (hids : ids.Pairwise (·.index < ·.index))
    {p : NodeId → Bool} {first : NodeId} (hfirst : first ∈ ids) (hp : p first = true)
    (hle : ∀ id ∈ ids, p id = true → first.index ≤ id.index) : ids.find? p = some first := by
  obtain ⟨before, after, rfl⟩ := List.append_of_mem hfirst
  have hbefore : before.find? p = none := by
    rw [List.find?_eq_none]
    intro id hid hpid
    have hlt := (List.pairwise_append.mp hids).2.2 id hid first List.mem_cons_self
    exact absurd (hle id (List.mem_append_left _ hid) hpid) (Nat.not_le.mpr hlt)
  rw [List.find?_append, hbefore, Option.none_or, List.find?_cons_of_pos hp]

/-- Where nodes that are gone come after those that are kept, the first of some nodes is found
exactly if it is kept, or all of them are gone and it comes first among the gone. -/
theorem find?_eq_head?_iff {ids kept gone : List NodeId} {deleted : NodeId → Bool}
    (hids : ids.Pairwise (·.index < ·.index)) (hkept : kept.Pairwise (·.index < ·.index))
    (hmem : ∀ id ∈ ids, id ∈ kept ↔ deleted id = false) :
    (kept ++ gone).find? (· ∈ ids) = ids.head? ↔
      ∀ first ∈ ids.head?, deleted first = false ∨
        (∀ other ∈ ids, deleted other = true) ∧ gone.find? (· ∈ ids) = some first := by
  cases ids with
  | nil => simp
  | cons first others =>
      have hone : ∀ {P : NodeId → Prop}, (∀ id ∈ (first :: others).head?, P id) ↔ P first :=
        ⟨fun hall => hall first rfl, fun hp id hid => by cases hid; exact hp⟩
      rw [hone, List.head?_cons, List.find?_append]
      cases hdeleted : deleted first with
      | false =>
          have hfound : kept.find? (· ∈ first :: others) = some first := by
            refine find?_eq_earliest hkept ((hmem first List.mem_cons_self).mpr hdeleted) (by simp)
              fun other _ hother => ?_
            rcases List.mem_cons.mp (of_decide_eq_true hother) with rfl | hother
            · exact Nat.le_refl _
            · exact Nat.le_of_lt ((List.pairwise_cons.mp hids).1 other hother)
          rw [hfound]
          simp
      | true =>
          cases hfind : kept.find? (· ∈ first :: others) with
          | some found =>
              -- Another one is kept, and it is found before the first one.
              have hin : found ∈ first :: others := by simpa using List.find?_some hfind
              have hfound := (hmem found hin).mp (List.mem_of_find?_eq_some hfind)
              constructor
              · intro heq
                cases heq
                cases hdeleted.symm.trans hfound
              · rintro (hk | ⟨hall, -⟩)
                · cases hk
                · cases (hall found hin).symm.trans hfound
          | none =>
              have hall : ∀ other ∈ first :: others, deleted other = true := by
                intro other hother
                by_contra hk
                exact List.find?_eq_none.mp hfind other
                  ((hmem other hother).mpr (Bool.eq_false_iff.mpr hk)) (decide_eq_true hother)
              rw [Option.none_or]
              constructor
              · exact fun heq => .inr ⟨hall, heq⟩
              · rintro (hk | ⟨-, heq⟩)
                · cases hk
                · exact heq

namespace Recalls

variable {now past : Linkage} {c : Cursor} (h : now.Recalls past c) {id : NodeId}
include h

theorem name_eq {parent child : NodeId} (hc : child ∈ (past.tree.node parent).children) :
    (now.tree.node child).name = (past.tree.node child).name :=
  h.grown.name child (h.past_wellFormed.lt_size_of_mem_children hc)

/-- What a segment stands for as seen from the cursor was a child in the past. -/
theorem mem_of_visible {segment : UnitName} {child : NodeId}
    (hc : now.tree.select? (now.visibleChildren c id) segment = some child) :
    child ∈ (past.tree.node id).children :=
  (h.mem_visibleChildren.mp (Tree.mem_of_select? hc)).2

section Live

variable (hlive : past.tree.isLive id = true)
include hlive

/-- A full name stands for one child at most, so it finds what it found. -/
theorem find?_fullName (segment : UnitName) :
    ((now.visibleChildren c id).find? fun child => (now.tree.node child).name = segment) =
      past.tree.findChild? id segment := by
  apply find?_eq_of_unique
  · intro child
    rw [h.mem_visibleChildren]
    constructor
    · rintro ⟨⟨-, hc⟩, hname⟩
      exact ⟨hc, by rwa [← h.name_eq hc]⟩
    · rintro ⟨hc, hname⟩
      exact ⟨⟨hlive, hc⟩, by rwa [h.name_eq hc]⟩
  · intro a ha b hb hna hnb
    exact h.past_wellFormed.siblings ha hb
      ((of_decide_eq_true hna).trans (of_decide_eq_true hnb).symm)

/-- A name alone finds one of the namesakes of the past. -/
theorem find?_name (name : String) :
    ((now.visibleChildren c id).find? fun child => (now.tree.node child).name.name = name) =
      ((now.tree.node id).children ++ (now.tree.node id).deletedNodes.map (·.target)).find?
        (· ∈ past.tree.namesakes id name) := by
  rw [visibleChildren, List.find?_filter]
  apply List.find?_congr
  intro child hchild
  have hvisible : (now.visibleAt c child && now.definedAt c child) = true ↔
      child ∈ (past.tree.node id).children := by
    have hmem : child ∈ now.visibleChildren c id ↔ _ := h.mem_visibleChildren
    rw [visibleChildren, List.mem_filter] at hmem
    exact ⟨fun hv => (hmem.mp ⟨hchild, hv⟩).2, fun hc => (hmem.mpr ⟨hlive, hc⟩).2⟩
  rw [decide_eq_decide, hvisible, Tree.namesakes, List.mem_filter]
  refine and_congr_right fun hc => ?_
  rw [h.name_eq hc]

/-- The first namesake of the past is found exactly if it stays first. -/
theorem find?_name_eq_iff (hnow : now.tree.InOrder) (hpast : past.tree.InOrder) (name : String) :
    ((now.visibleChildren c id).find? fun child => (now.tree.node child).name.name = name) =
        (past.tree.namesakes id name).head? ↔
      now.tree.StaysFirst past.tree id name := by
  rw [h.find?_name hlive]
  refine find?_eq_head?_iff (List.Pairwise.sublist List.filter_sublist (hpast id)) (hnow id)
    fun other hother => ?_
  have hc := List.mem_of_mem_filter hother
  rw [h.now_wellFormed.mem_children,
    h.grown.parent other (h.past_wellFormed.lt_size_of_mem_children hc)]
  exact and_iff_right (h.past_wellFormed.mem_children.mp hc).1

/-- A segment stands for the same child as in the past exactly if it is settled. -/
theorem select?_eq_iff (hnow : now.tree.InOrder) (hpast : past.tree.InOrder)
    (segment : UnitName) :
    now.tree.select? (now.visibleChildren c id) segment = past.tree.lookup? id segment ↔
      now.tree.Settled past.tree id segment := by
  have hfull := h.find?_fullName hlive segment
  have hfirst := h.find?_name_eq_iff hlive hnow hpast segment.name
  rw [Tree.namesakes, List.head?_filter] at hfirst
  rw [Tree.lookup?, Tree.select?, Tree.select?, hfull]
  rw [Tree.findChild?] at hfull ⊢
  rw [Tree.Settled, Tree.findChild?]
  cases (past.tree.node id).children.find? fun child => (past.tree.node child).name = segment with
  | some child => simp
  | none =>
      cases segment.address with
      | some address => simp
      | none => simpa using hfirst

end Live

/-! ### All segments -/

section InOrder

variable (hnow : now.tree.InOrder) (hpast : past.tree.InOrder)
include hnow hpast

theorem foldlM_eq_of_steady {path : List UnitName} (hlive : past.tree.isLive id = true)
    (hsteady : now.tree.Steady past.tree id path) :
    path.foldlM (fun id => now.tree.select? (now.visibleChildren c id)) id =
      path.foldlM past.tree.lookup? id := by
  induction path generalizing id with
  | nil => rfl
  | cons segment path ih =>
      obtain ⟨hsettled, hrest⟩ := hsteady
      rw [List.foldlM_cons, List.foldlM_cons,
        (h.select?_eq_iff hlive hnow hpast segment).mpr hsettled]
      refine Option.bind_congr fun next hnext => ?_
      refine ih ?_ (hrest next hnext)
      exact (h.past_wellFormed.isLive_child (Tree.mem_of_lookup? hnext)).trans hlive

/-- Two ways to one node go through the same nodes. -/
theorem steady_of_foldlM {path : List UnitName} {n : NodeId} (hlive : past.tree.isLive id = true)
    (hold : path.foldlM past.tree.lookup? id = some n)
    (hnew : path.foldlM (fun id => now.tree.select? (now.visibleChildren c id)) id = some n) :
    now.tree.Steady past.tree id path := by
  induction path generalizing id with
  | nil => trivial
  | cons segment path ih =>
      obtain ⟨a, ha, hold⟩ := Option.bind_eq_some_iff.mp hold
      obtain ⟨b, hb, hnew⟩ := Option.bind_eq_some_iff.mp hnew
      have hmem := Tree.mem_of_lookup? ha
      obtain rfl := h.past_wellFormed.eq_of_under_children hmem (h.mem_of_visible hb)
        (Tree.under_of_foldlM Tree.mem_of_lookup? hold)
        (Tree.under_of_foldlM h.mem_of_visible hnew)
      refine ⟨(h.select?_eq_iff hlive hnow hpast segment).mp (hb.trans ha.symm),
        fun next hnext => ?_⟩
      cases hnext.symm.trans ha
      exact ih ((h.past_wellFormed.isLive_child hmem).trans hlive) hold hnew

end InOrder

end Recalls

theorem followPath?_root (labelled : String → Option NodeId)
    (next : NodeId → UnitName → Option NodeId) (rest : List String) :
    followPath? labelled next ("/" :: rest) = (rest.map UnitName.read).foldlM next Tree.root := by
  rw [List.foldlM_map]
  rfl

/-- Between two top-level statements, a path from the root leads where it led when the files ended
there, if of the namesakes it left open the first ones stay first. If they do not it leads
elsewhere, unless it led nowhere. -/
theorem path_leads_back_iff_steady (before : List SourceFile) (f : SourceFile)
    (after : List SourceFile) (p : Position)
    (hparsed : ∀ g ∈ before ++ f :: after, g.Parsed)
    (hnodup : ((before ++ f :: after).map (·.file)).Nodup)
    (hgap : ∀ s ∈ f.statements, s.span.stopPos ≤ p ∨ p ≤ s.span.startPos)
    (reportUnresolved : Bool) (generation : Nat) (rest : List String) :
    let now := link (before ++ f :: after) reportUnresolved generation
    let past := link (before ++ [f.upTo p]) reportUnresolved generation
    let c : Cursor := ⟨f.file, p⟩
    let steady := now.tree.Steady past.tree Tree.root (rest.map UnitName.read)
    (steady → now.resolveAt? c ("/" :: rest) = past.resolveSegments? ("/" :: rest)) ∧
    ∀ n, past.resolveSegments? ("/" :: rest) = some n →
      (now.resolveAt? c ("/" :: rest) = some n ↔ steady) := by
  intro now past c steady
  have hrecalls : now.Recalls past c :=
    recalls_upTo hparsed hnodup hgap reportUnresolved generation
  have hnow : now.tree.InOrder := inOrder_link _ _ _
  have hpast : past.tree.InOrder := inOrder_link _ _ _
  have hlive := hrecalls.past_wellFormed.isLive_root
  simp only [resolveAt?, resolveSegments?, followPath?_root]
  refine ⟨fun hsteady => ?_, fun n hn => ⟨fun hnew => ?_, fun hsteady => ?_⟩⟩
  · exact hrecalls.foldlM_eq_of_steady hnow hpast hlive hsteady
  · exact hrecalls.steady_of_foldlM hnow hpast hlive hn hnew
  · exact (hrecalls.foldlM_eq_of_steady hnow hpast hlive hsteady).trans hn

/-- Two namesakes that are deleted one after the other, read from
`/{c@0{d@1{};};c@1{};};/delete-node/&{/c@0};/delete-node/&{/c@1};`. -/
def emptiedFile : SourceFile :=
  .read ⟨0⟩ ("/\x7bc@0\x7bd@1\x7b\x7d;\x7d;c@1\x7b\x7d;\x7d;/delete-node/&\x7b/c@0\x7d;" ++
    "/delete-node/&\x7b/c@1\x7d;").toList

/-- Before the deletes the path `/c/d` leads into the first of them, though both are gone in the
end. -/
theorem emptiedFile_leads_back :
    let now := link [emptiedFile] true 0
    now.tree.liveNodes = [⟨0⟩] ∧ now.resolveAt? ⟨⟨0⟩, ⟨0, 22⟩⟩ ["/", "c", "d"] = some ⟨2⟩ := by
  have h := path_leads_back_iff_steady [] emptiedFile [] ⟨0, 22⟩
    (fun g hg => by
      rw [List.mem_singleton.mp hg]
      exact ⟨_, rfl⟩)
    (by decide +kernel) (by decide +kernel) true 0 ["c", "d"]
  exact ⟨by decide +kernel, (h.2 ⟨2⟩ (by decide +kernel)).mpr (by decide +kernel)⟩

/-- Two namesakes of which the first is deleted, read from
`/{c@0{};c@1{};};/delete-node/&{/c@0};`. -/
def halvedFile : SourceFile :=
  .read ⟨0⟩ "/\x7bc@0\x7b\x7d;c@1\x7b\x7d;\x7d;/delete-node/&\x7b/c@0\x7d;".toList

/-- Before the delete the path `/c` leads to the second of them, which it did not when the file
ended there. -/
theorem halvedFile_leads_astray :
    (link [halvedFile] true 0).resolveAt? ⟨⟨0⟩, ⟨0, 16⟩⟩ ["/", "c"] = some ⟨2⟩ ∧
      (link [halvedFile.upTo ⟨0, 16⟩] true 0).resolveSegments? ["/", "c"] = some ⟨1⟩ := by
  decide +kernel

end Linkage

end Devicetree
