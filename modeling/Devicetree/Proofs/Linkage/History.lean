import Mathlib.Data.List.Nodup
import Devicetree.Proofs.Linkage.Growth

/-!
# What a tree remembers

Call some spans seen. A pass whose actions leave seen spans only builds a tree that tells of
nothing else. A pass that goes on from there with actions that leave none of them only adds to
what the tree tells: leaving out what was not seen gives back the labels, the definitions, the
tombstones and, of every property, the definition that was in force.
-/

namespace Devicetree

namespace Table

variable {κ ν : Type} [DecidableEq κ]

/-- Where keys are distinct, a key that is present divides the entries in two. -/
theorem exists_split_of_get? {t : Table κ ν} (hn : t.keys.Nodup) {k : κ} {v : ν}
    (h : t.get? k = some v) :
    ∃ front back, t.entries = front ++ (k, v) :: back ∧ (∀ e ∈ front, e.1 ≠ k) ∧
      (∀ e ∈ back, e.1 ≠ k) ∧ ∀ w, (t.insert k w).entries = front ++ (k, w) :: back := by
  obtain ⟨front, back, hsplit, hfront, hinsert⟩ := exists_split_of_lookup? h
  refine ⟨front, back, hsplit, hfront, fun e he hk => ?_, hinsert⟩
  rw [keys, hsplit, List.map_append, List.map_cons] at hn
  have hcons := (List.nodup_append.mp hn).2.1
  exact (List.nodup_cons.mp hcons).1 (List.mem_map.mpr ⟨e, he, hk⟩)

theorem erase_of_split {t : Table κ ν} {k : κ} {v : ν} {front back : List (κ × ν)}
    (hsplit : t.entries = front ++ (k, v) :: back) (hfront : ∀ e ∈ front, e.1 ≠ k)
    (hback : ∀ e ∈ back, e.1 ≠ k) : (t.erase k).entries = front ++ back := by
  have hkeep : ∀ {es : List (κ × ν)}, (∀ e ∈ es, e.1 ≠ k) → es.filter (·.1 ≠ k) = es :=
    fun hes => List.filter_eq_self.mpr fun e he => decide_eq_true (hes e he)
  rw [erase, hsplit, List.filter_append, List.filter_cons_of_neg (by simp), hkeep hfront,
    hkeep hback]

theorem keys_insert_of_some {t : Table κ ν} {k : κ} {v : ν} (h : t.get? k = some v) (w : ν) :
    (t.insert k w).keys = t.keys := by
  obtain ⟨front, back, hsplit, -, hinsert⟩ := exists_split_of_lookup? h
  rw [keys, keys, insert, hinsert w, hsplit]
  simp

theorem nodup_keys_insert {t : Table κ ν} (hn : t.keys.Nodup) (k : κ) (w : ν) :
    (t.insert k w).keys.Nodup := by
  cases h : t.get? k with
  | some v => rwa [keys_insert_of_some h]
  | none =>
      obtain ⟨hfresh, hinsert⟩ := insertEntry_of_lookup?_none h
      rw [keys, insert, hinsert w, List.map_append]
      refine List.nodup_append.mpr ⟨hn, List.nodup_singleton k, ?_⟩
      rintro key hkey other hother rfl
      obtain ⟨e, he, rfl⟩ := List.mem_map.mp hkey
      exact hfresh e he (List.mem_singleton.mp hother)

/-- Of entries with distinct keys, those under a key are the one that is looked up. -/
theorem filter_key {t : Table κ ν} (hn : t.keys.Nodup) (k : κ) :
    t.entries.filter (·.1 = k) = (t.get? k).toList.map (k, ·) := by
  cases h : t.get? k with
  | none =>
      have hfresh := (insertEntry_of_lookup?_none h).1
      exact List.filter_eq_nil_iff.mpr fun e he => by simpa using hfresh e he
  | some v =>
      obtain ⟨front, back, hsplit, hfront, hback, -⟩ := exists_split_of_get? hn h
      have hdrop : ∀ {es : List (κ × ν)}, (∀ e ∈ es, e.1 ≠ k) → es.filter (·.1 = k) = [] :=
        fun hes => List.filter_eq_nil_iff.mpr fun e he => by simpa using hes e he
      rw [hsplit, List.filter_append, List.filter_cons_of_pos (by simp), hdrop hfront,
        hdrop hback]
      rfl

theorem mem_entries_iff {t : Table κ ν} (hn : t.keys.Nodup) {k : κ} {v : ν} :
    (k, v) ∈ t.entries ↔ t.get? k = some v := by
  refine ⟨fun h => ?_, mem_of_get?⟩
  have hm : (k, v) ∈ t.entries.filter (·.1 = k) := List.mem_filter.mpr ⟨h, decide_eq_true rfl⟩
  rw [filter_key hn] at hm
  obtain ⟨w, hw, heq⟩ := List.mem_map.mp hm
  cases heq
  exact Option.mem_toList.mp hw

end Table

namespace Property

/-- The definitions of a property and of all it replaced, newest first. -/
def definitions (p : Property) : List PropertyDef :=
  p.history.map (·.definition)

theorem definition_mem_definitions (p : Property) : p.definition ∈ p.definitions :=
  List.mem_cons_self

@[simp] theorem definitions_fresh (definition : PropertyDef) :
    (fresh definition).definitions = [definition] := rfl

@[simp] theorem definitions_supersede (p previous : Property) :
    (p.supersede previous).definitions = p.definition :: previous.definitions := by
  simp [supersede, definitions, history]

/-- The newest definition that was seen. -/
def newest? (seen : Span → Bool) (p : Property) : Option PropertyDef :=
  p.definitions.find? fun d => seen d.span

theorem newest?_eq_find? (seen : Span → Bool) (p : Property) :
    p.newest? seen = (p.history.find? fun q => seen q.span).map (·.definition) := by
  rw [newest?, definitions, List.find?_map]
  rfl

theorem newest?_supersede {seen : Span → Bool} {p : Property}
    (h : seen p.definition.span = false) (previous : Property) :
    (p.supersede previous).newest? seen = previous.newest? seen := by
  simp [newest?, h]

theorem newest?_of_seen {seen : Span → Bool} {p : Property}
    (h : seen p.definition.span = true) : p.newest? seen = some p.definition :=
  List.find?_cons_of_pos h

theorem mem_definitions_of_newest? {seen : Span → Bool} {p : Property} {d : PropertyDef}
    (h : p.newest? seen = some d) : d ∈ p.definitions :=
  List.mem_of_find?_eq_some h

end Property

namespace Node

/-- The properties of a node stand under their names, and so do all they replaced. -/
structure Keyed (n : Node) : Prop where
  nodup : n.properties.keys.Nodup
  named : ∀ e ∈ n.properties.entries, ∀ d ∈ e.2.definitions, d.name.value = e.1
  buried : ∀ s ∈ n.deletedProperties, ∀ d ∈ s.target.definitions, d.name.value = s.target.name

/-- Everything told about a node was seen. -/
structure Seen (seen : Span → Bool) (n : Node) : Prop where
  labels : ∀ label ∈ n.labels, seen label.span = true
  definitions : ∀ ref ∈ n.definitions, seen ref.span = true
  deletedNodes : ∀ s ∈ n.deletedNodes, seen s.deletedBy.span = true
  properties : ∀ e ∈ n.properties.entries, seen e.2.definition.span = true
  deletedProperties : ∀ s ∈ n.deletedProperties, seen s.deletedBy.span = true

/-- The properties of a node that no seen statement deleted. -/
def undeleted (seen : Span → Bool) (n : Node) : List Property :=
  n.properties.values ++
    (n.deletedProperties.filter fun s => !seen s.deletedBy.span).map (·.target)

/-- The definitions that were in force when everything seen had been said. -/
def remembered (seen : Span → Bool) (n : Node) : List PropertyDef :=
  (n.undeleted seen).filterMap (·.newest? seen)

/-- What was added to a node since is unseen. -/
structure Grown (seen : Span → Bool) (past n : Node) : Prop where
  labels : ∃ later, n.labels = past.labels ++ later ∧ ∀ label ∈ later, seen label.span = false
  definitions : ∃ later, n.definitions = past.definitions ++ later ∧
    ∀ ref ∈ later, seen ref.span = false
  deletedNodes : ∃ later, n.deletedNodes = past.deletedNodes ++ later ∧
    ∀ s ∈ later, seen s.deletedBy.span = false
  deleted : past.deleted = true → n.deleted = true
  remembered : (n.remembered seen).Perm (past.remembered seen)

variable {m n past : Node} {seen : Span → Bool} {mark : Span → Prop}

theorem keyed_blank (name : UnitName) (parent : Option NodeId) : (blank name parent).Keyed :=
  ⟨List.nodup_nil, by simp [blank, Table.empty], by simp [blank]⟩

theorem seen_blank (name : UnitName) (parent : Option NodeId) : (blank name parent).Seen seen :=
  ⟨by simp [blank], by simp [blank], by simp [blank], by simp [blank, Table.empty], by simp [blank]⟩

/-- The property that a definition puts in force. -/
def renewed (m : Node) (definition : PropertyDef) : Property :=
  match m.property? definition.name.value with
  | some previous => (Property.fresh definition).supersede previous
  | none => .fresh definition

theorem properties_define (m : Node) (definition : PropertyDef) :
    (m.define definition).properties =
      m.properties.insert definition.name.value (m.renewed definition) := rfl

theorem definition_renewed (m : Node) (definition : PropertyDef) :
    (m.renewed definition).definition = definition := by
  unfold renewed
  split <;> rfl

theorem mem_values_define {definition : PropertyDef} {p : Property}
    (h : p ∈ (m.define definition).properties.values) :
    p = m.renewed definition ∨ p ∈ m.properties.values := by
  rw [properties_define] at h
  obtain ⟨e, he, rfl⟩ := List.mem_map.mp h
  rcases Table.mem_entries_insert he with rfl | he
  · exact .inl rfl
  · exact .inr (List.mem_map_of_mem he)

theorem mem_definitions_renewed {definition d : PropertyDef}
    (h : d ∈ (m.renewed definition).definitions) :
    d = definition ∨
      ∃ previous, m.property? definition.name.value = some previous ∧ d ∈ previous.definitions := by
  unfold renewed at h
  split at h
  · rename_i previous hprevious
    rw [Property.definitions_supersede] at h
    exact (List.mem_cons.mp h).imp_right fun h => ⟨previous, hprevious, h⟩
  · exact .inl (List.mem_singleton.mp h)

theorem Keyed.edited (h : m.Keyed) (he : m.PropertiesEdited mark n) : n.Keyed := by
  cases he with
  | same hp hd => exact ⟨hp ▸ h.nodup, hp ▸ h.named, hd ▸ h.buried⟩
  | define definition _ hp hd =>
      rw [properties_define] at hp
      refine ⟨hp ▸ Table.nodup_keys_insert h.nodup _ _, ?_, hd ▸ h.buried⟩
      intro e he d hmem
      rw [hp] at he
      rcases Table.mem_entries_insert he with rfl | he
      · rcases mem_definitions_renewed hmem with rfl | ⟨old, hold, hmem⟩
        · rfl
        · exact h.named _ (Table.mem_of_get? hold) d hmem
      · exact h.named e he d hmem
  | undefine p name deletedBy _ hold hp hd =>
      refine ⟨?_, ?_, ?_⟩
      · rw [hp]
        exact h.nodup.sublist (List.filter_sublist.map _)
      · intro e he
        rw [hp] at he
        exact h.named e (List.mem_of_mem_filter he)
      · intro s hs
        rw [hd] at hs
        rcases List.mem_append.mp hs with hs | hs
        · exact h.buried s hs
        · rw [List.mem_singleton.mp hs]
          have hnamed := h.named _ (Table.mem_of_get? hold)
          intro d hmem
          rw [hnamed d hmem, Property.name, hnamed _ p.definition_mem_definitions]

theorem Seen.edited (h : m.Seen seen) (he : m.Edited (seen · = true) n) : n.Seen seen := by
  have more {α : Type} {old new later : List α} {span : α → Span}
      (hold : ∀ a ∈ old, seen (span a) = true) (hnew : new = old ++ later)
      (hlater : ∀ a ∈ later, seen (span a) = true) : ∀ a ∈ new, seen (span a) = true := by
    intro a ha
    rw [hnew] at ha
    exact (List.mem_append.mp ha).elim (hold a) (hlater a)
  obtain ⟨⟨_, hl, hls⟩, ⟨_, hd, hds⟩, ⟨_, ht, hts⟩, -, hp⟩ := he
  refine ⟨more h.labels hl hls, more h.definitions hd hds, more h.deletedNodes ht hts, ?_, ?_⟩
  · cases hp with
    | same hp _ => exact hp ▸ h.properties
    | define definition hmark hp _ =>
        intro e he
        rw [hp, properties_define] at he
        rcases Table.mem_entries_insert he with rfl | he
        · rwa [definition_renewed]
        · exact h.properties e he
    | undefine p name deletedBy _ _ hp _ =>
        intro e he
        rw [hp] at he
        exact h.properties e (List.mem_of_mem_filter he)
  · cases hp with
    | same _ hd => exact hd ▸ h.deletedProperties
    | define _ _ _ hd => exact hd ▸ h.deletedProperties
    | undefine p name deletedBy hmark _ _ hd =>
        exact more h.deletedProperties hd fun s hs => List.mem_singleton.mp hs ▸ hmark

/-- A definition that was not seen leaves what is remembered as it was, and so does a delete
that was not seen, though the deleted property is then remembered in another place. -/
theorem remembered_edited (h : m.Keyed) (he : m.PropertiesEdited (seen · = false) n) :
    (n.remembered seen).Perm (m.remembered seen) := by
  cases he with
  | same hp hd =>
      rw [remembered, remembered, undeleted, undeleted, hp, hd]
  | define definition hmark hp hd =>
      apply List.Perm.of_eq
      rw [properties_define] at hp
      rw [remembered, remembered, undeleted, undeleted, hd, hp, List.filterMap_append,
        List.filterMap_append]
      congr 1
      cases hold : m.property? definition.name.value with
      | some old =>
          obtain ⟨front, back, hsplit, -, -, hinsert⟩ := Table.exists_split_of_get? h.nodup hold
          have hnewest : ((Property.fresh definition).supersede old).newest? seen =
              old.newest? seen := Property.newest?_supersede hmark old
          simp [Table.values, hsplit, hinsert, renewed, hold, hnewest, List.filterMap_cons]
      | none =>
          have hinsert := (Table.insertEntry_of_lookup?_none hold).2
          simp [Table.values, Table.insert, hinsert, renewed, hold, Property.newest?, hmark]
  | undefine p name deletedBy hmark hold hp hd =>
      -- The property moves from those in force to those deleted by what was not seen.
      apply List.Perm.filterMap
      obtain ⟨front, back, hsplit, hfront, hback, -⟩ := Table.exists_split_of_get? h.nodup hold
      rw [undeleted, undeleted, hp, hd, Table.values, Table.values,
        Table.erase_of_split hsplit hfront hback, hsplit]
      simp only [List.filter_append, List.map_append, List.map_cons, List.append_assoc,
        List.filter_cons, hmark, Bool.not_false, if_true, List.filter_nil, List.map_nil]
      apply List.Perm.append_left
      rw [← List.append_assoc]
      exact List.perm_append_comm

theorem remembered_of_seen (h : n.Seen seen) :
    n.remembered seen = n.properties.values.map (·.definition) := by
  have hnone : n.deletedProperties.filter (fun s => !seen s.deletedBy.span) = [] := by
    apply List.filter_eq_nil_iff.mpr
    intro s hs
    simp [h.deletedProperties s hs]
  rw [remembered, undeleted, hnone, List.map_nil, List.append_nil, ← List.filterMap_eq_map]
  apply List.filterMap_congr
  intro p hp
  obtain ⟨e, he, rfl⟩ := List.mem_map.mp hp
  exact Property.newest?_of_seen (h.properties e he)

namespace Grown

theorem refl (n : Node) : n.Grown seen n :=
  ⟨⟨[], by simp, by simp⟩, ⟨[], by simp, by simp⟩, ⟨[], by simp, by simp⟩, id, .refl _⟩

theorem edited (h : past.Grown seen m) (hk : m.Keyed) (he : m.Edited (seen · = false) n) :
    past.Grown seen n := by
  have more {α : Type} {old mid new : List α} {span : α → Span}
      (hmid : ∃ later, mid = old ++ later ∧ ∀ a ∈ later, seen (span a) = false)
      (hnew : ∃ later, new = mid ++ later ∧ ∀ a ∈ later, seen (span a) = false) :
      ∃ later, new = old ++ later ∧ ∀ a ∈ later, seen (span a) = false := by
    obtain ⟨first, rfl, hfirst⟩ := hmid
    obtain ⟨second, rfl, hsecond⟩ := hnew
    exact ⟨first ++ second, List.append_assoc _ _ _,
      fun a ha => (List.mem_append.mp ha).elim (hfirst a) (hsecond a)⟩
  exact ⟨more h.labels he.labels, more h.definitions he.definitions,
    more h.deletedNodes he.deletedNodes, fun hd => he.deleted (h.deleted hd),
    (remembered_edited hk he.properties).trans h.remembered⟩

end Grown

end Node

namespace Tree

/-- A tree that tells only of what was seen. -/
structure Told (seen : Span → Bool) (t : Tree) : Prop where
  keyed : ∀ id, (t.node id).Keyed
  seen : ∀ id, (t.node id).Seen seen
  defined : ∀ id, (t.node id).parent.isSome → (t.node id).definitions ≠ []

/-- A tree that grew out of another by what was not seen. -/
structure Grown (seen : Span → Bool) (past t : Tree) : Prop where
  size_le : past.size ≤ t.size
  keyed : ∀ id, (t.node id).Keyed
  node : ∀ id, (past.node id).Grown seen (t.node id)
  name : ∀ id, id.index < past.size → (t.node id).name = (past.node id).name
  parent : ∀ id, id.index < past.size → (t.node id).parent = (past.node id).parent

variable {seen : Span → Bool} {past t u : Tree}

theorem told_start : start.Told seen := by
  have hblank : ∀ id, ∃ name, start.node id = .blank name none := by
    intro id
    rw [node_start]
    split
    · exact ⟨_, rfl⟩
    · exact ⟨_, rfl⟩
  refine ⟨fun id => ?_, fun id => ?_, fun id => ?_⟩ <;> obtain ⟨name, hname⟩ := hblank id <;>
    rw [hname]
  · exact Node.keyed_blank _ _
  · exact Node.seen_blank _ _
  · exact fun h => by cases h

theorem Told.edited (h : t.Told seen) (he : t.Edited (seen · = true) u) : u.Told seen where
  keyed := fun id => (h.keyed id).edited (he.node id).properties
  seen := fun id => (h.seen id).edited (he.node id)
  defined := fun id hp => by
    rcases he.defined id hp with hold | hnew
    · obtain ⟨more, hmore, -⟩ := (he.node id).definitions
      rw [hmore]
      exact List.append_ne_nil_of_left_ne_nil (h.defined id hold) _
    · exact hnew

theorem Told.grown (h : t.Told seen) : t.Grown seen t :=
  ⟨Nat.le_refl _, h.keyed, fun _ => .refl _, fun _ _ => rfl, fun _ _ => rfl⟩

theorem Grown.edited (h : past.Grown seen t) (he : t.Edited (seen · = false) u) :
    past.Grown seen u where
  size_le := Nat.le_trans h.size_le he.size_le
  keyed := fun id => (h.keyed id).edited (he.node id).properties
  node := fun id => (h.node id).edited (h.keyed id) (he.node id)
  name := fun id hid =>
    (he.name id (Nat.lt_of_lt_of_le hid h.size_le)).trans (h.name id hid)
  parent := fun id hid =>
    (he.parent id (Nat.lt_of_lt_of_le hid h.size_le)).trans (h.parent id hid)

/-- The notes that a bare tree lacks do not matter. -/
theorem Told.of_bare (h : t.bare.Told seen) : t.Told seen := by
  refine ⟨fun id => ?_, fun id => ?_, fun id hp => ?_⟩
  · have hk := node_bare t id ▸ h.keyed id
    exact ⟨hk.nodup, hk.named, hk.buried⟩
  · have hs := node_bare t id ▸ h.seen id
    exact ⟨hs.labels, hs.definitions, hs.deletedNodes, hs.properties, hs.deletedProperties⟩
  · have hd := h.defined id
    rw [node_bare] at hd
    exact hd hp

theorem Grown.of_bare (h : past.bare.Grown seen t.bare) : past.Grown seen t := by
  refine ⟨by simpa using h.size_le, fun id => ?_, fun id => ?_, fun id hid => ?_, fun id hid => ?_⟩
  · have hk := node_bare t id ▸ h.keyed id
    exact ⟨hk.nodup, hk.named, hk.buried⟩
  · have hn := h.node id
    rw [node_bare, node_bare] at hn
    exact ⟨hn.labels, hn.definitions, hn.deletedNodes, hn.deleted, hn.remembered⟩
  · have hn := h.name id (by simpa using hid)
    rwa [node_bare, node_bare] at hn
  · have hp := h.parent id (by simpa using hid)
    rwa [node_bare, node_bare] at hp

end Tree

namespace Outline

variable {o : Outline} {as : List Action}

/-- What every edit of a well-formed tree keeps, a run keeps. -/
theorem edited_run {mark : Span → Prop} {P : Tree → Prop}
    (hedit : ∀ {t u : Tree}, t.WellFormed → P t → t.Edited mark u → P u) (hs : o.Sound)
    (h : ∀ a ∈ as, ∀ s ∈ a.spans, mark s) (hp : P o.tree) : P (o.run as).tree := by
  induction as generalizing o with
  | nil => exact hp
  | cons a as ih =>
      have hstep := edited_step hs a (h a List.mem_cons_self)
      exact ih (hs.step a) (fun b hb => h b (List.mem_cons_of_mem _ hb)) (hedit hs.tree hp hstep)

theorem told_run {seen : Span → Bool} (h : ∀ a ∈ as, ∀ s ∈ a.spans, seen s = true) :
    (start.run as).tree.Told seen :=
  edited_run (fun _ => Tree.Told.edited) .start h Tree.told_start

theorem grown_run {seen : Span → Bool} (hs : o.Sound) (ht : o.tree.Told seen)
    (h : ∀ a ∈ as, ∀ s ∈ a.spans, seen s = false) : o.tree.Grown seen (o.run as).tree :=
  edited_run (fun _ => Tree.Grown.edited) hs h ht.grown

end Outline

end Devicetree
