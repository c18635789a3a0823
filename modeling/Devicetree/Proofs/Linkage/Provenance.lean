import Devicetree.Proofs.Linkage.Dangling
import Devicetree.Proofs.Linkage.Ownership

/-!
# Where properties come from

A node keeps every definition of a property that was made in its bodies: in the history of a
property in force, or in that of a deleted one. What a node tells is what the actions about it
say one after the other, so it is enough to follow these on a single node. Each adds its
definition at the end of one history, and a delete closes a history for good: what is defined
under the same name afterwards begins a new one.
-/

namespace Devicetree

namespace Property

/-- The definitions of a property and of all it replaced, oldest first. -/
def chronicle (p : Property) : List PropertyDef :=
  p.replaced.map (·.definition) ++ [p.definition]

theorem mem_chronicle {p : Property} {d : PropertyDef} :
    d ∈ p.chronicle ↔ d ∈ p.definitions := by
  simp [chronicle, definitions, history, or_comm]

/-- Nothing that a property replaced keeps a history of its own. -/
def Flat (p : Property) : Prop :=
  ∀ q ∈ p.replaced, q.replaced = []

theorem flat_fresh (d : PropertyDef) : (fresh d).Flat :=
  nofun

/-- What is superseded hands its history on and keeps none. -/
theorem Flat.supersede {previous : Property} (h : previous.Flat) (p : Property) :
    (p.supersede previous).Flat := by
  intro q hq
  rcases List.mem_append.mp hq with hq | hq
  · exact h q hq
  · rw [List.mem_singleton.mp hq]

end Property

/-- A deleted property was defined before the statement that deleted it, and some other
definitions were made after. -/
def Tombstone.Precedes (as : List Action) (s : Tombstone Property) (later : List PropertyDef) :
    Prop :=
  ∃ x : DeleteProperty, x.ref = s.deletedBy ∧
    (s.target.chronicle.map Action.property ++ .deleteProperty x ::
      later.map Action.property).Sublist as

namespace Tombstone.Precedes

variable {as bs : List Action} {s : Tombstone Property} {later : List PropertyDef}

theorem mono (h : s.Precedes as later) (hsub : as.Sublist bs) : s.Precedes bs later := by
  obtain ⟨x, hx, has⟩ := h
  exact ⟨x, hx, has.trans hsub⟩

theorem append (h : s.Precedes as later) (d : PropertyDef) :
    s.Precedes (as ++ [.property d]) (later ++ [d]) := by
  obtain ⟨x, hx, has⟩ := h
  refine ⟨x, hx, ?_⟩
  rw [List.map_append, ← List.cons_append, ← List.append_assoc]
  exact has.append (List.Sublist.refl _)

end Tombstone.Precedes

theorem Action.cargo_definitions : Action.Cargo Action.definitions :=
  ⟨fun _ _ => rfl, rfl⟩

theorem Action.cargo_labels : Action.Cargo Action.labels :=
  ⟨fun _ _ => rfl, rfl⟩

theorem Action.id?_of_mem_definitions {a : Action} {d : PropertyDef} (h : d ∈ a.definitions) :
    a.id? = some d.id := by
  cases a with
  | property p => rw [List.mem_singleton.mp h]; rfl
  | _ => cases h

namespace Node

/-- The properties of a node, those deleted and those in force. -/
def histories (n : Node) : List Property :=
  n.deletedProperties.map (·.target) ++ n.properties.values

/-- A node keeps the definitions of some actions: each in one history, in order and side by side,
and apart from those of the same name that a delete came between. -/
structure Keeps (n : Node) (as : List Action) : Prop where
  keyed : n.Keyed
  complete : (n.histories.flatMap Property.chronicle).Perm (as.flatMap Action.definitions)
  flat : ∀ p ∈ n.histories, p.Flat
  ordered : ∀ p ∈ n.properties.values, (p.chronicle.map Action.property).Sublist as
  closed : ∀ s ∈ n.deletedProperties, s.Precedes as []
  buried : n.deletedProperties.Pairwise fun s s' =>
    s.target.name = s'.target.name → s.Precedes as s'.target.chronicle
  apart : ∀ s ∈ n.deletedProperties, ∀ p ∈ n.properties.values,
    s.target.name = p.name → s.Precedes as p.chronicle

namespace Keeps

variable {n : Node} {as : List Action}

theorem blank (name : UnitName) (parent : Option NodeId) : (Node.blank name parent).Keeps [] where
  keyed := keyed_blank name parent
  complete := .refl _
  flat := nofun
  ordered := nofun
  closed := nofun
  buried := .nil
  apart := nofun

/-- Whatever spans an edit bears, properties stay under their names. -/
theorem keyed_edited (h : n.Keeps as) {m : Node} (he : n.PropertiesEdited (fun _ => True) m) :
    m.Keyed :=
  h.keyed.edited he

/-- An action that says nothing about properties. -/
theorem quiet (h : n.Keeps as) {m : Node} (hp : m.properties = n.properties)
    (hd : m.deletedProperties = n.deletedProperties) (a : Action) (ha : a.definitions = []) :
    m.Keeps (as ++ [a]) := by
  have hsub : as.Sublist (as ++ [a]) := List.sublist_append_left _ _
  constructor
  · exact h.keyed_edited (.same hp hd)
  · have hall : (as ++ [a]).flatMap Action.definitions = as.flatMap Action.definitions := by
      simp [ha]
    rw [histories, hp, hd, hall]
    exact h.complete
  · rw [histories, hp, hd]
    exact h.flat
  · rw [hp]
    exact fun p hmem => (h.ordered p hmem).trans hsub
  · rw [hd]
    exact fun s hs => (h.closed s hs).mono hsub
  · rw [hd]
    exact h.buried.imp fun hs hname => (hs hname).mono hsub
  · rw [hp, hd]
    exact fun s hs p hmem hname => (h.apart s hs p hmem hname).mono hsub

/-! ### A definition -/

theorem flat_renewed (h : n.Keeps as) (d : PropertyDef) : (n.renewed d).Flat := by
  rw [renewed]
  split
  · rename_i previous hprevious
    have hmem : previous ∈ n.properties.values := List.mem_map_of_mem (Table.mem_of_get? hprevious)
    exact (h.flat previous (List.mem_append_right _ hmem)).supersede _
  · exact Property.flat_fresh d

theorem chronicle_renewed (n : Node) (d : PropertyDef) :
    (n.renewed d).chronicle = (n.property? d.name.value).elim [] Property.chronicle ++ [d] := by
  rw [renewed]
  cases n.property? d.name.value with
  | none => rfl
  | some previous =>
      simp only [Property.chronicle, Property.supersede, Property.fresh, List.map_append,
        List.map_cons, List.map_nil, Option.elim_some]

theorem perm_define (hn : n.properties.keys.Nodup) (d : PropertyDef) :
    ((n.define d).properties.values.flatMap Property.chronicle).Perm
      (n.properties.values.flatMap Property.chronicle ++ [d]) := by
  rw [properties_define]
  cases hold : n.property? d.name.value with
  | some old =>
      obtain ⟨front, back, hsplit, -, -, hinsert⟩ := Table.exists_split_of_get? hn hold
      have hrenewed : (n.renewed d).chronicle = old.chronicle ++ [d] := by
        rw [chronicle_renewed, hold]
        rfl
      simp only [Table.values, hinsert, hsplit, List.map_append, List.map_cons,
        List.flatMap_append, List.flatMap_cons, hrenewed, List.append_assoc]
      exact (List.perm_append_comm.append_left _).append_left _
  | none =>
      have hinsert := (Table.insertEntry_of_lookup?_none hold).2
      have hrenewed : (n.renewed d).chronicle = [d] := by
        rw [chronicle_renewed, hold]
        rfl
      simp only [Table.values, Table.insert, hinsert, List.map_append, List.flatMap_append,
        List.map_singleton, List.flatMap_singleton, hrenewed]
      exact .refl _

/-- A definition is added to the history in force under its name, which is new if there is
none. -/
theorem define (h : n.Keeps as) (d : PropertyDef) : (n.define d).Keeps (as ++ [.property d]) := by
  have hsub : as.Sublist (as ++ [.property d]) := List.sublist_append_left _ _
  have hadd : ∀ {ds : List PropertyDef}, (ds.map Action.property).Sublist as →
      ((ds ++ [d]).map Action.property).Sublist (as ++ [.property d]) := by
    intro ds hds
    rw [List.map_append]
    exact hds.append (List.Sublist.refl _)
  constructor
  · exact h.keyed_edited (.define d trivial rfl rfl)
  · rw [histories, List.flatMap_append, List.flatMap_append]
    calc (((n.define d).deletedProperties.map (·.target)).flatMap Property.chronicle ++
            (n.define d).properties.values.flatMap Property.chronicle).Perm
          ((n.deletedProperties.map (·.target)).flatMap Property.chronicle ++
            (n.properties.values.flatMap Property.chronicle ++ [d])) :=
          (perm_define h.keyed.nodup d).append_left _
      _ = n.histories.flatMap Property.chronicle ++ [d] := by
          rw [histories, List.flatMap_append, List.append_assoc]
      List.Perm _ (as.flatMap Action.definitions ++ [d]) := h.complete.append_right _
  · intro p hp
    rcases List.mem_append.mp hp with hp | hp
    · exact h.flat p (List.mem_append_left _ hp)
    · rcases mem_values_define hp with rfl | hp
      · exact h.flat_renewed d
      · exact h.flat p (List.mem_append_right _ hp)
  · intro p hp
    rcases mem_values_define hp with rfl | hp
    · rw [chronicle_renewed]
      cases hold : n.property? d.name.value with
      | none => exact hadd (List.nil_sublist as)
      | some old => exact hadd (h.ordered old (List.mem_map_of_mem (Table.mem_of_get? hold)))
    · exact (h.ordered p hp).trans hsub
  · exact fun s hs => (h.closed s hs).mono hsub
  · exact h.buried.imp fun hs hname => (hs hname).mono hsub
  · intro s hs p hp hname
    rcases mem_values_define hp with rfl | hp
    · have hrenewed : (n.renewed d).name = d.name.value := by
        rw [Property.name, definition_renewed]
      rw [chronicle_renewed]
      cases hold : n.property? d.name.value with
      | none => exact (h.closed s hs).append d
      | some old =>
          have hmem := Table.mem_of_get? hold
          have hkey : old.name = d.name.value :=
            h.keyed.named _ hmem _ old.definition_mem_definitions
          exact (h.apart s hs old (List.mem_map_of_mem hmem)
            (hname.trans (hrenewed.trans hkey.symm))).append d
    · exact (h.apart s hs p hp hname).mono hsub

/-! ### A delete -/

/-- A delete moves a history from those in force to those closed. -/
theorem perm_undefine (hn : n.properties.keys.Nodup) {name : String} {p : Property}
    (hold : n.property? name = some p) (deletedBy : AstRef) :
    ((n.deletedProperties ++ [Tombstone.mk p deletedBy]).map (·.target) ++
      (n.properties.erase name).values).Perm n.histories := by
  obtain ⟨front, back, hsplit, hfront, hback, -⟩ := Table.exists_split_of_get? hn hold
  rw [histories, Table.values, Table.values, Table.erase_of_split hsplit hfront hback, hsplit]
  simp only [List.map_append, List.map_cons, List.map_nil, List.append_assoc,
    List.singleton_append]
  exact List.perm_middle.symm.append_left _

/-- A delete closes the history in force under its name, if there is one. -/
theorem undefine (h : n.Keeps as) (x : DeleteProperty) :
    ((n.undefine? x.name.value x.ref).getD n).Keeps (as ++ [.deleteProperty x]) := by
  have hsub : as.Sublist (as ++ [.deleteProperty x]) := List.sublist_append_left _ _
  rw [undefine?]
  cases hold : n.property? x.name.value with
  | none => exact h.quiet rfl rfl (.deleteProperty x) rfl
  | some p =>
      rw [Option.map_some, Option.getD_some]
      have hmoved := perm_undefine h.keyed.nodup hold x.ref
      have hp : p ∈ n.properties.values := List.mem_map_of_mem (Table.mem_of_get? hold)
      have hkept : ∀ q ∈ (n.properties.erase x.name.value).values, q ∈ n.properties.values := by
        intro q hq
        obtain ⟨e, he, rfl⟩ := List.mem_map.mp hq
        exact List.mem_map_of_mem (List.mem_of_mem_filter he)
      constructor
      · exact h.keyed_edited (.undefine p _ x.ref trivial hold rfl rfl)
      · rw [List.flatMap_append]
        refine List.Perm.trans ?_ (h.complete.trans (.of_eq (List.append_nil _).symm))
        exact hmoved.flatMap_right _
      · exact fun q hq => h.flat q (hmoved.mem_iff.mp hq)
      · exact fun q hq => (h.ordered q (hkept q hq)).trans hsub
      · intro s hs
        rcases List.mem_append.mp hs with hs | hs
        · exact (h.closed s hs).mono hsub
        · rw [List.mem_singleton.mp hs]
          exact ⟨x, rfl, (h.ordered p hp).append (List.Sublist.refl _)⟩
      · refine List.pairwise_append.mpr
          ⟨h.buried.imp fun hs hname => (hs hname).mono hsub, List.pairwise_singleton _ _, ?_⟩
        intro s hs s' hs' hname
        rw [List.mem_singleton.mp hs'] at hname ⊢
        exact (h.apart s hs p hp hname).mono hsub
      · intro s hs q hq hname
        rcases List.mem_append.mp hs with hs | hs
        · exact (h.apart s hs q (hkept q hq) hname).mono hsub
        · -- What stays in force has another name than what is deleted.
          rw [List.mem_singleton.mp hs] at hname
          obtain ⟨e, he, rfl⟩ := List.mem_map.mp hq
          obtain ⟨he, hne⟩ := List.mem_filter.mp he
          have hkey : e.2.name = e.1 := h.keyed.named e he _ e.2.definition_mem_definitions
          have hdeleted : p.name = x.name.value :=
            h.keyed.named _ (Table.mem_of_get? hold) _ p.definition_mem_definitions
          exact absurd (hkey.symm.trans (hname.symm.trans hdeleted)) (of_decide_eq_true hne)

theorem perform (h : n.Keeps as) (a : Action) : (n.perform a).Keeps (as ++ [a]) := by
  cases a with
  | property d => exact h.define d
  | deleteProperty x => exact h.undefine x
  | clash name first => exact h.quiet rfl rfl (.clash name first) rfl
  | enter head => exact h.quiet (m := n.opened head) rfl rfl (.enter head) rfl
  | leave => exact h.quiet rfl rfl .leave rfl
  | deleteNode delete => exact h.quiet rfl rfl (.deleteNode delete) rfl

theorem foldl (h : n.Keeps as) (bs : List Action) :
    (bs.foldl Node.perform n).Keeps (as ++ bs) := by
  induction bs generalizing n as with
  | nil => rwa [List.append_nil]
  | cons a bs ih =>
      rw [← List.singleton_append, ← List.append_assoc]
      exact ih (h.perform a)

end Keeps

end Node

namespace Linkage

/-- The property statements of some files, at every depth. -/
def propertiesOf (files : List SourceFile) : List PropertyDef :=
  (statementsOf files).flatMap fun s => s.opening.definitions

variable {files : List SourceFile}

/-- What the actions about a node bring along, some statement holds. -/
theorem exists_statement {β : Type} {g : Action → List β} (hg : Action.Cargo g) {id : NodeId}
    {b : β} (hb : b ∈ ((journalOf files).about id).flatMap g) :
    ∃ s ∈ statementsOf files, b ∈ g s.opening := by
  obtain ⟨a, ha, hb⟩ := List.mem_flatMap.mp hb
  have hmem := List.mem_flatMap.mpr ⟨a, (about_sublist files id).subset ha, hb⟩
  exact List.mem_flatMap.mp ((actionsOf_perm hg files).mem_iff.mp hmem)

theorem keeps_link (files : List SourceFile) (reportUnresolved : Bool) (generation : Nat)
    (id : NodeId) :
    ((link files reportUnresolved generation).node id).tale.Keeps ((journalOf files).about id) := by
  have htale : ((link files reportUnresolved generation).node id).tale = _ :=
    tale_link files reportUnresolved generation id
  rw [htale]
  exact (Node.Keeps.blank _ _).foldl ((journalOf files).about id)

section Parsed

variable (hparsed : ∀ f ∈ files, f.Parsed) (hnodup : (files.map (·.file)).Nodup)
include hparsed hnodup

/-- The definitions about a node are the property statements that it owns. -/
theorem definitions_about (reportUnresolved : Bool) (generation : Nat) (id : NodeId) :
    (((journalOf files).about id).flatMap Action.definitions).Perm
      ((propertiesOf files).filter fun d =>
        (link files reportUnresolved generation).owner? d.id = some id) := by
  have howner : ∀ entry ∈ journalOf files, ∀ d ∈ entry.1.definitions,
      decide ((link files reportUnresolved generation).owner? d.id = some id) =
        decide (entry.2 = id) := by
    rintro ⟨a, node⟩ hmem d hd
    have hnode : (link files reportUnresolved generation).owner? d.id = some node :=
      (owner?_eq_some hparsed hnodup).mpr ⟨a, Action.id?_of_mem_definitions hd, hmem⟩
    simp [hnode]
  rw [Journal.flatMap_about howner, journalOf, Outline.map_fst_journal]
  exact (actionsOf_perm Action.cargo_definitions files).filter _

theorem nodup_propertiesOf : (propertiesOf files).Nodup := by
  have hids := List.pairwise_map.mp (nodup_statement_ids hparsed hnodup)
  refine List.nodup_flatMap.mpr ⟨fun s _ => ?_, hids.imp fun {s s'} hne d hd hd' => ?_⟩
  · cases s with
    | property p => exact List.nodup_singleton p
    | _ => exact List.nodup_nil
  · have hid : ∀ {t : Statement}, d ∈ t.opening.definitions → t.id = d.id := by
      intro t ht
      cases t with
      | property p => rw [List.mem_singleton.mp ht]; rfl
      | _ => cases ht
    exact hne ((hid hd).trans (hid hd').symm)

end Parsed

/-- In files as read, the definitions that a node keeps of its properties, deleted or in force, are
the property statements that it owns, each once. Those kept together have one name, and they were
made in the order in which they are kept; what was replaced has no history of its own. Of two
histories of one name, the definitions of the one were made before the statement that deleted it,
and those of the other after. -/
theorem property_histories_complete (files : List SourceFile) (reportUnresolved : Bool)
    (generation : Nat) (hparsed : ∀ f ∈ files, f.Parsed)
    (hnodup : (files.map (·.file)).Nodup) :
    let l := link files reportUnresolved generation
    ∀ id,
      ((l.node id).histories.flatMap Property.chronicle).Perm
        ((propertiesOf files).filter fun d => l.owner? d.id = some id) ∧
      ((l.node id).histories.flatMap Property.chronicle).Nodup ∧
      (∀ p ∈ (l.node id).histories, (∀ d ∈ p.chronicle, d.name.value = p.name) ∧
        (∀ q ∈ p.replaced, q.replaced = []) ∧
        (p.chronicle.map Action.property).Sublist (actionsOf files)) ∧
      ((l.node id).properties.values.map Property.name).Nodup ∧
      ((l.node id).deletedProperties.Pairwise fun s s' =>
        s.target.name = s'.target.name →
          s.Precedes (actionsOf files) s'.target.chronicle) ∧
      ∀ s ∈ (l.node id).deletedProperties, ∀ p ∈ (l.node id).properties.values,
        s.target.name = p.name → s.Precedes (actionsOf files) p.chronicle := by
  intro l id
  have hkeeps : (l.node id).tale.Keeps ((journalOf files).about id) :=
    keeps_link files reportUnresolved generation id
  have habout : ((journalOf files).about id).Sublist (actionsOf files) := about_sublist files id
  have hperm := hkeeps.complete.trans
    (definitions_about hparsed hnodup reportUnresolved generation id)
  refine ⟨hperm, ?_, ?_, ?_, ?_, ?_⟩
  · exact hperm.nodup_iff.mpr ((nodup_propertiesOf hparsed hnodup).filter _)
  · intro p hp
    have hflat : p.Flat := hkeeps.flat p hp
    rcases List.mem_append.mp hp with hp | hp
    · obtain ⟨s, hs, rfl⟩ := List.mem_map.mp hp
      obtain ⟨x, -, hsub⟩ := hkeeps.closed s hs
      exact ⟨fun d hd => hkeeps.keyed.buried s hs d (Property.mem_chronicle.mp hd), hflat,
        ((List.sublist_append_left _ _).trans hsub).trans habout⟩
    · refine ⟨fun d hd => ?_, hflat, (hkeeps.ordered p hp).trans habout⟩
      obtain ⟨e, he, rfl⟩ := List.mem_map.mp hp
      have hnamed := hkeeps.keyed.named e he
      exact (hnamed d (Property.mem_chronicle.mp hd)).trans
        (hnamed _ e.2.definition_mem_definitions).symm
  · have hkeys : (l.node id).properties.values.map Property.name =
        (l.node id).properties.keys := by
      rw [Table.values, List.map_map]
      exact List.map_congr_left fun e he => hkeeps.keyed.named e he _ e.2.definition_mem_definitions
    rw [hkeys]
    exact hkeeps.keyed.nodup
  · exact hkeeps.buried.imp fun h hname => (h hname).mono habout
  · exact fun s hs p hp hname => (hkeeps.apart s hs p hp hname).mono habout

/-- A property that is replaced, deleted, defined anew, deleted and defined once more, read from
`/{p=<1>;p=<2>;/delete-property/p;p;/delete-property/p;};/{p=<3>;p;};`. -/
def provenFile : SourceFile :=
  .read ⟨0⟩ ("/\x7bp=<1>;p=<2>;/delete-property/p;p;/delete-property/p;\x7d;" ++
    "/\x7bp=<3>;p;\x7d;").toList

theorem provenFile_histories :
    let n := (link [provenFile] true 0).node Tree.root
    n.histories.map (fun p => p.chronicle.map (·.id.index)) = [[1, 2], [4], [7, 8]] ∧
    (∀ p ∈ n.histories, ∀ q ∈ p.replaced, q.replaced = []) ∧
    (n.histories.flatMap Property.chronicle).Perm (propertiesOf [provenFile]) ∧
    ∀ s ∈ n.deletedProperties, ∀ p ∈ n.properties.values,
      s.target.name = p.name → s.Precedes (actionsOf [provenFile]) p.chronicle := by
  have hparsed : ∀ f ∈ [provenFile], f.Parsed := by
    simp only [List.forall_mem_cons]
    exact ⟨⟨_, rfl⟩, nofun⟩
  have h := property_histories_complete [provenFile] true 0 hparsed (by decide) Tree.root
  have howned : (propertiesOf [provenFile]).filter (fun d =>
      (link [provenFile] true 0).owner? d.id = some Tree.root) = propertiesOf [provenFile] := by
    decide +kernel
  exact ⟨by decide +kernel, fun p hp => (h.2.2.1 p hp).2.1, howned ▸ h.1, h.2.2.2.2.2⟩

end Linkage

end Devicetree
