import Devicetree.Proofs.Linkage.Bindings
import Devicetree.Proofs.Overlay.View
import Devicetree.Proofs.Source.Form
import Devicetree.Proofs.Source.Spelling

/-!
# Trees as statements

A tree without spans and numbers can be said in one block: its labels, its properties and then
its children as blocks. Such a block, applied to a node of which nothing is said yet, makes the
same tree of it, as long as no two children of a node and no two properties share a name.
-/

namespace Devicetree

/-- A tree without spans and numbers. -/
structure RoseForm where
  name : UnitName
  labels : List String
  properties : List PropertyForm
  children : List RoseForm
deriving Repr

namespace Rose

mutual

def form : Rose → RoseForm
  | ⟨name, labels, properties, children⟩ =>
    ⟨name, labels, properties.values.map PropertyDef.form, forms children⟩

def forms : List Rose → List RoseForm
  | [] => []
  | r :: rs => r.form :: forms rs

end

theorem forms_eq_map (rs : List Rose) : forms rs = rs.map form := by
  induction rs with
  | nil => rfl
  | cons r rs ih => rw [forms, ih, List.map_cons]

theorem form_eq (r : Rose) :
    r.form = ⟨r.name, r.labels, r.properties.values.map PropertyDef.form, r.children.map form⟩ := by
  obtain ⟨name, labels, properties, children⟩ := r
  rw [form, forms_eq_map]

end Rose

namespace RoseForm

mutual

/-- The block that says a tree about a target. -/
def source : RoseForm → TargetForm → StatementForm
  | ⟨_, labels, properties, children⟩, target =>
    .block labels target (properties.map (fun p => .leaf (.property p)) ++ sources children)

/-- The blocks that say trees about children of their names. -/
def sources : List RoseForm → List StatementForm
  | [] => []
  | f :: fs => f.source (.child f.name) :: sources fs

end

theorem source_eq (f : RoseForm) (target : TargetForm) :
    f.source target = .block f.labels target
      (f.properties.map (fun p => .leaf (.property p)) ++ sources f.children) := by
  obtain ⟨name, labels, properties, children⟩ := f
  rw [source]

theorem sources_eq_map (fs : List RoseForm) :
    sources fs = fs.map fun f => f.source (.child f.name) := by
  induction fs with
  | nil => rfl
  | cons f fs ih => rw [sources, ih, List.map_cons]

/-- No two children of a node share a name, and no two properties do. -/
inductive Distinct : RoseForm → Prop
  | node {name : UnitName} {labels : List String} {properties : List PropertyForm}
      {children : List RoseForm} (hproperties : (properties.map (·.name)).Nodup)
      (hchildren : (children.map (·.name)).Nodup) (h : ∀ f ∈ children, Distinct f) :
      Distinct ⟨name, labels, properties, children⟩

end RoseForm

/-! ### What blocks make of a node -/

namespace Rose

variable {f g : Rose → Rose}

theorem name_update (hf : ∀ r, (f r).name = r.name) (path : NodePath) (r : Rose) :
    (r.update f path).name = r.name := by
  cases path with
  | nil => exact hf r
  | cons name path => rfl

/-- Two changes at one path are one. -/
theorem update_update (hf : ∀ r, (f r).name = r.name) (path : NodePath) (r : Rose) :
    (r.update f path).update g path = r.update (fun r => g (f r)) path := by
  induction path generalizing r with
  | nil => rfl
  | cons name path ih =>
      simp only [update, List.map_map, mk.injEq, true_and]
      apply List.map_congr_left
      intro child _
      rw [Function.comp_apply]
      split
      · rename_i hname
        rw [if_pos ((name_update hf path child).trans hname), ih]
      · rfl

/-- A change further down is a change of the subtree. -/
theorem update_append (path more : NodePath) (r : Rose) :
    r.update f (path ++ more) = r.update (·.update f more) path := by
  induction path generalizing r with
  | nil => rfl
  | cons name path ih => simp only [List.cons_append, update, ih]

theorem update_id (path : NodePath) (r : Rose) : r.update id path = r := by
  induction path generalizing r with
  | nil => rfl
  | cons name path ih =>
      obtain ⟨own, labels, properties, children⟩ := r
      simp [update, ih]

end Rose

/-- What a property makes of the node it is about. -/
def Rose.define (r : Rose) : Statement → Rose
  | .property definition => r.setProperty definition
  | _ => r

theorem Rose.name_define (s : Statement) (r : Rose) : (r.define s).name = r.name := by
  cases s <;> rfl

theorem Rose.name_foldl_define (ss : List Statement) (r : Rose) :
    (ss.foldl define r).name = r.name := by
  induction ss generalizing r with
  | nil => rfl
  | cons s ss ih => rw [List.foldl_cons, ih, name_define]

theorem Rose.name_adopt (name : UnitName) (r : Rose) : (r.adopt name).name = r.name := by
  unfold adopt
  split <;> rfl

namespace Statement

mutual

/-- What a block of child blocks and properties makes of the node it is about. -/
def grow : Statement → Rose → Rose
  | .block head body, r => body.foldl Rose.define (growBlocks body (r.addLabels head.labels))
  | _, r => r

/-- What the child blocks of a body make of the node that the body is about. -/
def growBlocks : List Statement → Rose → Rose
  | [], r => r
  | s :: ss, r =>
    growBlocks ss (s.childName?.elim r fun name => (r.adopt name).update (grow s) [name])

end

theorem name_growBlocks (ss : List Statement) (r : Rose) : (growBlocks ss r).name = r.name := by
  induction ss generalizing r with
  | nil => rfl
  | cons s ss ih =>
      rw [growBlocks, ih]
      cases s.childName? with
      | none => rfl
      | some name => exact r.name_adopt name

theorem name_grow (s : Statement) (r : Rose) : (s.grow r).name = r.name := by
  cases s with
  | block head body => rw [grow, Rose.name_foldl_define, name_growBlocks, Rose.addLabels]
  | _ => rfl

mutual

/-- Whether a statement of a body is a child block or a property, and so is all below it. -/
def isAdditive : Statement → Bool
  | .block head body => head.target.childName?.isSome && areAdditive body
  | .property _ => true
  | _ => false

def areAdditive : List Statement → Bool
  | [] => true
  | s :: ss => s.isAdditive && areAdditive ss

end

/-- Whether all in the body of a block is additive. -/
def isExtension : Statement → Bool
  | .block _ body => areAdditive body
  | _ => true

theorem areAdditive_append (ss ss' : List Statement) :
    areAdditive (ss ++ ss') = (areAdditive ss && areAdditive ss') := by
  induction ss with
  | nil => rfl
  | cons s ss ih => rw [List.cons_append, areAdditive, areAdditive, ih, Bool.and_assoc]

theorem areAdditive_properties (ds : List PropertyDef) :
    areAdditive (ds.map .property) = true := by
  induction ds with
  | nil => rfl
  | cons d ds ih => exact ih

theorem isAdditive_of_childName {s : Statement} {name : UnitName} (hname : s.childName? = some name)
    (h : s.isExtension = true) : s.isAdditive = true := by
  cases s with
  | block head body =>
      rw [childName?] at hname
      rw [isAdditive, hname]
      exact h
  | _ => cases hname

theorem isExtension_of_isAdditive {s : Statement} (h : s.isAdditive = true) :
    s.isExtension = true := by
  cases s with
  | block head body =>
      rw [isAdditive, Bool.and_eq_true] at h
      exact h.2
  | _ => rfl

mutual

theorem isLocal_of_isAdditive : ∀ s : Statement, s.isAdditive = true → s.isLocal = true
  | .block ⟨id, labels, target, span⟩ body, h => by
      rw [isAdditive, Bool.and_eq_true] at h
      rw [isLocal, areLocal_of_areAdditive body h.2]
      cases target with
      | child name => rfl
      | root slash => cases h.1
      | reference ref => cases h.1
  | .property p, _ => rfl
  | .deleteNode d, h => nomatch h
  | .deleteProperty d, h => nomatch h

theorem areLocal_of_areAdditive :
    ∀ ss : List Statement, areAdditive ss = true → areLocal ss = true
  | [], _ => rfl
  | s :: ss, h => by
      rw [areAdditive, Bool.and_eq_true] at h
      rw [areLocal, isLocal_of_isAdditive s h.1, areLocal_of_areAdditive ss h.2]
      rfl

end

end Statement

namespace Overlay

theorem tree_leaves {ss : List Statement} (hss : Statement.areAdditive ss = true) (v : Overlay)
    (path : NodePath) :
    (ss.foldl (leaf · path) v).tree = v.tree.update (fun r => ss.foldl Rose.define r) path := by
  induction ss generalizing v with
  | nil => exact (v.tree.update_id path).symm
  | cons s ss ih =>
      rw [Statement.areAdditive, Bool.and_eq_true] at hss
      have hleaf : (v.leaf path s).tree = v.tree.update (·.define s) path := by
        cases s with
        | block head body => exact (v.tree.update_id path).symm
        | property definition => rfl
        | deleteNode delete => cases hss.1
        | deleteProperty delete => cases hss.1
      simp only [List.foldl_cons]
      rw [ih hss.2, hleaf, Rose.update_update (Rose.name_define s)]

theorem blocks_of_childName {s : Statement} {name : UnitName} (h : s.childName? = some name)
    (v : Overlay) (path : NodePath) (ss : List Statement) :
    v.blocks path (s :: ss) =
      ((v.update path (·.adopt name)).block (path ++ [name]) s).blocks path ss := by
  cases s with
  | block head body =>
      obtain ⟨id, labels, target, span⟩ := head
      cases target with
      | child other =>
          cases h
          rw [blocks]
      | _ => cases h
  | _ => cases h

theorem blocks_of_none {s : Statement} (h : s.childName? = none) (v : Overlay) (path : NodePath)
    (ss : List Statement) : v.blocks path (s :: ss) = v.blocks path ss := by
  cases s with
  | block head body =>
      obtain ⟨id, labels, target, span⟩ := head
      cases target with
      | child other => cases h
      | _ => simp only [blocks]
  | _ => simp only [blocks]

mutual

/-- Child blocks and properties change the node that they are about, and nothing beside it. -/
theorem tree_block : ∀ s : Statement, s.isExtension = true → ∀ (v : Overlay) (path : NodePath),
    (v.block path s).tree = v.tree.update s.grow path
  | .block head body, h, v, path => by
      have hblocks := tree_blocks body h (v.bind path head.labels) path
      have hlabels : ∀ r : Rose, (r.addLabels head.labels).name = r.name := fun _ => rfl
      have hchildren : ∀ r : Rose,
          (Statement.growBlocks body (r.addLabels head.labels)).name = r.name :=
        fun r => Statement.name_growBlocks body _
      rw [block, tree_leaves h, hblocks, bind, Rose.update_update hlabels,
        Rose.update_update hchildren]
      rfl
  | .property definition, _, v, path => (v.tree.update_id path).symm
  | .deleteNode delete, _, v, path => (v.tree.update_id path).symm
  | .deleteProperty delete, _, v, path => (v.tree.update_id path).symm

theorem tree_blocks : ∀ ss : List Statement, Statement.areAdditive ss = true →
    ∀ (v : Overlay) (path : NodePath),
    (v.blocks path ss).tree = v.tree.update (Statement.growBlocks ss) path
  | [], _, v, path => by
      rw [blocks]
      exact (v.tree.update_id path).symm
  | s :: ss, hss, v, path => by
      rw [Statement.areAdditive, Bool.and_eq_true] at hss
      cases hname : s.childName? with
      | none =>
          rw [blocks_of_none hname, tree_blocks ss hss.2]
          simp only [Statement.growBlocks, hname, Option.elim_none]
      | some name =>
          have hblock := tree_block s (Statement.isExtension_of_isAdditive hss.1)
            (v.update path (·.adopt name)) (path ++ [name])
          have hchild : ∀ r : Rose, ((r.adopt name).update s.grow [name]).name = r.name :=
            fun r => r.name_adopt name
          rw [blocks_of_childName hname, tree_blocks ss hss.2, hblock, Rose.update_append, update,
            Rose.update_update (Rose.name_adopt name), Rose.update_update hchild]
          simp only [Statement.growBlocks, hname, Option.elim_some]

end

end Overlay

/-! ### The block of a tree -/

namespace Statement

theorem exists_of_form_property {s : Statement} {p : PropertyForm}
    (h : s.form = .leaf (.property p)) : ∃ d : PropertyDef, s = .property d ∧ d.form = p := by
  cases s with
  | property d =>
      cases h
      exact ⟨d, rfl, rfl⟩
  | _ => cases h

theorem exists_of_form_block {s : Statement} {labels : List String} {target : TargetForm}
    {body : List StatementForm} (h : s.form = .block labels target body) :
    ∃ head ss, s = .block head ss ∧ head.labels.map (·.value) = labels ∧
      head.target.form = target ∧ ss.map form = body := by
  cases s with
  | block head ss =>
      cases h
      exact ⟨head, ss, rfl, rfl, rfl, (forms_eq_map ss).symm⟩
  | _ => cases h

theorem exists_of_forms_property {ss : List Statement} {ps : List PropertyForm}
    (h : ss.map form = ps.map fun p => .leaf (.property p)) :
    ∃ ds : List PropertyDef, ss = ds.map .property ∧ ds.map PropertyDef.form = ps := by
  induction ps generalizing ss with
  | nil => exact ⟨[], List.map_eq_nil_iff.mp h, rfl⟩
  | cons p ps ih =>
      obtain ⟨s, ss, rfl, hs, hss⟩ := List.map_eq_cons_iff.mp h
      obtain ⟨d, rfl, rfl⟩ := exists_of_form_property hs
      obtain ⟨ds, rfl, rfl⟩ := ih hss
      exact ⟨d :: ds, rfl, rfl⟩

theorem growBlocks_append (ss ss' : List Statement) (r : Rose) :
    growBlocks (ss ++ ss') r = growBlocks ss' (growBlocks ss r) := by
  induction ss generalizing r with
  | nil => rfl
  | cons s ss ih => rw [List.cons_append, growBlocks, growBlocks, ih]

theorem growBlocks_properties (ds : List PropertyDef) (r : Rose) :
    growBlocks (ds.map .property) r = r := by
  induction ds with
  | nil => rfl
  | cons d ds ih => exact ih

end Statement

namespace Rose

/-- Properties of new names come after those that are there. -/
theorem foldl_define_properties {ds : List PropertyDef} {r : Rose}
    (h : (r.properties.keys ++ ds.map (·.name.value)).Nodup) :
    (ds.map Statement.property).foldl define r =
      { r with properties := ⟨r.properties.entries ++ ds.map fun d => (d.name.value, d)⟩ } := by
  induction ds generalizing r with
  | nil =>
      obtain ⟨name, labels, properties, children⟩ := r
      simp
  | cons d ds ih =>
      have hnew : Table.lookup? d.name.value r.properties.entries = none := by
        refine Table.lookup?_eq_none.mpr fun e he hkey => ?_
        refine List.disjoint_of_nodup_append h (List.mem_map_of_mem he) ?_
        exact hkey ▸ List.mem_map_of_mem List.mem_cons_self
      have hinsert : r.define (.property d) =
          { r with properties := ⟨r.properties.entries ++ [(d.name.value, d)]⟩ } := by
        rw [define, setProperty, Table.insert, (Table.insertEntry_of_lookup?_none hnew).2]
      rw [List.map_cons, List.foldl_cons, hinsert, ih]
      · simp
      · simpa [Table.keys] using h

theorem foldl_define_blocks {ss : List Statement} (h : ∀ s ∈ ss, s.isBlock = true) (r : Rose) :
    ss.foldl define r = r := by
  induction ss generalizing r with
  | nil => rfl
  | cons s ss ih =>
      obtain ⟨hs, hss⟩ := List.forall_mem_cons.mp h
      cases s with
      | block head body => exact ih hss r
      | _ => cases hs

/-- A child of a new name comes after those that are there. -/
theorem update_adopt_new {r : Rose} {name : UnitName} (h : name ∉ r.children.map (·.name))
    (f : Rose → Rose) :
    (r.adopt name).update f [name] = { r with children := r.children ++ [f (leaf name)] } := by
  have hnone : r.child? name = none := by
    refine List.find?_eq_none.mpr fun child hc heq => h ?_
    exact of_decide_eq_true heq ▸ List.mem_map_of_mem hc
  have hothers :
      r.children.map (fun child => if child.name = name then child.update f [] else child) =
        r.children := by
    calc r.children.map _ = r.children.map id := by
          refine List.map_congr_left fun child hc => if_neg fun heq => h ?_
          exact heq ▸ List.mem_map_of_mem hc
      _ = r.children := List.map_id _
  rw [adopt, hnone, Option.isSome_none, if_neg Bool.false_ne_true, update, List.map_append, hothers,
    List.map_singleton, if_pos (by rfl), update]

end Rose

namespace RoseForm

/-- A block that says a tree has the properties first and then the children. -/
theorem exists_of_source {f : RoseForm} {s : Statement} {target : TargetForm}
    (h : s.form = f.source target) :
    ∃ (head : BlockHead) (ds : List PropertyDef) (ss : List Statement),
      s = .block head (ds.map .property ++ ss) ∧ head.labels.map (·.value) = f.labels ∧
      head.target.form = target ∧ ds.map PropertyDef.form = f.properties ∧
      ss.map Statement.form = sources f.children := by
  rw [source_eq] at h
  obtain ⟨head, body, rfl, hlabels, htarget, hbody⟩ := Statement.exists_of_form_block h
  obtain ⟨ps, ss, rfl, hps, hss⟩ := List.map_eq_append_iff.mp hbody
  obtain ⟨ds, rfl, hds⟩ := Statement.exists_of_forms_property hps
  exact ⟨head, ds, ss, rfl, hlabels, htarget, hds, hss⟩

theorem childName?_of_source {f : RoseForm} {s : Statement} {name : UnitName}
    (h : s.form = f.source (.child name)) : s.childName? = some name := by
  obtain ⟨⟨id, labels, target, span⟩, ds, ss, rfl, -, htarget, -⟩ := exists_of_source h
  cases target with
  | child other =>
      cases htarget
      rfl
  | _ => cases htarget

/-- What the block of a tree makes of a node is the tree. -/
def Grows (f : RoseForm) : Prop :=
  ∀ {s : Statement} {target : TargetForm}, s.form = f.source target →
    (s.grow (.leaf f.name)).form = f

theorem growBlocks_sources {fs : List RoseForm} (hfs : ∀ f ∈ fs, f.Grows) {ss : List Statement}
    (hss : ss.map Statement.form = sources fs) {r : Rose}
    (hnames : (r.children.map (·.name) ++ fs.map (·.name)).Nodup) :
    ∃ more, Statement.growBlocks ss r = { r with children := r.children ++ more } ∧
      more.map Rose.form = fs := by
  induction fs generalizing ss r with
  | nil =>
      obtain ⟨name, labels, properties, children⟩ := r
      rw [List.map_eq_nil_iff.mp hss]
      exact ⟨[], by simp [Statement.growBlocks], rfl⟩
  | cons f fs ih =>
      obtain ⟨s, ss, rfl, hs, hss⟩ := List.map_eq_cons_iff.mp hss
      obtain ⟨hf, hfs⟩ := List.forall_mem_cons.mp hfs
      have hnew : f.name ∉ r.children.map (·.name) := fun hmem =>
        List.disjoint_of_nodup_append hnames hmem List.mem_cons_self
      have hgrown : (s.grow (.leaf f.name)).name = f.name := s.name_grow _
      rw [Statement.growBlocks, childName?_of_source hs, Option.elim_some,
        Rose.update_adopt_new hnew]
      obtain ⟨more, hmore, hforms⟩ := ih hfs hss
        (r := { r with children := r.children ++ [s.grow (.leaf f.name)] })
        (by simpa [hgrown] using hnames)
      refine ⟨s.grow (.leaf f.name) :: more, ?_, by rw [List.map_cons, hf hs, hforms]⟩
      rw [hmore]
      simp

theorem isBlock_of_sources {fs : List RoseForm} {ss : List Statement}
    (h : ss.map Statement.form = sources fs) : ∀ s ∈ ss, s.isBlock = true := by
  intro s hs
  have hmem := List.mem_map_of_mem hs (f := Statement.form)
  rw [h, sources_eq_map] at hmem
  obtain ⟨f, -, hform⟩ := List.mem_map.mp hmem
  obtain ⟨head, ds, ss, rfl, -⟩ := exists_of_source hform.symm
  rfl

theorem Distinct.grows {f : RoseForm} (h : f.Distinct) : f.Grows := by
  induction h with
  | @node name labels properties children hproperties hchildren h ih =>
      intro s target hs
      obtain ⟨head, ds, ss, rfl, rfl, -, rfl, hss⟩ := exists_of_source hs
      obtain ⟨more, hmore, rfl⟩ := growBlocks_sources ih hss
        (r := (Rose.leaf name).addLabels head.labels) hchildren
      have hnames : (ds.map (·.name.value)).Nodup := by
        rwa [List.map_map] at hproperties
      rw [Statement.grow, Statement.growBlocks_append, Statement.growBlocks_properties, hmore,
        List.foldl_append, Rose.foldl_define_blocks (isBlock_of_sources hss),
        Rose.foldl_define_properties, Rose.form_eq]
      · simp [Rose.addLabels, Rose.leaf, Table.values, Table.empty, Function.comp_def]
      · exact hnames

/-! The block of a tree holds child blocks and properties only. -/

mutual

theorem isExtension_of_source : ∀ (f : RoseForm) {s : Statement} {target : TargetForm},
    s.form = f.source target → s.isExtension = true
  | ⟨name, labels, properties, children⟩, s, target, h => by
      obtain ⟨head, ds, ss, rfl, -, -, -, hss⟩ := exists_of_source h
      rw [Statement.isExtension, Statement.areAdditive_append, Statement.areAdditive_properties,
        areAdditive_of_sources children hss]
      rfl

theorem areAdditive_of_sources : ∀ (fs : List RoseForm) {ss : List Statement},
    ss.map Statement.form = sources fs → Statement.areAdditive ss = true
  | [], ss, h => by
      rw [List.map_eq_nil_iff.mp h]
      rfl
  | f :: fs, ss, h => by
      obtain ⟨s, ss, rfl, hs, hss⟩ := List.map_eq_cons_iff.mp h
      rw [Statement.areAdditive, Bool.and_eq_true]
      exact ⟨Statement.isAdditive_of_childName (childName?_of_source hs)
        (isExtension_of_source f hs), areAdditive_of_sources fs hss⟩

end

end RoseForm

end Devicetree
