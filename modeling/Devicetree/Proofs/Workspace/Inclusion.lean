import Devicetree.Proofs.Source.Uniform
import Devicetree.Proofs.Workspace.Path
import Devicetree.Proofs.Workspace.Traversal
import Devicetree.Workspace.Include

/-!
# The graph of includes

A file includes those that its includes are found to be. Which these are does not depend on how the
path of the file is spelled, up to the spelling of theirs.
-/

namespace Devicetree

namespace Include

/-- Only the path written and how it is quoted decide where an include is searched. -/
theorem candidates_of_form {i j : Include} (h : i.form = j.form) (including : SourcePath)
    (directories : List SourcePath) :
    i.candidates including directories = j.candidates including directories := by
  obtain ⟨hpath, hquoted⟩ := IncludeForm.mk.inj h
  rw [candidates, candidates, hpath, hquoted]

theorem canonical_candidates (i : Include) {p q : SourcePath} (h : p.canonical = q.canonical)
    (directories : List SourcePath) :
    (i.candidates p directories).map SourcePath.canonical =
      (i.candidates q directories).map SourcePath.canonical := by
  rw [candidates, candidates]
  dsimp only
  split
  · rfl
  · have hjoin : ∀ ds es : List SourcePath,
        ds.map SourcePath.canonical = es.map SourcePath.canonical →
        (ds.map (·.join ⟨i.path.value⟩)).map SourcePath.canonical =
          (es.map (·.join ⟨i.path.value⟩)).map SourcePath.canonical := by
      intro ds es hds
      induction ds generalizing es with
      | nil =>
          obtain rfl := List.map_eq_nil_iff.mp hds.symm
          rfl
      | cons d ds ih =>
          obtain ⟨e, es, rfl, he, hes⟩ := List.map_eq_cons_iff.mp hds.symm
          simp only [List.map_cons]
          rw [ih es hes.symm, SourcePath.canonical_join he.symm]
    apply hjoin
    rw [List.map_append, List.map_append]
    split
    · rw [← Option.toList_map, SourcePath.canonical_parent? h, Option.toList_map]
    · rfl

variable (store : MemoryFiles) (directories : List SourcePath)

/-- An include means the same file in whatever spelling the including file is named. -/
theorem canonical_resolve? {i j : Include} (hform : i.form = j.form) {p q : SourcePath}
    (h : p.canonical = q.canonical) :
    (i.resolve? store p directories).map SourcePath.canonical =
      (j.resolve? store q directories).map SourcePath.canonical := by
  have hfind : ∀ ps : List SourcePath, (ps.find? (Store.isFile store)).map SourcePath.canonical =
      (ps.map SourcePath.canonical).find? fun key => (store.texts.get? key).isSome := by
    intro ps
    rw [List.find?_map]
    rfl
  rw [resolve?, resolve?, candidates_of_form hform, hfind, hfind, canonical_candidates j h]

end Include

namespace MemoryFiles

variable (store : MemoryFiles) (directories : List SourcePath)

/-- The files that the file of a path includes, as its includes find them. -/
def included (p : SourcePath) : List SourcePath :=
  (store.text? p).elim [] fun text =>
    (SourceFile.read ⟨0⟩ text.toList).includes.filterMap (·.resolve? store p directories)

/-- A file includes another. -/
def Includes (p q : SourcePath) : Prop :=
  q ∈ store.included directories p

/-- A path names a file that is reached from another through includes. -/
def Leads (p q : SourcePath) : Prop :=
  ∃ r, Relation.ReflTransGen (store.Includes directories) p r ∧ r.canonical = q.canonical

/-- The files that a file includes, all in their shortest spelling. -/
def includedKeys (key : String) : List String :=
  (store.included directories ⟨key⟩).map SourcePath.canonical

/-- What is found does not depend on the number of the file or the spelling of its path. -/
theorem canonical_found (file : FileId) (text : String) {p q : SourcePath}
    (h : p.canonical = q.canonical) :
    ((SourceFile.read file text.toList).includes.filterMap
        (·.resolve? store p directories)).map SourcePath.canonical =
      ((SourceFile.read ⟨0⟩ text.toList).includes.filterMap
        (·.resolve? store q directories)).map SourcePath.canonical := by
  have hform : (SourceFile.read file text.toList).includes.map Include.form =
      (SourceFile.read ⟨0⟩ text.toList).includes.map Include.form :=
    congrArg FileForm.includes (SourceFile.form_read file ⟨0⟩ text.toList)
  generalize (SourceFile.read file text.toList).includes = is at hform
  generalize (SourceFile.read ⟨0⟩ text.toList).includes = js at hform
  rw [List.map_filterMap, List.map_filterMap]
  induction is generalizing js with
  | nil =>
      obtain rfl := List.map_eq_nil_iff.mp hform.symm
      rfl
  | cons i is ih =>
      obtain ⟨j, js, rfl, hj, hjs⟩ := List.map_eq_cons_iff.mp hform.symm
      rw [List.filterMap_cons, List.filterMap_cons,
        Include.canonical_resolve? store directories hj.symm h, ih js hjs.symm]

theorem text?_congr {p q : SourcePath} (h : p.canonical = q.canonical) :
    store.text? p = store.text? q := by
  rw [text?, text?, h]

theorem canonical_included (p : SourcePath) :
    (store.included directories p).map SourcePath.canonical =
      store.includedKeys directories p.canonical := by
  have h := SourcePath.canonical_canonical p
  rw [includedKeys, included, included, store.text?_congr h]
  cases store.text? p with
  | none => rfl
  | some text => exact store.canonical_found directories ⟨0⟩ text h.symm

/-- Paths through the graph may be followed in shortest spellings. -/
theorem leads_iff {p q : SourcePath} :
    store.Leads directories p q ↔
      Reaches (store.includedKeys directories) p.canonical q.canonical := by
  constructor
  · rintro ⟨r, hr, hq⟩
    rw [← hq]
    clear hq
    induction hr with
    | refl => exact .refl
    | tail _ hstep ih =>
        refine ih.tail ?_
        rw [← canonical_included]
        exact List.mem_map_of_mem hstep
  · intro h
    rw [Leads]
    generalize q.canonical = key at h
    induction h with
    | refl => exact ⟨p, .refl, rfl⟩
    | tail _ hstep ih =>
        obtain ⟨r, hr, rfl⟩ := ih
        rw [← canonical_included] at hstep
        obtain ⟨s, hs, rfl⟩ := List.mem_map.mp hstep
        exact ⟨s, hr.tail hs, rfl⟩

end MemoryFiles

end Devicetree
