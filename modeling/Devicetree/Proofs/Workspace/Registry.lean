import Devicetree.Workspace.Registry
import Mathlib.Data.List.Nodup

/-!
# The registry tells files apart

A registry that came about by registering paths holds each shortest spelling once. A number then
stands for one spelling, and keeps it when more paths are registered.
-/

namespace Devicetree.Registry

/-- Each entry has the shortest spelling of its path, and no two the same. -/
structure Sound (r : Registry) : Prop where
  spelled : ∀ e ∈ r.entries, e.canonical = e.path.canonical
  nodup : (r.entries.map (·.canonical)).Nodup

def Knows (r : Registry) (file : FileId) : Prop :=
  file.index < r.entries.length

/-- The shortest spelling that a number stands for. -/
def key (r : Registry) (file : FileId) : String :=
  (r.entries.map (·.canonical))[file.index]?.getD ""

theorem sound_empty : empty.Sound where
  spelled := by simp [empty]
  nodup := List.nodup_nil

variable {r r' : Registry} {file file' : FileId}

theorem getElem?_of_knows (h : r.Knows file) :
    (r.entries.map (·.canonical))[file.index]? = some (r.key file) := by
  have hlt : file.index < (r.entries.map (·.canonical)).length := by
    rw [List.length_map]
    exact h
  rw [key, List.getElem?_eq_getElem hlt, Option.getD_some]

theorem Sound.key_inj (hr : r.Sound) (h : r.Knows file) (h' : r.Knows file')
    (hkey : r.key file = r.key file') : file = file' := by
  have hlt : file.index < (r.entries.map (·.canonical)).length := by
    rw [List.length_map]
    exact h
  have hindex : file.index = file'.index := by
    apply (List.getElem?_inj hlt hr.nodup).mp
    rw [getElem?_of_knows h, getElem?_of_knows h', hkey]
  exact congrArg FileId.mk hindex

theorem knows_mono (h : r.entries <+: r'.entries) (hfile : r.Knows file) : r'.Knows file :=
  Nat.lt_of_lt_of_le hfile h.length_le

/-- More paths leave the numbers what they were. -/
theorem key_mono (h : r.entries <+: r'.entries) (hfile : r.Knows file) :
    r'.key file = r.key file := by
  obtain ⟨more, hmore⟩ := h
  have hlt : file.index < (r.entries.map (·.canonical)).length := by
    rw [List.length_map]
    exact hfile
  rw [key, key, ← hmore, List.map_append, List.getElem?_append_left hlt]

theorem knows_of_lookup? {p : SourcePath} (h : r.lookup? p = some file) :
    r.Knows file ∧ r.key file = p.canonical := by
  obtain ⟨index, hindex, rfl⟩ := Option.map_eq_some_iff.mp h
  obtain ⟨hlt, hkey, -⟩ := List.findIdx?_eq_some_iff_getElem.mp hindex
  refine ⟨hlt, ?_⟩
  rw [key, List.getElem?_map, List.getElem?_eq_getElem hlt]
  exact of_decide_eq_true hkey

theorem lookup?_eq_none_iff {p : SourcePath} :
    r.lookup? p = none ↔ p.canonical ∉ r.entries.map (·.canonical) := by
  rw [lookup?, Option.map_eq_none_iff, List.findIdx?_eq_none_iff]
  simp

theorem lookup?_eq_some_iff (hr : r.Sound) {p : SourcePath} :
    r.lookup? p = some file ↔ r.Knows file ∧ r.key file = p.canonical := by
  refine ⟨knows_of_lookup?, fun ⟨hknows, hkey⟩ => ?_⟩
  cases hlookup : r.lookup? p with
  | none =>
      have hmem := List.mem_of_getElem? (getElem?_of_knows hknows)
      rw [hkey] at hmem
      exact absurd hmem (lookup?_eq_none_iff.mp hlookup)
  | some file' =>
      obtain ⟨hknows', hkey'⟩ := knows_of_lookup? hlookup
      rw [hr.key_inj hknows' hknows (hkey'.trans hkey.symm)]

theorem exists_lookup? (hr : r.Sound) (h : r.Knows file) : ∃ p, r.lookup? p = some file := by
  have hentry : r.entries[file.index] ∈ r.entries := List.getElem_mem h
  refine ⟨r.entries[file.index].path, (lookup?_eq_some_iff hr).mpr ⟨h, ?_⟩⟩
  rw [← hr.spelled _ hentry, key, List.getElem?_map, List.getElem?_eq_getElem h]
  rfl

section Growth

variable (hr : r.Sound) (hr' : r'.Sound) (h : r.entries <+: r'.entries)

include hr hr' h

theorem lookup?_mono {p : SourcePath} (hfile : r.lookup? p = some file) :
    r'.lookup? p = some file := by
  obtain ⟨hknows, hkey⟩ := (lookup?_eq_some_iff hr).mp hfile
  apply (lookup?_eq_some_iff hr').mpr
  exact ⟨knows_mono h hknows, (key_mono h hknows).trans hkey⟩

/-- What is known of no file but those registered is found under the same paths. -/
theorem lookup?_bind_mono {α : Type} {f : FileId → Option α}
    (hf : ∀ file, (f file).isSome → r.Knows file) (p : SourcePath) :
    (r'.lookup? p).bind f = (r.lookup? p).bind f := by
  cases hlookup : r.lookup? p with
  | some file => rw [lookup?_mono hr hr' h hlookup]
  | none =>
      cases hlookup' : r'.lookup? p with
      | none => rfl
      | some file =>
          -- A number that the path got only now is of a file not known before.
          apply Option.not_isSome_iff_eq_none.mp
          intro hsome
          have hknows := hf file hsome
          have hkey := ((lookup?_eq_some_iff hr').mp hlookup').2
          rw [key_mono h hknows] at hkey
          rw [(lookup?_eq_some_iff hr).mpr ⟨hknows, hkey⟩] at hlookup
          cases hlookup

end Growth

theorem path?_mono (h : r.entries <+: r'.entries) (hfile : r.Knows file) :
    r'.path? file = r.path? file := by
  obtain ⟨more, hmore⟩ := h
  rw [path?, path?, ← hmore, List.getElem?_append_left hfile]

/-- Registering a path adds to the end at most. -/
theorem isPrefix_intern (r : Registry) (p : SourcePath) : r.entries <+: (r.intern p).2.entries := by
  rw [intern]
  split
  · exact List.prefix_refl _
  · exact List.prefix_append _ _

/-- A path is registered under a number that stands for it. -/
theorem intern_spec (hr : r.Sound) (p : SourcePath) :
    (r.intern p).2.Sound ∧ r.entries <+: (r.intern p).2.entries ∧
      (r.intern p).2.Knows (r.intern p).1 ∧ (r.intern p).2.key (r.intern p).1 = p.canonical := by
  have hprefix := isPrefix_intern r p
  rw [intern] at hprefix ⊢
  split at hprefix
  · rename_i file hlookup
    obtain ⟨hknows, hkey⟩ := (lookup?_eq_some_iff hr).mp hlookup
    exact ⟨hr, hprefix, hknows, hkey⟩
  · rename_i hlookup
    refine ⟨⟨?_, ?_⟩, hprefix, ?_, ?_⟩
    · intro e he
      rcases List.mem_append.mp he with he | he
      · exact hr.spelled e he
      · obtain rfl := List.mem_singleton.mp he
        rfl
    · rw [List.map_append, List.map_singleton, ← List.concat_eq_append]
      exact hr.nodup.concat (lookup?_eq_none_iff.mp hlookup)
    · simp [Knows]
    · simp [key]

/-- A path of a number known is not registered again. -/
theorem intern_of_knows (hr : r.Sound) {p : SourcePath} (hfile : r.Knows file)
    (hkey : r.key file = p.canonical) : r.intern p = (file, r) := by
  rw [intern, (lookup?_eq_some_iff hr).mpr ⟨hfile, hkey⟩]

end Devicetree.Registry
