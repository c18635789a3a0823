import Mathlib.Data.List.Basic
import Devicetree.Proofs.Source.Name
import Devicetree.Workspace.SourcePath

/-!
# Paths by their components

The components decide everything that is done with a path: its shortest spelling, the directory it
is in, and what a relative path from there means. So do they for two spellings of one path.
-/

namespace Devicetree.SourcePath

theorem component?_eq_none {s : List Char} (h : component? s = none) : s = [] ∨ s = ['.'] := by
  unfold component? at h
  split at h
  · exact .inl rfl
  · exact .inr rfl
  · cases h
  · cases h

theorem text_of_component? {s : List Char} {c : Component} (h : component? s = some c) :
    c.text.toList = s := by
  unfold component? at h
  split at h
  · cases h
  · cases h
  · cases h
    rfl
  · cases h
    exact String.toList_ofList

/-! ### The components of a text -/

/-- The components after the first of an absolute path or of one that begins with a dot. -/
def counted (cs : List Char) : List Component :=
  (cs.splitOn '/').filterMap component?

/-- The component of a slash or a dot that the text begins with. -/
def lead (cs : List Char) : List Component :=
  if cs.head? = some '/' then [.root]
  else if (cs.splitOn '/').head? = some ['.'] then [.current]
  else []

@[simp] theorem counted_nil : counted [] = [] := rfl

theorem counted_append (xs ys : List Char) :
    counted (xs ++ '/' :: ys) = counted xs ++ counted ys := by
  rw [counted, List.splitOn_append_cons_self, List.filterMap_append]
  rfl

theorem counted_slash (cs : List Char) : counted ('/' :: cs) = counted cs :=
  counted_append [] cs

/-- The lead is decided before the first slash. -/
theorem lead_append (xs ys : List Char) :
    lead (xs ++ '/' :: ys) = if xs = [] then [.root] else lead xs := by
  cases xs with
  | nil => rfl
  | cons x xs =>
      rw [if_neg (List.cons_ne_nil _ _), lead, lead, List.splitOn_append_cons_self,
        List.head?_append_of_ne_nil _ (List.splitOn_ne_nil _ _)]
      rfl

theorem isAbsolute_iff {p : SourcePath} : p.isAbsolute = true ↔ p.text.toList.head? = some '/' :=
  beq_iff_eq

theorem segments_of_slash {p : SourcePath} {cs : List Char} (h : p.text.toList = '/' :: cs) :
    p.segments = cs.splitOn '/' := by
  rw [segments, h]
  rfl

theorem segments_of_relative {p : SourcePath} (h : ¬p.isAbsolute = true) :
    p.segments = p.text.toList.splitOn '/' := by
  rw [isAbsolute_iff] at h
  rw [segments]
  split
  · rename_i htext
    exact absurd (congrArg List.head? htext) h
  · rfl

theorem components_eq (p : SourcePath) :
    p.components = lead p.text.toList ++ counted p.text.toList := by
  rw [components]
  split
  · rename_i habsolute
    obtain ⟨cs, hcs⟩ := List.head?_eq_some_iff.mp (isAbsolute_iff.mp habsolute)
    rw [segments_of_slash hcs, hcs, counted_slash]
    rfl
  · rename_i hrelative
    rw [lead, if_neg (fun h => hrelative (isAbsolute_iff.mpr h)), counted,
      ← segments_of_relative hrelative]
    split
    · rename_i rest hrest
      rw [hrest]
      rfl
    · rename_i hdot
      rw [if_neg, List.nil_append]
      intro hhead
      obtain ⟨rest, hrest⟩ := List.head?_eq_some_iff.mp hhead
      exact hdot rest hrest

theorem splitOn_cons_of_ne {c : Char} (hc : c ≠ '/') (cs : List Char) :
    ∃ s ss, (c :: cs).splitOn '/' = (c :: s) :: ss := by
  obtain ⟨s, ss, hsplit⟩ := List.exists_cons_of_ne_nil (List.splitOn_ne_nil '/' cs)
  refine ⟨s, ss, ?_⟩
  rw [List.splitOn_cons_eq_if_modifyHead, if_neg (by simpa using hc), hsplit]
  rfl

/-- Only the empty text has no components. -/
theorem components_eq_nil_iff {p : SourcePath} : p.components = [] ↔ p.text.toList = [] := by
  rw [components_eq, List.append_eq_nil_iff]
  constructor
  · rintro ⟨hlead, hcounted⟩
    cases hcs : p.text.toList with
    | nil => rfl
    | cons c cs =>
        rw [hcs] at hlead hcounted
        by_cases hc : c = '/'
        · subst hc
          cases hlead
        · obtain ⟨s, ss, hfirst⟩ := splitOn_cons_of_ne hc cs
          rw [counted, hfirst, List.filterMap_cons] at hcounted
          rw [lead, if_neg (by simpa using hc), hfirst] at hlead
          cases hcomponent : component? (c :: s) with
          | some found =>
              rw [hcomponent] at hcounted
              cases hcounted
          | none =>
              rcases component?_eq_none hcomponent with h | h
              · cases h
              · rw [h] at hlead
                cases hlead
  · intro h
    rw [h]
    exact ⟨rfl, rfl⟩

/-! ### Texts between slashes -/

/-- The component that a text between slashes stands for; `first` tells whether a dot counts. -/
def counted? (first : Bool) (s : List Char) : Option Component :=
  if first = true ∧ s = ['.'] then some .current else component? s

/-- The components of texts between slashes; `first` tells whether a leading dot counts. -/
def listed (first : Bool) : List (List Char) → List Component
  | [] => []
  | s :: rest => (counted? first s).toList ++ listed false rest

theorem listed_false (segments : List (List Char)) :
    listed false segments = segments.filterMap component? := by
  induction segments with
  | nil => rfl
  | cons s rest ih =>
      rw [listed, ih, counted?, if_neg (by simp), List.filterMap_cons]
      cases component? s <;> rfl

/-- A dot counts at the beginning only. -/
theorem listed_true (segments : List (List Char)) :
    listed true segments =
      (if segments.head? = some ['.'] then [.current] else []) ++
        segments.filterMap component? := by
  cases segments with
  | nil => rfl
  | cons s rest =>
      rw [← listed_false, listed, listed, List.head?_cons]
      by_cases hs : s = ['.']
      · subst hs
        rfl
      · rw [counted?, if_neg (fun h => hs h.2), if_neg (fun h => hs (Option.some.inj h)), counted?,
          if_neg (by simp), List.nil_append]

theorem components_eq_listed (p : SourcePath) :
    p.components = (if p.isAbsolute then [.root] else []) ++ listed (!p.isAbsolute) p.segments := by
  rw [components]
  split
  · rename_i habsolute
    rw [habsolute, Bool.not_true, listed_false]
    rfl
  · rename_i hrelative
    rw [eq_false_of_ne_true hrelative, Bool.not_false, listed_true]
    split
    · rename_i rest hrest
      rw [hrest]
      rfl
    · rename_i hdot
      rw [if_neg]
      · rfl
      · intro hhead
        obtain ⟨rest, hrest⟩ := List.head?_eq_some_iff.mp hhead
        exact hdot rest hrest

/-- The path of some texts between slashes. -/
def spell (absolute : Bool) (segments : List (List Char)) : SourcePath :=
  ⟨(if absolute then "/" else "") ++ "/".intercalate (segments.map String.ofList)⟩

theorem toList_spell (absolute : Bool) (segments : List (List Char)) :
    (spell absolute segments).text.toList =
      (if absolute then ['/'] else []) ++ ['/'].intercalate segments := by
  rw [spell, String.toList_append, String.toList_intercalate, List.map_map]
  congr 2
  · cases absolute <;> rfl
  · exact (List.map_congr_left fun s _ => String.toList_ofList).trans (List.map_id _)

theorem counted_intercalate {segments : List (List Char)} (h : ∀ s ∈ segments, '/' ∉ s) :
    counted (['/'].intercalate segments) = segments.filterMap component? := by
  cases segments with
  | nil => rfl
  | cons s rest => rw [counted, List.splitOn_intercalate _ h (List.cons_ne_nil _ _)]

/-- Texts between slashes are read back; the first of a relative path is not empty. -/
theorem components_spell (absolute : Bool) {segments : List (List Char)}
    (h : ∀ s ∈ segments, '/' ∉ s) (hfirst : absolute = false → segments.head? ≠ some []) :
    (spell absolute segments).components =
      (if absolute then [.root] else []) ++ listed (!absolute) segments := by
  rw [components_eq, toList_spell]
  cases absolute with
  | true =>
      change [.root] ++ counted ('/' :: ['/'].intercalate segments) = _
      rw [counted_slash, counted_intercalate h, Bool.not_true, listed_false]
      rfl
  | false =>
      rw [Bool.not_false, listed_true, ← counted_intercalate h]
      change lead (['/'].intercalate segments) ++ counted (['/'].intercalate segments) =
        (if segments.head? = some ['.'] then [.current] else []) ++
          counted (['/'].intercalate segments)
      congr 1
      cases segments with
      | nil => rfl
      | cons s rest =>
          have hs : s ≠ [] := fun hs => hfirst rfl (congrArg some hs)
          have hhead : (['/'].intercalate (s :: rest)).head? = s.head? := by
            cases rest with
            | nil => rw [List.intercalate_singleton]
            | cons s' rest =>
                rw [List.intercalate_cons_cons, List.append_assoc, List.head?_append_of_ne_nil _ hs]
          have hslash : s.head? ≠ some '/' := fun hslash =>
            h s List.mem_cons_self (List.mem_of_head? hslash)
          rw [lead, hhead, if_neg hslash, List.splitOn_intercalate _ h (List.cons_ne_nil _ _)]

theorem slash_not_mem_of_mem_segments {p : SourcePath} {s : List Char} (h : s ∈ p.segments) :
    '/' ∉ s := by
  rw [segments] at h
  split at h
  · exact fun hslash => (mem_of_mem_splitOn h _ hslash).2 rfl
  · exact fun hslash => (mem_of_mem_splitOn h _ hslash).2 rfl

/-- A relative path does not begin with an empty text between slashes. -/
theorem head?_segments {p : SourcePath} (h : p.isAbsolute = false) (hne : p.text.toList ≠ []) :
    p.segments.head? ≠ some [] := by
  rw [segments_of_relative (by simp [h])]
  obtain ⟨c, cs, hcs⟩ := List.exists_cons_of_ne_nil hne
  have hc : c ≠ '/' := by
    rintro rfl
    rw [isAbsolute, hcs] at h
    cases h
  obtain ⟨s, ss, hsplit⟩ := splitOn_cons_of_ne hc cs
  rw [hcs, hsplit]
  simp

/-! ### The shortest spelling -/

theorem text_of_counted? {first : Bool} {s : List Char} {c : Component}
    (h : counted? first s = some c) : c.text.toList = s := by
  rw [counted?] at h
  split at h
  · rename_i hdot
    cases h
    exact hdot.2.symm
  · exact text_of_component? h

/-- The components are their own texts between slashes. -/
theorem listed_texts (first : Bool) (segments : List (List Char)) :
    listed first ((listed first segments).map (·.text.toList)) = listed first segments := by
  induction segments generalizing first with
  | nil => rfl
  | cons s rest ih =>
      rw [listed]
      cases hs : counted? first s with
      | some c =>
          rw [Option.toList_some, List.singleton_append, List.map_cons, text_of_counted? hs,
            listed, hs, ih false]
          rfl
      | none =>
          rw [Option.toList_none, List.nil_append]
          cases first with
          | false => exact ih false
          | true =>
              rw [listed_true, if_neg, List.nil_append, ← listed_false, ih false]
              intro hdot
              rw [listed_false, List.head?_map] at hdot
              obtain ⟨c, hc, htext⟩ := Option.map_eq_some_iff.mp hdot
              obtain ⟨s', -, hs'⟩ := List.mem_filterMap.mp (List.mem_of_head? hc)
              rw [text_of_component? hs'] at htext
              rw [htext] at hs'
              cases hs'

theorem exists_of_mem_listed {first : Bool} {segments : List (List Char)} {c : Component}
    (h : c ∈ listed first segments) : ∃ s ∈ segments, ∃ first, counted? first s = some c := by
  induction segments generalizing first with
  | nil => cases h
  | cons s rest ih =>
      rw [listed] at h
      rcases List.mem_append.mp h with h | h
      · exact ⟨s, List.mem_cons_self, first, Option.mem_toList.mp h⟩
      · obtain ⟨s', hs', hc⟩ := ih h
        exact ⟨s', List.mem_cons_of_mem _ hs', hc⟩

theorem counted?_ne_root (first : Bool) (s : List Char) : counted? first s ≠ some .root := by
  intro h
  rw [counted?] at h
  split at h
  · cases h
  · unfold component? at h
    split at h <;> cases h

theorem canonical_eq (p : SourcePath) :
    p.canonical = (spell p.isAbsolute
      ((listed (!p.isAbsolute) p.segments).map (·.text.toList))).text := by
  have htexts : ∀ cs : List Component,
      (cs.map (·.text.toList)).map String.ofList = cs.map Component.text := by
    intro cs
    rw [List.map_map]
    exact List.map_congr_left fun c _ => String.ofList_toList
  rw [spell, htexts, canonical, components_eq_listed]
  cases p.isAbsolute with
  | true => rfl
  | false =>
      split
      · rename_i rest hrest
        have hroot : Component.root ∈ listed true p.segments := by
          rw [show listed true p.segments = _ from hrest]
          exact List.mem_cons_self
        obtain ⟨s, -, first, hs⟩ := exists_of_mem_listed hroot
        exact absurd hs (counted?_ne_root first s)
      · exact String.empty_append.symm

/-- The shortest spelling has the components of the path. -/
theorem components_canonical (p : SourcePath) :
    (SourcePath.mk p.canonical).components = p.components := by
  rw [canonical_eq]
  refine (components_spell _ ?_ ?_).trans ?_
  · intro s hs
    obtain ⟨c, hc, rfl⟩ := List.mem_map.mp hs
    obtain ⟨s, hs, first, hcounted⟩ := exists_of_mem_listed hc
    rw [text_of_counted? hcounted]
    exact slash_not_mem_of_mem_segments hs
  · intro _ hhead
    rw [List.head?_map] at hhead
    obtain ⟨c, hc, htext⟩ := Option.map_eq_some_iff.mp hhead
    obtain ⟨s, -, first, hcounted⟩ := exists_of_mem_listed (List.mem_of_head? hc)
    rw [text_of_counted? hcounted] at htext
    subst htext
    simp [counted?, component?] at hcounted
  · rw [listed_texts, components_eq_listed]

/-- Paths are spelled alike exactly if their components are the same. -/
theorem canonical_eq_iff {p q : SourcePath} :
    p.canonical = q.canonical ↔ p.components = q.components := by
  constructor
  · intro h
    rw [← components_canonical p, h, components_canonical]
  · intro h
    rw [canonical, canonical, h]

theorem canonical_canonical (p : SourcePath) :
    (SourcePath.mk p.canonical).canonical = p.canonical :=
  canonical_eq_iff.mpr (components_canonical p)

/-! ### Relative paths -/

/-- A relative path adds its components to those of a directory. -/
theorem components_join (d : SourcePath) {t : SourcePath} (ht : ¬t.isAbsolute = true) :
    (d.join t).components =
      if d.components = [] then t.components else d.components ++ counted t.text.toList := by
  rw [join, if_neg ht]
  split
  · rename_i hlast
    rw [if_pos (components_eq_nil_iff.mpr (List.getLast?_eq_none_iff.mp hlast))]
  · rename_i hlast
    obtain ⟨cs, hcs⟩ := List.getLast?_eq_some_iff.mp hlast
    have hne : d.components ≠ [] := by
      intro h
      rw [components_eq_nil_iff, hcs] at h
      simp at h
    rw [if_neg hne, components_eq, components_eq, String.toList_append, hcs, List.append_assoc,
      List.singleton_append, lead_append, lead_append, counted_append, counted_append,
      counted_nil, List.append_nil, List.append_assoc]
  · rename_i c hc hlast
    have hne : d.text.toList ≠ [] := by
      intro h
      rw [h] at hlast
      cases hlast
    rw [if_neg (components_eq_nil_iff.not.mpr hne), components_eq, components_eq,
      String.toList_append, String.toList_append, List.append_assoc]
    change lead (d.text.toList ++ '/' :: t.text.toList) ++
      counted (d.text.toList ++ '/' :: t.text.toList) = _
    rw [lead_append, if_neg hne, counted_append, List.append_assoc]

/-! ### The directory of a path -/

theorem listed_append (first : Bool) (init : List (List Char)) (s : List Char) :
    listed first (init ++ [s]) =
      listed first init ++ (counted? (first && init.isEmpty) s).toList := by
  induction init generalizing first with
  | nil => simp [listed]
  | cons s' init ih =>
      rw [List.cons_append, listed, ih, listed, List.append_assoc]
      simp

theorem trimSegments_cons (first : Bool) (s : List Char) (rest : List (List Char)) :
    trimSegments first (s :: rest) =
      if trimSegments false rest = [] then
        if (counted? first s).isSome then [s] else []
      else s :: trimSegments false rest := by
  rw [trimSegments]
  split
  · rename_i h
    rw [if_pos h]
    by_cases hdot : first = true ∧ s = ['.']
    · simp [counted?, hdot]
    · have hfirst : (first && s == ['.']) = false := by simpa using hdot
      rw [counted?, if_neg hdot, hfirst, Bool.or_false]
  · rename_i h
    rw [if_neg h]

/-- Trimming leaves the components. -/
theorem listed_trimSegments (first : Bool) (segments : List (List Char)) :
    listed first (trimSegments first segments) = listed first segments := by
  induction segments generalizing first with
  | nil => rfl
  | cons s rest ih =>
      rw [trimSegments_cons, listed, ← ih false]
      split
      · rename_i h
        rw [h]
        cases hs : counted? first s with
        | none => rfl
        | some c => simp [listed, hs]
      · rfl

/-- Trimming leaves no text at the end that does not count. -/
theorem trimSegments_eq_append {first : Bool} {segments init : List (List Char)} {s : List Char}
    (h : trimSegments first segments = init ++ [s]) :
    ∃ c, counted? (first && init.isEmpty) s = some c := by
  induction segments generalizing first init with
  | nil => simp [trimSegments] at h
  | cons s' rest ih =>
      rw [trimSegments_cons] at h
      split at h
      · split at h
        · rename_i hs
          obtain ⟨rfl, hinit⟩ := List.append_inj' (h.symm.trans (List.nil_append [s']).symm) rfl
          obtain rfl := (List.cons.inj hinit).1
          rw [List.isEmpty_nil, Bool.and_true]
          exact Option.isSome_iff_exists.mp hs
        · simp at h
      · rename_i hne
        cases init with
        | nil => exact absurd (List.cons.inj h).2 hne
        | cons s'' init =>
            obtain ⟨c, hc⟩ := ih (List.cons.inj h).2
            exact ⟨c, by simpa using hc⟩

theorem trimSegments_isPrefix (first : Bool) (segments : List (List Char)) :
    trimSegments first segments <+: segments := by
  induction segments generalizing first with
  | nil => exact List.prefix_refl _
  | cons s rest ih =>
      rw [trimSegments_cons]
      split
      · split
        · exact ⟨rest, rfl⟩
        · exact List.nil_prefix
      · exact List.prefix_cons_inj s |>.mpr (ih false)


/-- The directory, where the texts up to the last that counts are known. -/
theorem parent?_eq {p : SourcePath} {init : List (List Char)} {s : List Char}
    (h : trimSegments (!p.isAbsolute) p.segments = init ++ [s]) :
    p.parent? = some (spell p.isAbsolute (trimSegments (!p.isAbsolute) init)) := by
  rw [parent?]
  dsimp only
  split
  · rename_i hnil
    rw [h] at hnil
    simp at hnil
  · rw [h, List.dropLast_concat]
    rfl

/-- The directory of a path has all its components but the last. -/
theorem map_components_parent? (p : SourcePath) :
    p.parent?.map components =
      if p.components = [] ∨ p.components = [.root] then none else some p.components.dropLast := by
  have hlisted := listed_trimSegments (!p.isAbsolute) p.segments
  rcases List.eq_nil_or_concat' (trimSegments (!p.isAbsolute) p.segments) with h | ⟨init, s, h⟩
  · rw [h] at hlisted
    rw [components_eq_listed, ← hlisted, parent?]
    dsimp only
    rw [h]
    cases p.isAbsolute <;> rfl
  · obtain ⟨c, hc⟩ := trimSegments_eq_append h
    rw [h, listed_append, hc, Option.toList_some] at hlisted
    have hinit : init <+: p.segments := by
      have hprefix := trimSegments_isPrefix (!p.isAbsolute) p.segments
      rw [h] at hprefix
      exact (List.prefix_append init [s]).trans hprefix
    have hrest := (trimSegments_isPrefix (!p.isAbsolute) init).trans hinit
    have hcomponents : p.components =
        (if p.isAbsolute then [.root] else []) ++ listed (!p.isAbsolute) init ++ [c] := by
      rw [components_eq_listed, ← hlisted, List.append_assoc]
    have hparent : (spell p.isAbsolute (trimSegments (!p.isAbsolute) init)).components =
        (if p.isAbsolute then [.root] else []) ++ listed (!p.isAbsolute) init := by
      rw [← listed_trimSegments]
      refine components_spell _ (fun s hs => ?_) fun hrelative hhead => ?_
      · exact slash_not_mem_of_mem_segments (hrest.subset hs)
      · have htext : p.text.toList ≠ [] := by
          rw [Ne, ← components_eq_nil_iff, hcomponents]
          simp
        obtain ⟨back, hback⟩ := hrest
        obtain ⟨others, hothers⟩ := List.head?_eq_some_iff.mp hhead
        apply head?_segments hrelative htext
        rw [← hback, hothers]
        rfl
    have hmore : ¬(p.components = [] ∨ p.components = [.root]) := by
      rw [hcomponents]
      rintro (hnil | hroot)
      · simp at hnil
      · rcases List.append_eq_singleton_iff.mp hroot with ⟨-, hroot⟩ | ⟨-, hroot⟩
        · rw [(List.cons.inj hroot).1] at hc
          exact counted?_ne_root _ _ hc
        · cases hroot
    rw [parent?_eq h, Option.map_some, hparent, if_neg hmore, hcomponents, List.dropLast_concat]

/-! ### Two spellings of a path -/

variable {p q : SourcePath}

theorem canonical_join (h : p.canonical = q.canonical) (t : SourcePath) :
    (p.join t).canonical = (q.join t).canonical := by
  rw [canonical_eq_iff] at h ⊢
  by_cases ht : t.isAbsolute = true
  · rw [join, join, if_pos ht, if_pos ht]
  · rw [components_join p ht, components_join q ht, h]

theorem canonical_parent? (h : p.canonical = q.canonical) :
    p.parent?.map canonical = q.parent?.map canonical := by
  rw [canonical_eq_iff] at h
  have hparent : p.parent?.map components = q.parent?.map components := by
    rw [map_components_parent?, map_components_parent?, h]
  cases hp : p.parent? <;> cases hq : q.parent? <;> rw [hp, hq] at hparent
  · cases hparent
  · cases hparent
  · exact congrArg some (canonical_eq_iff.mpr (Option.some.inj hparent))

end Devicetree.SourcePath
