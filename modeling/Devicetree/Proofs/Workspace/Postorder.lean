import Devicetree.Proofs.Workspace.Depth
import Devicetree.Proofs.Workspace.Inclusion

/-!
# The include walk is a traversal

From a store in memory the walk goes through the graph of includes depth first. It fails at a file
that it begins with and the store does not hold, and nowhere else.
-/

namespace Devicetree

namespace Walk

/-- The files walked through, by shortest spelling. -/
def order (w : Walk) : List String :=
  w.files.map fun source => w.registry.key source.file

/-- What holds of the walk in a store while it does not fail: the files seen are registered and
held, and only they were walked through or loaded. -/
structure Sound (store : MemoryFiles) (w : Walk) : Prop extends w.Tracked where
  held : ∀ key ∈ w.seen, (store.texts.get? key).isSome
  entered : ∀ source ∈ w.files, source.file ∈ w.visited
  loaded : ∀ file, (w.loaded.get? file).isSome → file ∈ w.visited
  unfailed : w.failure = none

variable {store : MemoryFiles} (directories : List SourcePath)

/-- A file seen before is passed over. -/
theorem visit_of_seen {w : Walk} (h : Sound store w) {path : SourcePath}
    (hseen : path.canonical ∈ w.seen) (depth : Nat) :
    visit store directories depth path w = w := by
  obtain ⟨file, hfile, hkey⟩ := List.mem_map.mp hseen
  have hvisited := (h.toTracked.intern_mem_visited_iff path).mpr hseen
  rw [visit_of_visited h.unfailed hvisited, register,
    Registry.intern_of_knows h.registry (h.known file hfile) hkey]

theorem Sound.loaded_get? {w : Walk} (h : Sound store w) {file : FileId}
    (hfile : file ∉ w.visited) : w.loaded.get? file = none := by
  cases hget : w.loaded.get? file with
  | none => rfl
  | some loaded => exact absurd (h.loaded file (by simp [hget])) hfile

theorem load_of_absent {path : SourcePath} (habsent : store.text? path = none) {w : Walk}
    {file : FileId} (hfile : w.loaded.get? file = none) :
    w.load store file path = .error (.source path (.notHeld path)) := by
  rw [load, hfile]
  dsimp only [Store.read]
  rw [habsent]

theorem load_of_held {path : SourcePath} {text : String} (htext : store.text? path = some text)
    {w : Walk} {file : FileId} (hfile : w.loaded.get? file = none) :
    w.load store file path =
      .ok ({ w with loaded := w.loaded.insert file ⟨text, .read file text.toList⟩ },
        .read file text.toList) := by
  rw [load, hfile]
  dsimp only [Store.read]
  rw [htext]

/-- A file that is not held ends the walk. -/
theorem visit_of_absent {w : Walk} (h : Sound store w) {path : SourcePath}
    (habsent : store.text? path = none) (depth : Nat) :
    visit store directories (depth + 1) path w =
      { w with
        registry := (w.registry.intern path).2
        failure := some (.source path (.notHeld path)) } := by
  have hunseen : path.canonical ∉ w.seen := by
    intro hseen
    have hheld := h.held _ hseen
    rw [show store.texts.get? path.canonical = none from habsent] at hheld
    cases hheld
  have hfile := (h.toTracked.intern_mem_visited_iff path).not.mpr hunseen
  apply visit_of_unreadable h.unfailed hfile
  exact load_of_absent habsent (w := w.reach path) (h.loaded_get? hfile)

/-- The walk after a file was entered: registered, seen and loaded. -/
def enter (w : Walk) (path : SourcePath) (text : String) : Walk :=
  let file := (w.registry.intern path).1
  { w.reach path with
    loaded := w.loaded.insert file ⟨text, SourceFile.read file text.toList⟩ }

/-- A file not seen before is entered, its includes are followed, and it is left. -/
theorem visit_of_unseen {w : Walk} (h : Sound store w) {path : SourcePath}
    (hunseen : path.canonical ∉ w.seen) {text : String} (htext : store.text? path = some text)
    (depth : Nat) :
    let file := (w.registry.intern path).1
    let source := SourceFile.read file text.toList
    visit store directories (depth + 1) path w =
      (source.includes.foldl (follow store directories depth file path)
        (w.enter path text)).close source := by
  have hfile := (h.toTracked.intern_mem_visited_iff path).not.mpr hunseen
  apply visit_of_loaded h.unfailed hfile
  exact load_of_held htext (w := w.reach path) (h.loaded_get? hfile)

/-- A part of the walk that goes through some files and does not fail. -/
structure Runs (store : MemoryFiles) (directories : List SourcePath) (keys : List String)
    (w w' : Walk) : Prop where
  sound : Sound store w'
  registry : w.registry.entries <+: w'.registry.entries
  visited : ∀ file ∈ w.visited, file ∈ w'.visited
  traverses : Traverses (store.includedKeys directories) keys w.seen w.order w'.seen w'.order

theorem Runs.unseen_le {directories : List SourcePath} {keys : List String} {w w' : Walk}
    (h : Runs store directories keys w w') :
    w'.unseen store.texts.keys ≤ w.unseen store.texts.keys :=
  Walk.unseen_le (fun _ => h.traverses.seen_subset) _

theorem Runs.done {directories : List SourcePath} {w : Walk} (h : Sound store w) :
    Runs store directories [] w w :=
  ⟨h, List.prefix_refl _, fun _ => id, .done⟩

theorem Runs.append {directories : List SourcePath} {keys keys' : List String} {w w' w'' : Walk}
    (h : Runs store directories keys w w') (h' : Runs store directories keys' w' w'') :
    Runs store directories (keys ++ keys') w w'' where
  sound := h'.sound
  registry := h.registry.trans h'.registry
  visited file hfile := h'.visited file (h.visited file hfile)
  traverses := h.traverses.append h'.traverses

section Enter

variable {w : Walk} (h : Sound store w) {path : SourcePath} {text : String}
  (htext : store.text? path = some text)

include h

theorem seen_enter : (w.enter path text).seen = w.seen ++ [path.canonical] :=
  h.toTracked.seen_reach path

theorem order_enter : (w.enter path text).order = w.order := by
  obtain ⟨-, hregistry, -⟩ := Registry.intern_spec h.registry path
  exact List.map_congr_left fun source hsource =>
    Registry.key_mono hregistry (h.known _ (h.entered source hsource))

include htext

theorem sound_enter : Sound store (w.enter path text) where
  toTracked := ⟨(h.toTracked.reach path).registry, (h.toTracked.reach path).known⟩
  held := by
    intro key hkey
    rw [seen_enter h] at hkey
    rcases List.mem_append.mp hkey with hkey | hkey
    · exact h.held key hkey
    · rw [List.mem_singleton.mp hkey, show store.texts.get? path.canonical = _ from htext]
      rfl
  entered source hsource := List.mem_append_left _ (h.entered source hsource)
  loaded := by
    intro file hfile
    rw [enter, Table.get?_insert] at hfile
    split at hfile
    · rename_i heq
      exact List.mem_append_right _ (List.mem_singleton.mpr heq.symm)
    · exact List.mem_append_left _ (h.loaded file hfile)
  unfailed := h.unfailed

end Enter

theorem sound_leave {w : Walk} (h : Sound store w) {source : SourceFile}
    (hsource : source.file ∈ w.visited) : Sound store (w.leave source) where
  toTracked := ⟨h.registry, h.known⟩
  held := h.held
  entered := by
    intro source' hsource'
    rcases List.mem_append.mp hsource' with hsource' | hsource'
    · exact h.entered source' hsource'
    · exact List.mem_singleton.mp hsource' ▸ hsource
  loaded := h.loaded
  unfailed := h.unfailed

/-- Notes on includes do not matter to the walk. -/
theorem sound_noted {w : Walk} (h : Sound store w)
    (links : Table FileId (List (Span × SourcePath))) (warnings : List Diagnostic) :
    Sound store { w with links := links, warnings := warnings } :=
  ⟨⟨h.registry, h.known⟩, h.held, h.entered, h.loaded, h.unfailed⟩

theorem Runs.of_noted {directories : List SourcePath} {keys : List String} {w w' : Walk}
    {links : Table FileId (List (Span × SourcePath))} {warnings : List Diagnostic}
    (h : Runs store directories keys { w with links := links, warnings := warnings } w') :
    Runs store directories keys w w' :=
  ⟨h.sound, h.registry, h.visited, h.traverses⟩

/-- With depth for all files that were not seen a visit runs. -/
def Visitable (store : MemoryFiles) (directories : List SourcePath) (depth : Nat) : Prop :=
  ∀ (path : SourcePath) (w : Walk), Sound store w → w.unseen store.texts.keys < depth →
    (store.text? path).isSome →
      Runs store directories [path.canonical] w (visit store directories depth path w)

/-- Following the includes of a file goes through the files they find. -/
theorem foldl_follow {depth : Nat} (ih : Visitable store directories depth) (file : FileId)
    (path : SourcePath) (is : List Include) (w : Walk) (h : Sound store w)
    (hdepth : w.unseen store.texts.keys < depth) :
    Runs store directories
      ((is.filterMap (·.resolve? store path directories)).map SourcePath.canonical) w
      (is.foldl (follow store directories depth file path) w) := by
  induction is generalizing w with
  | nil => exact .done h
  | cons i is ihs =>
      cases hfound : i.resolve? store path directories with
      | none =>
          have hfollow : follow store directories depth file path w i = w.warn i := by
            rw [follow, if_neg (by simp [h.unfailed]), hfound]
            rfl
          simp only [List.filterMap_cons, hfound, List.foldl_cons, hfollow]
          exact (ihs (w.warn i) (sound_noted h _ _) hdepth).of_noted
      | some target =>
          have hfollow : follow store directories depth file path w i =
              visit store directories depth target
                { w with links := w.links.push file (i.path.span, target) } := by
            rw [follow, if_neg (by simp [h.unfailed]), hfound]
            rfl
          have hheld : (store.text? target).isSome :=
            List.find?_some (p := Store.isFile store) hfound
          have hlinked := sound_noted h (w.links.push file (i.path.span, target)) w.warnings
          have hrun := ih target _ hlinked hdepth hheld
          simp only [List.filterMap_cons, hfound, List.map_cons, List.foldl_cons, hfollow]
          exact (hrun.append (ihs _ hrun.sound (Nat.lt_of_le_of_lt hrun.unseen_le hdepth))).of_noted

/-- What a file not seen before finds is what follows it in the graph. -/
theorem canonical_found_eq (file : FileId) {path : SourcePath} {text : String}
    (htext : store.text? path = some text) :
    ((SourceFile.read file text.toList).includes.filterMap
        (·.resolve? store path directories)).map SourcePath.canonical =
      store.includedKeys directories path.canonical := by
  rw [store.canonical_found directories file text rfl, ← store.canonical_included,
    MemoryFiles.included, htext]
  rfl

theorem visit_runs_of_unseen {depth : Nat} (ih : Visitable store directories depth)
    {path : SourcePath} {w : Walk} (h : Sound store w)
    (hdepth : w.unseen store.texts.keys < depth + 1) (hunseen : path.canonical ∉ w.seen)
    {text : String} (htext : store.text? path = some text) :
    Runs store directories [path.canonical] w (visit store directories (depth + 1) path w) := by
  have hvisit := visit_of_unseen directories h hunseen htext depth
  obtain ⟨-, hregistry, hknows, hkey⟩ := Registry.intern_spec h.registry path
  have hentered := sound_enter h htext
  have hseen : (w.enter path text).seen = w.seen ++ [path.canonical] := seen_enter h
  have hfewer : (w.enter path text).unseen store.texts.keys < depth := by
    have hheld : path.canonical ∈ store.texts.keys := List.mem_map_of_mem (Table.mem_of_get? htext)
    have hless := h.toTracked.unseen_reach_lt path hheld hunseen
    exact Nat.lt_of_lt_of_le hless (Nat.le_of_lt_succ hdepth)
  have hmem : (w.registry.intern path).1 ∈ (w.enter path text).visited :=
    List.mem_append_right _ (List.mem_singleton_self _)
  generalize (w.registry.intern path).1 = file at hvisit hknows hkey hmem
  have hruns := foldl_follow directories ih file path
    (SourceFile.read file text.toList).includes _ hentered hfewer
  have hinner := hruns.traverses
  rw [canonical_found_eq directories file htext, hseen, order_enter h] at hinner
  rw [hvisit, close, if_neg (by simp [hruns.sound.unfailed])]
  refine ⟨sound_leave hruns.sound (hruns.visited _ hmem), hregistry.trans hruns.registry,
    fun f hf => hruns.visited f (List.mem_append_left _ hf), .enter hunseen hinner ?_⟩
  have horder : ∀ w' : Walk, w'.registry.key file = path.canonical →
      (w'.leave (SourceFile.read file text.toList)).order = w'.order ++ [path.canonical] := by
    intro w' hkey'
    rw [order, leave, List.map_append, List.map_singleton]
    exact congrArg (w'.order ++ [·]) hkey'
  rw [horder _ ((Registry.key_mono hruns.registry hknows).trans hkey)]
  exact .done

theorem visitable (depth : Nat) : Visitable store directories depth := by
  induction depth with
  | zero => exact fun _ _ _ hdepth => absurd hdepth (Nat.not_lt_zero _)
  | succ depth ih =>
      intro path w h hdepth hheld
      by_cases hseen : path.canonical ∈ w.seen
      · rw [visit_of_seen directories h hseen]
        exact ⟨h, List.prefix_refl _, fun _ => id, .skip hseen .done⟩
      · obtain ⟨text, htext⟩ := Option.isSome_iff_exists.mp hheld
        exact visit_runs_of_unseen directories ih h hdepth hseen htext

/-- Visiting files that are held, one after another, runs. -/
theorem foldl_visit {depth : Nat} (paths : List SourcePath) (w : Walk) (h : Sound store w)
    (hdepth : w.unseen store.texts.keys < depth) (hheld : ∀ p ∈ paths, (store.text? p).isSome) :
    Runs store directories (paths.map SourcePath.canonical) w
      (paths.foldl (fun w p => w.visit store directories depth p) w) := by
  induction paths generalizing w with
  | nil => exact .done h
  | cons p paths ih =>
      obtain ⟨hp, hpaths⟩ := List.forall_mem_cons.mp hheld
      have hrun := visitable directories depth p w h hdepth hp
      exact hrun.append (ih _ hrun.sound (Nat.lt_of_le_of_lt hrun.unseen_le hdepth) hpaths)

theorem foldl_visit_of_failure {depth : Nat} (paths : List SourcePath) {w : Walk}
    (h : w.failure.isSome = true) :
    paths.foldl (fun w p => w.visit store directories depth p) w = w := by
  induction paths with
  | nil => rfl
  | cons p paths ih => rw [List.foldl_cons, visit_of_failure h, ih]

/-- Visiting files of which one is not held fails. -/
theorem foldl_visit_fails {depth : Nat} (paths : List SourcePath) (w : Walk) (h : Sound store w)
    (hdepth : w.unseen store.texts.keys < depth) (habsent : ∃ p ∈ paths, store.text? p = none) :
    (paths.foldl (fun w p => w.visit store directories depth p) w).failure.isSome = true := by
  induction paths generalizing w with
  | nil => simp at habsent
  | cons p paths ih =>
      cases hp : store.text? p with
      | none =>
          obtain ⟨depth, rfl⟩ := Nat.exists_eq_add_one_of_ne_zero (Nat.ne_zero_of_lt hdepth)
          rw [List.foldl_cons, visit_of_absent directories h hp,
            foldl_visit_of_failure directories paths rfl]
          rfl
      | some text =>
          obtain ⟨q, hq, hnone⟩ := habsent
          have hlater : ∃ p ∈ paths, store.text? p = none := by
            rcases List.mem_cons.mp hq with rfl | hq
            · rw [hp] at hnone
              cases hnone
            · exact ⟨q, hq, hnone⟩
          have hrun := visitable directories depth p w h hdepth (by simp [hp])
          exact ih _ hrun.sound (Nat.lt_of_le_of_lt hrun.unseen_le hdepth) hlater

theorem sound_start (store : MemoryFiles) : Sound store (.start .empty .empty) where
  toTracked := tracked_start Registry.sound_empty .empty
  held := by simp [seen, start]
  entered := by simp [start]
  loaded := by simp [start]
  unfailed := rfl

section Numbers

variable {w : Walk} (h : Sound store w)

include h

theorem known_of_mem {source : SourceFile} (hsource : source ∈ w.files) :
    w.registry.Knows source.file :=
  h.known _ (h.entered source hsource)

/-- A path is among the files walked through exactly if its shortest spelling is. -/
theorem mem_order_iff {p : SourcePath} :
    p.canonical ∈ w.order ↔ ∃ file ∈ w.files.map (·.file), w.registry.lookup? p = some file := by
  constructor
  · intro hp
    obtain ⟨source, hsource, hkey⟩ := List.mem_map.mp hp
    exact ⟨source.file, List.mem_map_of_mem hsource,
      (Registry.lookup?_eq_some_iff h.registry).mpr ⟨known_of_mem h hsource, hkey⟩⟩
  · rintro ⟨file, hfile, hlookup⟩
    obtain ⟨source, hsource, rfl⟩ := List.mem_map.mp hfile
    exact List.mem_map.mpr ⟨source, hsource, (Registry.knows_of_lookup? hlookup).2⟩

/-- The numbers of the files stand in the order of their spellings. -/
theorem precedes_of_order {p q : SourcePath} {file : FileId} (hq : w.registry.lookup? q = some file)
    (horder : Precedes w.order p.canonical q.canonical) :
    ∃ file', w.registry.lookup? p = some file' ∧
      Precedes (w.files.map (·.file)) file' file := by
  obtain ⟨front, back, hsplit, hp⟩ := horder
  obtain ⟨before, rest, hfiles, rfl, hrest⟩ := List.map_eq_append_iff.mp hsplit
  obtain ⟨source, after, rfl, hkey, -⟩ := List.map_eq_cons_iff.mp hrest
  obtain ⟨source', hsource', hkey'⟩ := List.mem_map.mp hp
  have hknows : ∀ s ∈ before ++ source :: after, w.registry.Knows s.file :=
    fun s hs => known_of_mem h (hfiles ▸ hs)
  obtain ⟨hfile, hfilekey⟩ := Registry.knows_of_lookup? hq
  have hsame : source.file = file :=
    h.registry.key_inj (hknows source (by simp)) hfile (hkey.trans hfilekey.symm)
  refine ⟨source'.file, (Registry.lookup?_eq_some_iff h.registry).mpr
    ⟨hknows source' (by simp [hsource']), hkey'⟩, before.map (·.file), after.map (·.file), ?_,
    List.mem_map_of_mem hsource'⟩
  rw [hfiles, List.map_append, List.map_cons, hsame]

end Numbers

end Walk

namespace Workspace

section Pass

variable {σ : Type} [Store σ] (ws : Workspace σ)

theorem registry_rebuild : ws.rebuild.1.registry = ws.walk.registry := by
  rw [rebuild]
  dsimp only
  split <;> rfl

theorem loaded_rebuild : ws.rebuild.1.loaded = ws.walk.loaded := by
  rw [rebuild]
  dsimp only
  split <;> rfl

theorem store_rebuild : ws.rebuild.1.store = ws.store := by
  rw [rebuild]
  dsimp only
  split <;> rfl

theorem rebuild_eq_error_iff {failure : RunError} :
    ws.rebuild.2 = .error failure ↔ ws.walk.failure = some failure := by
  rw [rebuild]
  dsimp only
  split <;> rename_i hfailure <;> simp [hfailure]

theorem exists_linkage_of_walk (h : ws.walk.failure = none) : ∃ l, ws.rebuild.2 = .ok l := by
  cases hresult : ws.rebuild.2 with
  | ok l => exact ⟨l, rfl⟩
  | error failure =>
      rw [(rebuild_eq_error_iff ws).mp hresult] at h
      cases h

/-- A pass that succeeds links the files walked through. -/
theorem files_of_rebuild {l : Linkage} (h : ws.rebuild.2 = .ok l) :
    ws.walk.failure = none ∧ l.files = ws.walk.files := by
  rw [rebuild] at h
  dsimp only at h
  split at h
  · cases h
  · rename_i hfailure
    cases h
    exact ⟨hfailure, rfl⟩

end Pass

section Memory

variable (root : SourcePath) (store : MemoryFiles) (settings : Settings)

theorem unseen_start_lt :
    (Walk.start .empty .empty).unseen store.texts.keys < Store.extent store + 1 := by
  apply Nat.lt_succ_of_le
  exact Nat.le_trans List.countP_le_length (Nat.le_of_eq (List.length_map _))

/-- The walk of a first pass goes through the files it begins with, if all are held. -/
theorem walk_of_held (h : ∀ p ∈ (start root store settings).entryPaths, (store.text? p).isSome) :
    Walk.Runs store settings.includePaths
      ((start root store settings).entryPaths.map SourcePath.canonical) (.start .empty .empty)
      (start root store settings).walk :=
  Walk.foldl_visit _ _ _ (Walk.sound_start store) (unseen_start_lt store) h

theorem walk_of_absent (h : ∃ p ∈ (start root store settings).entryPaths, store.text? p = none) :
    (start root store settings).walk.failure.isSome = true :=
  Walk.foldl_visit_fails _ _ _ (Walk.sound_start store) (unseen_start_lt store) h

/-- The first pass over files in memory. Its walk comes to its end: it is not exhausted, and with
more depth it would be the same. It fails exactly if a file that it begins with is not held.
Otherwise the files are those that these lead to, each once, and a file comes after each that it
includes, unless that leads back to it. -/
theorem first_pass_postorder (root : SourcePath) (store : MemoryFiles) (settings : Settings) :
    let ws := start root store settings
    let registry := ws.rebuild.1.registry
    let includes := store.Includes settings.includePaths
    let leads := store.Leads settings.includePaths
    ws.walk.exhausted = false ∧
      (∀ depth, Store.extent store < depth →
        ws.entryPaths.foldl (fun w p => w.visit store settings.includePaths depth p)
          (.start .empty .empty) = ws.walk) ∧
      ((∃ failure, ws.rebuild.2 = .error failure) ↔ ∃ p ∈ ws.entryPaths, store.text? p = none) ∧
      ∀ l, ws.rebuild.2 = .ok l →
        l.fileOrder.Nodup ∧
          (∀ file ∈ l.fileOrder, ∃ p, registry.lookup? p = some file) ∧
          (∀ p, (∃ file ∈ l.fileOrder, registry.lookup? p = some file) ↔
            ∃ e ∈ ws.entryPaths, leads e p) ∧
          ∀ p q file, file ∈ l.fileOrder → registry.lookup? p = some file → includes p q →
            ∃ file' ∈ l.fileOrder, registry.lookup? q = some file' ∧
              (Precedes l.fileOrder file' file ∨ leads q p) := by
  intro ws registry includes leads
  have hfails : (∃ failure, ws.rebuild.2 = .error failure) ↔
      ∃ p ∈ ws.entryPaths, store.text? p = none := by
    constructor
    · rintro ⟨failure, hfailure⟩
      by_contra hnone
      have hheld : ∀ p ∈ ws.entryPaths, (store.text? p).isSome := by
        simpa [Option.isSome_iff_ne_none] using hnone
      have hunfailed := (walk_of_held root store settings hheld).sound.unfailed
      rw [(rebuild_eq_error_iff ws).mp hfailure] at hunfailed
      cases hunfailed
    · intro h
      obtain ⟨failure, hfailure⟩ :=
        Option.isSome_iff_exists.mp (walk_of_absent root store settings h)
      exact ⟨failure, (rebuild_eq_error_iff ws).mpr hfailure⟩
  have hempty : ws.registry.Sound := Registry.sound_empty
  refine ⟨exhausted_walk hempty, fun depth => walk_of_deeper hempty, hfails, fun l hl => ?_⟩
  have hheld : ∀ p ∈ ws.entryPaths, (store.text? p).isSome := by
    have hnone := hfails.not.mp (by simp [hl])
    simpa [Option.isSome_iff_ne_none] using hnone
  obtain ⟨hsound, -, -, htraverses⟩ := walk_of_held root store settings hheld
  have horder : l.fileOrder = ws.walk.files.map (·.file) := by
    rw [Linkage.fileOrder, (files_of_rebuild ws hl).2]
  have hregistry : registry = ws.walk.registry := registry_rebuild ws
  have hwhole : Traverses (store.includedKeys settings.includePaths)
      (ws.entryPaths.map SourcePath.canonical) [] [] ws.walk.seen ws.walk.order := htraverses
  have hmem : ∀ p, p.canonical ∈ ws.walk.order ↔ ∃ e ∈ ws.entryPaths, leads e p := by
    intro p
    rw [hwhole.mem_order_iff]
    constructor
    · rintro ⟨key, hkey, hreach⟩
      obtain ⟨e, he, rfl⟩ := List.mem_map.mp hkey
      exact ⟨e, he, (store.leads_iff _).mpr hreach⟩
    · rintro ⟨e, he, hleads⟩
      exact ⟨e.canonical, List.mem_map_of_mem he, (store.leads_iff _).mp hleads⟩
  rw [horder, hregistry]
  refine ⟨?_, fun file hfile => ?_, fun p => ?_, fun p q file hfile hp hincludes => ?_⟩
  · have hnodup := hwhole.nodup
    rw [Walk.order, ← Function.comp_def ws.walk.registry.key, ← List.map_map] at hnodup
    exact hnodup.of_map
  · obtain ⟨source, hsource, rfl⟩ := List.mem_map.mp hfile
    obtain ⟨p, hp⟩ := Registry.exists_lookup? hsound.registry (Walk.known_of_mem hsound hsource)
    exact ⟨p, hp⟩
  · rw [← Walk.mem_order_iff hsound, hmem]
  · have hpmem := (Walk.mem_order_iff hsound).mpr ⟨file, hfile, hp⟩
    have hnext : q.canonical ∈ store.includedKeys settings.includePaths p.canonical := by
      rw [← store.canonical_included]
      exact List.mem_map_of_mem hincludes
    have hqmem := hwhole.mem_order_iff_seen.mpr (hwhole.next_seen (by simp) _ hpmem _ hnext)
    obtain ⟨file', hfile', hq⟩ := (Walk.mem_order_iff hsound).mp hqmem
    refine ⟨file', hfile', hq, ?_⟩
    rcases hwhole.ordered_of_start _ hpmem _ hnext with hbefore | hback
    · obtain ⟨file'', hq', hbefore⟩ := Walk.precedes_of_order hsound hp hbefore
      obtain rfl := Option.some.inj (hq.symm.trans hq')
      exact .inl hbefore
    · exact .inr ((store.leads_iff _).mpr hback)

end Memory

/-- Two files that include each other. -/
def mutualFiles : MemoryFiles :=
  (MemoryFiles.empty.insert ⟨"a"⟩ "/include/ \"b\"").insert ⟨"b"⟩ "/include/ \"a\""

/-- From the first of them both are walked through, each once, and the first comes last. -/
theorem mutualFiles_postorder :
    let ws := start ⟨"a"⟩ mutualFiles .standard
    mutualFiles.Includes [] ⟨"a"⟩ ⟨"b"⟩ ∧ mutualFiles.Includes [] ⟨"b"⟩ ⟨"a"⟩ ∧
      ws.walk.exhausted = false ∧
      ∃ l, ws.rebuild.2 = .ok l ∧ l.fileOrder = [⟨1⟩, ⟨0⟩] ∧ l.fileOrder.Nodup ∧
        ∃ file ∈ l.fileOrder, ws.rebuild.1.registry.lookup? ⟨"a"⟩ = some file ∧
          ∃ file' ∈ l.fileOrder, ws.rebuild.1.registry.lookup? ⟨"b"⟩ = some file' ∧
            (Precedes l.fileOrder file' file ∨ mutualFiles.Leads [] ⟨"b"⟩ ⟨"a"⟩) := by
  intro ws
  obtain ⟨hexhausted, -, hfails, hpass⟩ := first_pass_postorder ⟨"a"⟩ mutualFiles .standard
  have hheld : ¬∃ p ∈ ws.entryPaths, mutualFiles.text? p = none := by decide +kernel
  have hfound : mutualFiles.included [] ⟨"a"⟩ = [⟨"b"⟩] := by decide +kernel
  have hback : mutualFiles.included [] ⟨"b"⟩ = [⟨"a"⟩] := by decide +kernel
  have hincludes : mutualFiles.Includes [] ⟨"a"⟩ ⟨"b"⟩ := by
    rw [MemoryFiles.Includes, hfound]
    exact List.mem_singleton_self _
  have hincluded : mutualFiles.Includes [] ⟨"b"⟩ ⟨"a"⟩ := by
    rw [MemoryFiles.Includes, hback]
    exact List.mem_singleton_self _
  have hfiles : ws.rebuild.2.toOption.map (·.fileOrder) = some [⟨1⟩, ⟨0⟩] := by decide +kernel
  refine ⟨hincludes, hincluded, hexhausted, ?_⟩
  cases hresult : ws.rebuild.2 with
  | error failure => exact absurd (hfails.mp ⟨failure, hresult⟩) hheld
  | ok l =>
      rw [hresult] at hfiles
      obtain ⟨hnodup, -, hmem, horder⟩ := hpass l hresult
      obtain ⟨file, hfile, hlookup⟩ := (hmem ⟨"a"⟩).mpr
        ⟨⟨"a"⟩, List.mem_append_right _ (List.mem_singleton_self _), ⟨"a"⟩, .refl, rfl⟩
      exact ⟨l, rfl, Option.some.inj hfiles, hnodup, file, hfile, hlookup,
        horder ⟨"a"⟩ ⟨"b"⟩ file hfile hlookup hincludes⟩

end Workspace

end Devicetree
