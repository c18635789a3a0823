import Devicetree.Proofs.Workspace.Moves

/-!
# Steps of a workspace

A workspace over files in memory is asked for a linkage, the last one or a new one, and between
such requests its files are changed in any way. Whatever was done to it, a request that fails can
not be told from none at all by anyone who reads the last linkage; a pass that succeeds is numbered
one higher than the last that did.
-/

namespace Devicetree

/-- What a workspace is asked for: the last linkage, or a new one after a change. -/
inductive Request
  | linkage
  | revaluate (changed : Option SourcePath)

/-- What can be done to a workspace over files in memory. -/
inductive Step
  | ask (request : Request)
  | insert (path : SourcePath) (text : String)
  | remove (path : SourcePath)

namespace Workspace

section Requests

variable {σ : Type} [Store σ]

def answer (ws : Workspace σ) : Request → Workspace σ × Except RunError Linkage
  | .linkage => ws.linkage
  | .revaluate changed => ws.revaluate changed

/-- The workspace that a request runs a pass on, if it runs one. -/
def passOn? (ws : Workspace σ) : Request → Option (Workspace σ)
  | .linkage => if ws.current.isSome then none else some ws
  | .revaluate changed => some (ws.forget changed)

theorem answer_of_pass {ws ready : Workspace σ} {request : Request}
    (h : ws.passOn? request = some ready) : ws.answer request = ready.rebuild := by
  cases request with
  | linkage =>
      rw [passOn?] at h
      split at h
      · cases h
      · rename_i hcurrent
        cases h
        rw [answer, linkage, Option.not_isSome_iff_eq_none.mp hcurrent]
  | revaluate changed =>
      cases h
      rfl

theorem answer_of_no_pass {ws : Workspace σ} {request : Request}
    (h : ws.passOn? request = none) :
    ∃ l, ws.current = some l ∧ ws.answer request = (ws, .ok l) := by
  cases request with
  | linkage =>
      rw [passOn?] at h
      split at h
      · rename_i hcurrent
        obtain ⟨l, hl⟩ := Option.isSome_iff_exists.mp hcurrent
        refine ⟨l, hl, ?_⟩
        rw [answer, linkage, hl]
      · cases h
  | revaluate changed => cases h

end Requests

def perform (ws : Workspace MemoryFiles) : Step → Workspace MemoryFiles
  | .ask request => (ws.answer request).1
  | .insert path text => { ws with store := ws.store.insert path text }
  | .remove path => { ws with store := ws.store.remove path }

/-- Performs steps one after another. -/
def run (ws : Workspace MemoryFiles) (steps : List Step) : Workspace MemoryFiles :=
  steps.foldl perform ws

@[simp] theorem run_nil (ws : Workspace MemoryFiles) : ws.run [] = ws := rfl

@[simp] theorem run_cons (ws : Workspace MemoryFiles) (step : Step) (steps : List Step) :
    ws.run (step :: steps) = (ws.perform step).run steps := rfl

theorem run_append (ws : Workspace MemoryFiles) (steps more : List Step) :
    ws.run (steps ++ more) = (ws.run steps).run more :=
  List.foldl_append

end Workspace

/-! ### What a walk keeps -/

/-- What holds throughout a walk: files seen are registered, what is loaded is read from its text,
files left are loaded, and includes were found in files seen. -/
structure Walk.Orderly (w : Walk) : Prop where
  known : ∀ file ∈ w.visited, w.registry.Knows file
  parsed : ∀ file loaded, w.loaded.get? file = some loaded →
    w.registry.Knows file ∧ loaded.source = .read file loaded.text.toList
  left : ∀ source ∈ w.files, source.file ∈ w.visited ∧
    ∃ text, w.loaded.get? source.file = some ⟨text, source⟩
  linked : ∀ file, (w.links.get? file).isSome → file ∈ w.visited

theorem Walk.Orderly.move {store : MemoryFiles} {w w' : Walk} (h : w.Orderly)
    (hmove : Move store w w') : w'.Orderly := by
  have hcontinues := hmove.continues
  have hleft : ∀ source ∈ w.files, source.file ∈ w'.visited ∧
      ∃ text, w'.loaded.get? source.file = some ⟨text, source⟩ := by
    intro source hsource
    obtain ⟨hfile, text, htext⟩ := h.left source hsource
    exact ⟨hcontinues.visited _ hfile, text, hcontinues.loaded _ _ htext⟩
  have hknown : ∀ file ∈ w.visited, w'.registry.Knows file :=
    fun file hfile => Registry.knows_mono hcontinues.registry (h.known file hfile)
  have hlinked : ∀ file, (w.links.get? file).isSome → file ∈ w'.visited :=
    fun file hfile => hcontinues.visited _ (h.linked file hfile)
  cases hmove with
  | register path =>
      refine ⟨hknown, fun file loaded hloaded => ?_, hleft, hlinked⟩
      obtain ⟨hknows, hsource⟩ := h.parsed file loaded hloaded
      exact ⟨Registry.knows_mono hcontinues.registry hknows, hsource⟩
  | enter hknows hloaded =>
      refine ⟨fun file hfile => ?_, h.parsed, hleft, hlinked⟩
      rcases List.mem_append.mp hfile with hfile | hfile
      · exact hknown file hfile
      · exact List.mem_singleton.mp hfile ▸ hknows
  | @read file text hknows hunloaded htext =>
      refine ⟨fun other hother => ?_, fun other loaded hloaded => ?_, hleft, hlinked⟩
      · rcases List.mem_append.mp hother with hother | hother
        · exact hknown other hother
        · exact List.mem_singleton.mp hother ▸ hknows
      · rw [Table.get?_insert] at hloaded
        split at hloaded
        · rename_i heq
          cases hloaded
          subst heq
          exact ⟨hknows, rfl⟩
        · exact h.parsed other loaded hloaded
  | fail failure => exact ⟨h.known, h.parsed, h.left, h.linked⟩
  | exhaust => exact ⟨h.known, h.parsed, h.left, h.linked⟩
  | @link file hfile found =>
      refine ⟨h.known, h.parsed, h.left, fun other hother => ?_⟩
      rw [Table.push, Table.get?_insert] at hother
      split at hother
      · rename_i heq
        exact heq ▸ hfile
      · exact h.linked other hother
  | warn i => exact ⟨h.known, h.parsed, h.left, h.linked⟩
  | @leave file loaded hfile hloaded =>
      refine ⟨h.known, h.parsed, fun source hsource => ?_, h.linked⟩
      rcases List.mem_append.mp hsource with hsource | hsource
      · exact h.left source hsource
      · obtain rfl := List.mem_singleton.mp hsource
        have hsame : loaded.source.file = file := by
          rw [(h.parsed file loaded hloaded).2]
          rfl
        rw [hsame]
        exact ⟨hfile, loaded.text, hloaded⟩

namespace Workspace

/-! ### What a workspace keeps -/

/-- What holds of a workspace whatever was done to it: what it holds of files is under numbers that
it knows, each file loaded is read from its text, and passes are numbered. -/
structure Sound {σ : Type} (ws : Workspace σ) : Prop where
  registry : ws.registry.Sound
  parsed : ∀ file loaded, ws.loaded.get? file = some loaded →
    ws.registry.Knows file ∧ loaded.source = .read file loaded.text.toList
  ordered : ∀ l, ws.current = some l → ∀ file ∈ l.fileOrder, ws.registry.Knows file
  linked : ∀ file, (ws.includeLinks.get? file).isSome → ws.registry.Knows file
  numbered : ws.generation = ws.current.elim 0 (·.generation)

variable {ws : Workspace MemoryFiles}

theorem sound_start {σ : Type} (root : SourcePath) (store : σ) (settings : Settings) :
    (start root store settings).Sound where
  registry := Registry.sound_empty
  parsed := by simp [start]
  ordered := by simp [start]
  linked := by simp [start]
  numbered := rfl

theorem Sound.orderly_walk (h : ws.Sound) : ws.walk.Orderly := by
  apply Walk.Moves.keep Walk.Orderly.move (moves_walk h.registry)
  exact ⟨by simp [Walk.start], h.parsed, by simp [Walk.start], by simp [Walk.start]⟩

/-- Files forgotten are the only change before a pass. -/
theorem forget_eq (ws : Workspace MemoryFiles) (changed : Option SourcePath) :
    ∃ loaded : Table FileId Loaded, ws.forget changed = { ws with loaded := loaded } ∧
      ∀ file l, loaded.get? file = some l → ws.loaded.get? file = some l := by
  cases changed with
  | none => exact ⟨.empty, rfl, fun file l hl => by cases hl⟩
  | some path =>
      rw [forget]
      split
      · rename_i file hfile
        refine ⟨ws.loaded.erase file, rfl, fun other l hl => ?_⟩
        rw [Table.get?_erase] at hl
        split at hl
        · cases hl
        · exact hl
      · exact ⟨ws.loaded, rfl, fun _ _ => id⟩

/-- A pass finds the workspace as it was, with some files forgotten. -/
theorem exists_of_pass {request : Request} {ready : Workspace MemoryFiles}
    (h : ws.passOn? request = some ready) :
    ∃ loaded : Table FileId Loaded, ready = { ws with loaded := loaded } ∧
      ∀ file l, loaded.get? file = some l → ws.loaded.get? file = some l := by
  cases request with
  | linkage =>
      rw [passOn?] at h
      split at h
      · cases h
      · cases h
        exact ⟨ws.loaded, rfl, fun _ _ => id⟩
  | revaluate changed =>
      cases h
      exact forget_eq ws changed

theorem Sound.passOn? (h : ws.Sound) {request : Request} {ready : Workspace MemoryFiles}
    (hready : ws.passOn? request = some ready) : ready.Sound := by
  obtain ⟨loaded, rfl, hloaded⟩ := exists_of_pass hready
  exact ⟨h.registry, fun file l hl => h.parsed file l (hloaded file l hl), h.ordered, h.linked,
    h.numbered⟩

/-- A pass that fails keeps what was registered and loaded, and nothing else. -/
theorem rebuild_of_failure {failure : RunError} (h : ws.rebuild.2 = .error failure) :
    ws.rebuild.1 = { ws with registry := ws.walk.registry, loaded := ws.walk.loaded } := by
  rw [rebuild_eq_error_iff] at h
  rw [rebuild]
  dsimp only
  rw [h]

/-- A pass that succeeds puts its outcome in the place of the last. -/
theorem rebuild_of_success {l : Linkage} (h : ws.rebuild.2 = .ok l) :
    l = .link ws.walk.files ws.settings.reportUnresolved (ws.generation + 1) ∧
      ws.rebuild.1 =
        { ws with
          registry := ws.walk.registry
          loaded := ws.walk.loaded
          includeLinks := ws.walk.links
          includeWarnings := ws.walk.warnings
          current := some l
          generation := ws.generation + 1 } := by
  have hfailure := (files_of_rebuild ws h).1
  rw [rebuild] at h ⊢
  dsimp only at h ⊢
  rw [hfailure] at h ⊢
  cases h
  exact ⟨rfl, rfl⟩

theorem Sound.rebuild (h : ws.Sound) : ws.rebuild.1.Sound := by
  have hwalk := h.orderly_walk
  have hcontinues := (moves_walk h.registry).continues
  have hregistry := hcontinues.sound h.registry
  have hknows : ∀ file, ws.registry.Knows file → ws.walk.registry.Knows file :=
    fun file => Registry.knows_mono hcontinues.registry
  cases hresult : ws.rebuild.2 with
  | error failure =>
      rw [rebuild_of_failure hresult]
      refine ⟨hregistry, hwalk.parsed, fun l hl file hfile => ?_, fun file hfile => ?_, h.numbered⟩
      · exact hknows file (h.ordered l hl file hfile)
      · exact hknows file (h.linked file hfile)
  | ok l =>
      obtain ⟨hl, heq⟩ := rebuild_of_success hresult
      rw [heq]
      refine ⟨hregistry, hwalk.parsed, fun l' hl' file hfile => ?_, fun file hfile => ?_, ?_⟩
      · cases hl'
        rw [hl] at hfile
        obtain ⟨source, hsource, rfl⟩ := List.mem_map.mp hfile
        exact hwalk.known _ (hwalk.left source hsource).1
      · exact hwalk.known file (hwalk.linked file hfile)
      · rw [hl]
        rfl

theorem Sound.perform (h : ws.Sound) (step : Step) : (ws.perform step).Sound := by
  cases step with
  | ask request =>
      rw [Workspace.perform]
      cases hpass : ws.passOn? request with
      | none =>
          obtain ⟨l, -, heq⟩ := answer_of_no_pass hpass
          rw [heq]
          exact h
      | some ready =>
          rw [answer_of_pass hpass]
          exact (h.passOn? hpass).rebuild
  | insert path text => exact ⟨h.registry, h.parsed, h.ordered, h.linked, h.numbered⟩
  | remove path => exact ⟨h.registry, h.parsed, h.ordered, h.linked, h.numbered⟩

theorem Sound.run (h : ws.Sound) (steps : List Step) : (ws.run steps).Sound := by
  induction steps generalizing ws with
  | nil => exact h
  | cons step steps ih => exact ih (h.perform step)

/-! ### Requests seen from outside -/

theorem contains_eq {σ : Type} (ws : Workspace σ) (path : SourcePath) :
    ws.contains path =
      ((ws.registry.lookup? path).bind fun file =>
        ws.current.bind fun l => l.fileRank? file).isSome := by
  rw [contains]
  cases ws.registry.lookup? path with
  | none => rfl
  | some file => cases ws.current <;> rfl

theorem mem_of_fileRank? {l : Linkage} {file : FileId} (h : (l.fileRank? file).isSome) :
    file ∈ l.fileOrder := by
  rw [Linkage.fileRank?, Linkage.rankIn?, List.findIdx?_isSome, List.any_eq_true] at h
  obtain ⟨other, hother, heq⟩ := h
  exact of_decide_eq_true heq ▸ hother

/-- Two workspaces that a reader of the last linkage can not tell apart. -/
structure ReadsAs {σ : Type} (ws ws' : Workspace σ) : Prop where
  current : ws'.current = ws.current
  generation : ws'.generation = ws.generation
  diagnostics : ws'.diagnostics = ws.diagnostics
  orderedFiles : ws'.orderedFiles = ws.orderedFiles
  contains : ∀ path, ws'.contains path = ws.contains path
  includesOf : ∀ path, ws'.includesOf path = ws.includesOf path

/-- More paths registered and other files loaded do not show. -/
theorem Sound.readsAs {σ : Type} {ws : Workspace σ} (h : ws.Sound) {registry : Registry}
    (hsound : registry.Sound) (hregistry : ws.registry.entries <+: registry.entries)
    (loaded : Table FileId Loaded) :
    ws.ReadsAs { ws with registry := registry, loaded := loaded } where
  current := rfl
  generation := rfl
  diagnostics := rfl
  orderedFiles := by
    rw [Workspace.orderedFiles, Workspace.orderedFiles]
    cases hcurrent : ws.current with
    | none => rfl
    | some l =>
        apply List.filterMap_congr
        intro file hfile
        exact Registry.path?_mono hregistry (h.ordered l hcurrent file hfile)
  contains := by
    intro path
    rw [contains_eq, contains_eq]
    congr 1
    apply Registry.lookup?_bind_mono h.registry hsound hregistry
    intro file hfile
    cases hcurrent : ws.current with
    | none =>
        rw [hcurrent] at hfile
        cases hfile
    | some l =>
        rw [hcurrent] at hfile
        exact h.ordered l hcurrent file (mem_of_fileRank? hfile)
  includesOf := by
    intro path
    rw [Workspace.includesOf, Workspace.includesOf]
    congr 1
    exact Registry.lookup?_bind_mono h.registry hsound hregistry h.linked path

theorem Sound.readsAs_of_failure (h : ws.Sound) {failure : RunError}
    (hfailure : ws.rebuild.2 = .error failure) : ws.ReadsAs ws.rebuild.1 := by
  have hcontinues := (moves_walk h.registry).continues
  rw [rebuild_of_failure hfailure]
  exact h.readsAs (hcontinues.sound h.registry) hcontinues.registry _

/-- Whatever was done to a workspace over files in memory, a request that fails shows in nothing
that is read off the last linkage. A pass that succeeds is the last from then on, and is numbered
one higher than the last before it, or one if it is the first. -/
theorem failed_request_invisible (root : SourcePath) (store : MemoryFiles) (settings : Settings)
    (steps : List Step) (request : Request) :
    let ws := (start root store settings).run steps
    let after := (ws.answer request).1
    (∀ failure, (ws.answer request).2 = .error failure →
        after.current = ws.current ∧ after.generation = ws.generation ∧
          after.diagnostics = ws.diagnostics ∧ after.orderedFiles = ws.orderedFiles ∧
          ∀ path, after.contains path = ws.contains path ∧
            after.includesOf path = ws.includesOf path) ∧
      ∀ l, (ws.passOn? request).isSome → (ws.answer request).2 = .ok l →
        after.current = some l ∧ after.generation = l.generation ∧
          l.generation = ws.current.elim 0 (·.generation) + 1 := by
  intro ws after
  have hsound : ws.Sound := (sound_start root store settings).run steps
  cases hpass : ws.passOn? request with
  | none =>
      obtain ⟨l, -, heq⟩ := answer_of_no_pass hpass
      refine ⟨fun failure hfailure => ?_, fun l' hsome => by cases hsome⟩
      rw [heq] at hfailure
      cases hfailure
  | some ready =>
      have hready := hsound.passOn? hpass
      obtain ⟨loaded, rfl, -⟩ := exists_of_pass hpass
      have hafter : ws.answer request = Workspace.rebuild { ws with loaded := loaded } :=
        answer_of_pass hpass
      constructor
      · intro failure hfailure
        rw [hafter] at hfailure
        have hreads := hready.readsAs_of_failure hfailure
        rw [← hafter] at hreads
        exact ⟨hreads.current, hreads.generation, hreads.diagnostics, hreads.orderedFiles,
          fun path => ⟨hreads.contains path, hreads.includesOf path⟩⟩
      · intro l _ hl
        rw [hafter] at hl
        obtain ⟨hlink, heq⟩ := rebuild_of_success hl
        have hgeneration : l.generation = ws.generation + 1 := by
          rw [hlink]
          rfl
        rw [← hsound.numbered, ← hgeneration]
        refine ⟨?_, ?_, rfl⟩
        · change (ws.answer request).1.current = some l
          rw [hafter, heq]
        · change (ws.answer request).1.generation = l.generation
          rw [hafter, heq, hgeneration]

/-- A file common to all, and a root file. -/
def commonFiles : MemoryFiles :=
  (MemoryFiles.empty.insert ⟨"c"⟩ "").insert ⟨"r"⟩ ""

/-- After a first pass the root file is taken away and the common file includes a new one. The next
pass comes to the new file before it fails for want of the root. Had the root stayed, it would have
been the second to succeed. -/
theorem commonFiles_failure_invisible :
    let settings := { Settings.standard with common := [⟨"c"⟩] }
    let first := (start ⟨"r"⟩ commonFiles settings).run [.ask .linkage]
    let ws := (start ⟨"r"⟩ commonFiles settings).run
      [.ask .linkage, .remove ⟨"r"⟩, .insert ⟨"d"⟩ "", .insert ⟨"c"⟩ "/include/ \"d\""]
    let after := (ws.answer (.revaluate none)).1
    (∃ failure, (ws.answer (.revaluate none)).2 = .error failure) ∧
      (after.registry.lookup? ⟨"d"⟩).isSome ∧ after.contains ⟨"d"⟩ = ws.contains ⟨"d"⟩ ∧
      after.current = ws.current ∧
      ∃ l, (first.answer (.revaluate none)).2 = .ok l ∧ l.generation = 2 := by
  intro settings first ws after
  have hfailure : (ws.forget none).walk.failure = some (.source ⟨"r"⟩ (.notHeld ⟨"r"⟩)) := by
    decide +kernel
  have herror : (ws.answer (.revaluate none)).2 = .error (.source ⟨"r"⟩ (.notHeld ⟨"r"⟩)) :=
    (rebuild_eq_error_iff _).mpr hfailure
  have hunseen :=
    (failed_request_invisible ⟨"r"⟩ commonFiles settings _ (.revaluate none)).1 _ herror
  refine ⟨⟨_, herror⟩, ?_, (hunseen.2.2.2.2 ⟨"d"⟩).1, hunseen.1, ?_⟩
  · decide +kernel
  · have hwalk : (first.forget none).walk.failure = none := by decide +kernel
    obtain ⟨l, hl⟩ := exists_linkage_of_walk (first.forget none) hwalk
    refine ⟨l, hl, ?_⟩
    have hnumber := ((failed_request_invisible ⟨"r"⟩ commonFiles settings [.ask .linkage]
      (.revaluate none)).2 l rfl hl).2.2
    rw [hnumber]
    decide +kernel

end Workspace

end Devicetree
