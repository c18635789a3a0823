import Devicetree.Proofs.Workspace.Steps

/-!
# Changes told one by one

If every change of a file is followed at once by a pass that is told of it, what is loaded stays
what the store holds, also over passes that fail and files that come and go. A walk then does the
same whatever is loaded, so that a pass told of the one change comes to what a pass comes to that
reads all files anew.
-/

namespace Devicetree

/-- What is loaded is what the store holds. -/
structure Coherent (store : MemoryFiles) (registry : Registry) (loaded : Table FileId Loaded) :
    Prop where
  sound : registry.Sound
  held : ∀ file l, loaded.get? file = some l → registry.Knows file ∧
    store.texts.get? (registry.key file) = some l.text ∧ l.source = .read file l.text.toList

namespace Coherent

variable {store store' : MemoryFiles} {registry registry' : Registry}
  {loaded loaded' : Table FileId Loaded}

theorem empty (store : MemoryFiles) (h : registry.Sound) : Coherent store registry .empty :=
  ⟨h, fun _ _ hl => by cases hl⟩

/-- Files may be forgotten. -/
theorem fewer (h : Coherent store registry loaded)
    (hfewer : ∀ file l, loaded'.get? file = some l → loaded.get? file = some l) :
    Coherent store registry loaded' :=
  ⟨h.sound, fun file l hl => h.held file l (hfewer file l hl)⟩

theorem extend (h : Coherent store registry loaded) (hsound : registry'.Sound)
    (hregistry : registry.entries <+: registry'.entries) : Coherent store registry' loaded := by
  refine ⟨hsound, fun file l hl => ?_⟩
  obtain ⟨hknows, htext, hsource⟩ := h.held file l hl
  rw [Registry.key_mono hregistry hknows]
  exact ⟨Registry.knows_mono hregistry hknows, htext, hsource⟩

theorem intern (h : Coherent store registry loaded) (path : SourcePath) :
    Coherent store (registry.intern path).2 loaded := by
  obtain ⟨hsound, hregistry, -⟩ := Registry.intern_spec h.sound path
  exact h.extend hsound hregistry

/-- A file just read may be kept. -/
theorem insert (h : Coherent store registry loaded) {file : FileId} (hknows : registry.Knows file)
    {text : String} (htext : store.texts.get? (registry.key file) = some text) :
    Coherent store registry (loaded.insert file ⟨text, .read file text.toList⟩) := by
  refine ⟨h.sound, fun other l hl => ?_⟩
  rw [Table.get?_insert] at hl
  split at hl
  · rename_i heq
    cases hl
    subst heq
    exact ⟨hknows, htext, rfl⟩
  · exact h.held other l hl

/-- A file may change once it is forgotten. -/
theorem change (h : Coherent store registry loaded) {key : String}
    (hstore : ∀ other, other ≠ key → store'.texts.get? other = store.texts.get? other)
    (hforgotten : ∀ file, registry.Knows file → registry.key file = key → loaded.get? file = none) :
    Coherent store' registry loaded := by
  refine ⟨h.sound, fun file l hl => ?_⟩
  obtain ⟨hknows, htext, hsource⟩ := h.held file l hl
  have hne : registry.key file ≠ key := by
    intro hkey
    rw [hforgotten file hknows hkey] at hl
    cases hl
  exact ⟨hknows, (hstore _ hne).trans htext, hsource⟩

end Coherent

/-! ### Walks in step -/

namespace Walk

variable {store : MemoryFiles} {directories : List SourcePath}

/-- Two walks that differ in nothing but the files loaded, which are what the store holds. -/
def Alike (store : MemoryFiles) (w w' : Walk) : Prop :=
  ∃ loaded, w' = { w with loaded := loaded } ∧ Coherent store w.registry w.loaded ∧
    Coherent store w.registry loaded

/-- Loading a file depends on what is held alone. -/
theorem load_of_coherent {w : Walk} (h : Coherent store w.registry w.loaded) (path : SourcePath) :
    (store.text? path = none →
        (w.reach path).load store (w.registry.intern path).1 path =
          .error (.source path (.notHeld path))) ∧
      ∀ text, store.text? path = some text →
        ∃ loaded, (w.reach path).load store (w.registry.intern path).1 path =
            .ok ({ w.reach path with loaded := loaded },
              .read (w.registry.intern path).1 text.toList) ∧
          Coherent store (w.registry.intern path).2 loaded := by
  obtain ⟨-, -, hknows, hkey⟩ := Registry.intern_spec h.sound path
  have hcoherent := h.intern path
  have hheld : store.texts.get? ((w.registry.intern path).2.key (w.registry.intern path).1) =
      store.text? path := by
    rw [hkey, MemoryFiles.text?]
  cases hloaded : w.loaded.get? (w.registry.intern path).1 with
  | none =>
      refine ⟨fun htext => load_of_absent (w := w.reach path) htext hloaded, fun text htext => ?_⟩
      exact ⟨_, load_of_held (w := w.reach path) htext hloaded,
        hcoherent.insert hknows (hheld.trans htext)⟩
  | some l =>
      obtain ⟨-, htext, hsource⟩ := hcoherent.held _ l hloaded
      rw [hheld] at htext
      refine ⟨fun habsent => ?_, fun text htext' => ⟨w.loaded, ?_, hcoherent⟩⟩
      · rw [habsent] at htext
        cases htext
      · obtain rfl := Option.some.inj (htext.symm.trans htext')
        rw [load, show (w.reach path).loaded.get? _ = _ from hloaded, ← hsource]
        rfl

/-- Walks that are alike leave a file alike. -/
theorem Alike.close {w w' : Walk} (h : Alike store w w') (source : SourceFile) :
    Alike store (w.close source) (w'.close source) := by
  obtain ⟨loaded, rfl, hleft, hright⟩ := h
  rw [Walk.close, Walk.close]
  dsimp only
  split
  · exact ⟨loaded, rfl, hleft, hright⟩
  · exact ⟨loaded, rfl, hleft, hright⟩

theorem alike_follow {depth : Nat} (file : FileId) (path : SourcePath)
    (ih : ∀ (path : SourcePath) (w w' : Walk), Alike store w w' →
      Alike store (visit store directories depth path w) (visit store directories depth path w'))
    (is : List Include) (w w' : Walk) (h : Alike store w w') :
    Alike store (is.foldl (follow store directories depth file path) w)
      (is.foldl (follow store directories depth file path) w') := by
  induction is generalizing w w' with
  | nil => exact h
  | cons i is ihs =>
      apply ihs
      obtain ⟨loaded, rfl, hleft, hright⟩ := h
      rw [follow, follow]
      split
      · exact ⟨loaded, rfl, hleft, hright⟩
      · cases i.resolve? store path directories with
        | none => exact ⟨loaded, rfl, hleft, hright⟩
        | some target => exact ih target _ _ ⟨loaded, rfl, hleft, hright⟩

/-- Walks that were alike stay alike. -/
theorem alike_visit (depth : Nat) (path : SourcePath) (w w' : Walk) (h : Alike store w w') :
    Alike store (visit store directories depth path w)
      (visit store directories depth path w') := by
  induction depth using Nat.strongRecOn generalizing path w w' with
  | ind depth ih =>
      obtain ⟨loaded, rfl, hleft, hright⟩ := h
      by_cases hfailed : w.failure.isSome
      · rw [visit_of_failure hfailed, visit_of_failure (w := { w with loaded := loaded }) hfailed]
        exact ⟨loaded, rfl, hleft, hright⟩
      have hfailure := Option.not_isSome_iff_eq_none.mp hfailed
      by_cases hfile : (w.registry.intern path).1 ∈ w.visited
      · rw [visit_of_visited hfailure hfile,
          visit_of_visited (w := { w with loaded := loaded }) hfailure hfile]
        exact ⟨loaded, rfl, hleft.intern path, hright.intern path⟩
      cases depth with
      | zero =>
          rw [visit_of_exhausted hfailure hfile,
            visit_of_exhausted (w := { w with loaded := loaded }) hfailure hfile]
          exact ⟨loaded, rfl, hleft.intern path, hright.intern path⟩
      | succ depth =>
          obtain ⟨habsent, hheld⟩ := load_of_coherent hleft path
          obtain ⟨habsent', hheld'⟩ :=
            load_of_coherent (w := { w with loaded := loaded }) hright path
          cases htext : store.text? path with
          | none =>
              rw [visit_of_unreadable hfailure hfile (habsent htext),
                visit_of_unreadable (w := { w with loaded := loaded }) hfailure hfile
                  (habsent' htext)]
              exact ⟨loaded, rfl, hleft.intern path, hright.intern path⟩
          | some text =>
              obtain ⟨entered, hload, hcoherent⟩ := hheld text htext
              obtain ⟨entered', hload', hcoherent'⟩ := hheld' text htext
              rw [visit_of_loaded hfailure hfile hload,
                visit_of_loaded (w := { w with loaded := loaded }) hfailure hfile hload']
              apply Alike.close
              exact alike_follow _ path (ih depth (Nat.lt_succ_self depth)) _ _ _
                ⟨entered', rfl, hcoherent, hcoherent'⟩

theorem alike_visits {depth : Nat} (paths : List SourcePath) (w w' : Walk)
    (h : Alike store w w') :
    Alike store (paths.foldl (fun w p => w.visit store directories depth p) w)
      (paths.foldl (fun w p => w.visit store directories depth p) w') := by
  induction paths generalizing w w' with
  | nil => exact h
  | cons p paths ih => exact ih _ _ (alike_visit depth p w w' h)

end Walk

namespace Workspace

/-- What a workspace has loaded is what its store holds. -/
def UpToDate (ws : Workspace MemoryFiles) : Prop :=
  Coherent ws.store ws.registry ws.loaded

variable {ws : Workspace MemoryFiles}

theorem alike_walk (h : ws.UpToDate) {loaded : Table FileId Loaded}
    (h' : Coherent ws.store ws.registry loaded) :
    Walk.Alike ws.store ws.walk (Workspace.walk { ws with loaded := loaded }) :=
  Walk.alike_visits ws.entryPaths _ _ ⟨loaded, rfl, h, h'⟩

/-- A pass comes to the same whatever is loaded, as long as it is what the store holds. -/
theorem rebuild_of_coherent (h : ws.UpToDate) {loaded : Table FileId Loaded}
    (h' : Coherent ws.store ws.registry loaded) :
    (Workspace.rebuild { ws with loaded := loaded }).2 = ws.rebuild.2 ∧
      ∃ after, (Workspace.rebuild { ws with loaded := loaded }).1 =
        { ws.rebuild.1 with loaded := after } := by
  obtain ⟨after, hwalk, -, -⟩ := alike_walk h h'
  rw [rebuild, rebuild]
  dsimp only
  rw [hwalk]
  dsimp only
  cases ws.walk.failure with
  | none => exact ⟨rfl, after, rfl⟩
  | some failure => exact ⟨rfl, after, rfl⟩

theorem UpToDate.rebuild (h : ws.UpToDate) : ws.rebuild.1.UpToDate := by
  obtain ⟨_, -, hwalk, -⟩ := alike_walk h h
  rw [UpToDate, store_rebuild, registry_rebuild, loaded_rebuild]
  exact hwalk

theorem UpToDate.answer (h : ws.UpToDate) (request : Request) : (ws.answer request).1.UpToDate := by
  cases hpass : ws.passOn? request with
  | none =>
      obtain ⟨l, -, heq⟩ := answer_of_no_pass hpass
      rw [heq]
      exact h
  | some ready =>
      rw [answer_of_pass hpass]
      obtain ⟨loaded, rfl, hfewer⟩ := exists_of_pass hpass
      apply UpToDate.rebuild
      exact Coherent.fewer h hfewer

end Workspace

/-! ### Changes and passes -/

/-- The file that a step changes. -/
def Step.edited? : Step → Option SourcePath
  | .ask _ => none
  | .insert path _ => some path
  | .remove path => some path

/-- A request has a changed file read anew. -/
def Request.Tells (path : SourcePath) : Request → Prop
  | .linkage => False
  | .revaluate none => True
  | .revaluate (some changed) => changed.canonical = path.canonical

/-- Steps among which every change is followed at once by a request that tells of it. -/
inductive Prompt : List Step → Prop
  | nil : Prompt []
  | ask (request : Request) {steps : List Step} (h : Prompt steps) : Prompt (.ask request :: steps)
  | edit {edit : Step} {path : SourcePath} {request : Request} {steps : List Step}
      (hedit : edit.edited? = some path) (htells : request.Tells path) (h : Prompt steps) :
      Prompt (edit :: .ask request :: steps)

namespace Workspace

variable {ws : Workspace MemoryFiles}

/-- A change is to the store, and to one file of it. -/
theorem perform_of_edit (ws : Workspace MemoryFiles) {edit : Step} {path : SourcePath}
    (h : edit.edited? = some path) :
    ∃ store, ws.perform edit = { ws with store := store } ∧
      ∀ key, key ≠ path.canonical → store.texts.get? key = ws.store.texts.get? key := by
  cases edit with
  | ask request => cases h
  | insert path text =>
      cases h
      refine ⟨_, rfl, fun key hkey => ?_⟩
      rw [MemoryFiles.insert, Table.get?_insert, if_neg (Ne.symm hkey)]
  | remove path =>
      cases h
      refine ⟨_, rfl, fun key hkey => ?_⟩
      rw [MemoryFiles.remove, Table.get?_erase, if_neg (Ne.symm hkey)]

/-- After a change of one file and what tells of it, what is still loaded is what is held. -/
theorem UpToDate.forget_edited (h : ws.UpToDate) {edit : Step} {path : SourcePath}
    (hedit : edit.edited? = some path) {changed : Option SourcePath}
    (htells : (Request.revaluate changed).Tells path) :
    ((ws.perform edit).forget changed).UpToDate := by
  obtain ⟨store, heq, hstore⟩ := perform_of_edit ws hedit
  obtain ⟨loaded, hforget, hfewer⟩ := forget_eq (ws.perform edit) changed
  rw [hforget, heq]
  refine Coherent.change (Coherent.fewer h ?_) hstore fun file hknows hkey => ?_
  · rwa [heq] at hfewer
  · -- The file told of is the one that changed, and is forgotten.
    have hloaded : loaded = (Workspace.forget { ws with store := store } changed).loaded := by
      rw [← heq, hforget]
    rw [hloaded]
    cases changed with
    | none => rfl
    | some changed =>
        have hlookup : ws.registry.lookup? changed = some file :=
          (Registry.lookup?_eq_some_iff h.sound).mpr ⟨hknows, hkey.trans htells.symm⟩
        rw [forget]
        dsimp only
        rw [hlookup]
        dsimp only
        rw [Table.get?_erase, if_pos rfl]

theorem UpToDate.run (h : ws.UpToDate) {steps : List Step} (hsteps : Prompt steps) :
    (ws.run steps).UpToDate := by
  induction hsteps generalizing ws with
  | nil => exact h
  | ask request _ ih => exact ih (h.answer request)
  | @edit edit path request steps hedit htells _ ih =>
      rw [run_cons, run_cons]
      apply ih
      cases request with
      | linkage => cases htells
      | revaluate changed => exact (h.forget_edited hedit htells).rebuild

theorem upToDate_start (root : SourcePath) (store : MemoryFiles) (settings : Settings) :
    (start root store settings).UpToDate :=
  .empty store Registry.sound_empty

/-- In a workspace over files in memory, of which every change was followed at once by a pass told
of it, let one more file be changed. A pass told of that file succeeds if and only if one does that
reads all files anew, and comes to the same: the linkage with its files, the includes, what is
reported, and all else but the files loaded. -/
theorem revaluate_changed_eq_all (root : SourcePath) (store : MemoryFiles) (settings : Settings)
    (steps : List Step) (hsteps : Prompt steps) (edit : Step) (path : SourcePath)
    (hedit : edit.edited? = some path) (changed : SourcePath)
    (hchanged : changed.canonical = path.canonical) :
    let ws := (start root store settings).run (steps ++ [edit])
    let one := ws.revaluate (some changed)
    let all := ws.revaluate none
    one.2 = all.2 ∧ one.1.current = all.1.current ∧ one.1.orderedFiles = all.1.orderedFiles ∧
      one.1.diagnostics = all.1.diagnostics ∧
      (∀ q, one.1.includesOf q = all.1.includesOf q ∧ one.1.contains q = all.1.contains q) ∧
      one.1 = { all.1 with loaded := one.1.loaded } := by
  intro ws one all
  have hws : ws = ((start root store settings).run steps).perform edit := run_append _ _ _
  have hcurrent : ((start root store settings).run steps).UpToDate :=
    (upToDate_start root store settings).run hsteps
  have hone : (ws.forget (some changed)).UpToDate := by
    rw [hws]
    exact hcurrent.forget_edited hedit hchanged
  have hall : (ws.forget none).UpToDate := by
    rw [hws]
    exact hcurrent.forget_edited hedit trivial
  obtain ⟨loaded, hforget, -⟩ := forget_eq ws (some changed)
  have hready : ws.forget (some changed) = { ws.forget none with loaded := loaded } := hforget
  rw [hready] at hone
  obtain ⟨hresult, after, hafter⟩ := rebuild_of_coherent hall hone
  have heq : one.1 = { all.1 with loaded := after } := by
    change (ws.forget (some changed)).rebuild.1 = _
    rw [hready]
    exact hafter
  have hsame : one.2 = all.2 := by
    change (ws.forget (some changed)).rebuild.2 = _
    rw [hready]
    exact hresult
  rw [heq]
  exact ⟨hsame, rfl, rfl, rfl, fun q => ⟨rfl, rfl⟩, rfl⟩

/-- The root file is taken away, for which a pass fails, and comes back with an include. The pass is
told of it in another spelling. -/
theorem commonFiles_change_eq_all :
    let ws := (start ⟨"r"⟩ commonFiles { Settings.standard with common := [⟨"c"⟩] }).run
      [.ask .linkage, .remove ⟨"r"⟩, .ask (.revaluate (some ⟨"r"⟩)),
        .insert ⟨"r"⟩ "/include/ \"c\""]
    let one := ws.revaluate (some ⟨"r/"⟩)
    let all := ws.revaluate none
    (∃ l, one.2 = .ok l ∧ all.2 = .ok l) ∧ one.1.current = all.1.current ∧
      one.1.diagnostics = all.1.diagnostics ∧
      one.1.includesOf ⟨"r"⟩ = all.1.includesOf ⟨"r"⟩ := by
  intro ws one all
  obtain ⟨hresult, hcurrent, -, hdiagnostics, hreaders, -⟩ :=
    revaluate_changed_eq_all ⟨"r"⟩ commonFiles { Settings.standard with common := [⟨"c"⟩] }
      [.ask .linkage, .remove ⟨"r"⟩, .ask (.revaluate (some ⟨"r"⟩))]
      (.ask _ (.edit rfl rfl .nil)) (.insert ⟨"r"⟩ "/include/ \"c\"") ⟨"r"⟩ rfl ⟨"r/"⟩
      (by decide +kernel)
  have hwalk : (ws.forget none).walk.failure = none := by decide +kernel
  obtain ⟨l, hl⟩ := exists_linkage_of_walk (ws.forget none) hwalk
  exact ⟨⟨l, hresult.trans hl, hl⟩, hcurrent, hdiagnostics, (hreaders ⟨"r"⟩).1⟩

end Workspace

end Devicetree
