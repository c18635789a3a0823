import Devicetree.Proofs.Workspace.Steps

/-!
# Texts of the files linked

The text that a workspace holds of a file is the one it was last read from, unless the file was
forgotten since and no pass came to it again. A pass that succeeds comes to all its files, so their
texts are those that it linked. A pass that fails leaves the last linkage in place, and yet the
files it forgot stay forgotten unless it came to them before it failed; those it did come to may
have been read from another text. So the texts held and the last linkage agree on exactly the files
that were not forgotten since, or were read again from a text that reads the same.
-/

namespace Devicetree

/-! ### What a walk reads -/

/-- What holds of the files loaded in the course of a walk: all files seen are loaded, and those
that were not loaded before were read from the store. -/
structure Walk.ReadsFrom (store : MemoryFiles) (before : Table FileId Loaded) (w : Walk) :
    Prop where
  orderly : w.Orderly
  visited : ∀ file ∈ w.visited, (w.loaded.get? file).isSome
  read : ∀ file loaded, before.get? file = none → w.loaded.get? file = some loaded →
    file ∈ w.visited ∧ store.texts.get? (w.registry.key file) = some loaded.text

theorem Walk.ReadsFrom.move {store : MemoryFiles} {before : Table FileId Loaded} {w w' : Walk}
    (h : ReadsFrom store before w) (hmove : Move store w w') : ReadsFrom store before w' := by
  have hcontinues := hmove.continues
  have hvisited : ∀ file ∈ w.visited, (w'.loaded.get? file).isSome := by
    intro file hfile
    obtain ⟨loaded, hloaded⟩ := Option.isSome_iff_exists.mp (h.visited file hfile)
    exact Option.isSome_iff_exists.mpr ⟨loaded, hcontinues.loaded _ _ hloaded⟩
  have hread : ∀ file loaded, before.get? file = none → w.loaded.get? file = some loaded →
      file ∈ w'.visited ∧ store.texts.get? (w'.registry.key file) = some loaded.text := by
    intro file loaded hbefore hloaded
    obtain ⟨hfile, htext⟩ := h.read file loaded hbefore hloaded
    refine ⟨hcontinues.visited _ hfile, ?_⟩
    rw [Registry.key_mono hcontinues.registry (h.orderly.known _ hfile)]
    exact htext
  have horderly := h.orderly.move hmove
  cases hmove with
  | register path => exact ⟨horderly, hvisited, hread⟩
  | enter hknows hloaded =>
      refine ⟨horderly, fun file hfile => ?_, hread⟩
      rcases List.mem_append.mp hfile with hfile | hfile
      · exact hvisited file hfile
      · obtain rfl := List.mem_singleton.mp hfile
        exact Option.isSome_iff_exists.mpr ⟨_, hloaded⟩
  | @read file text hknows hunloaded htext =>
      refine ⟨horderly, fun other hother => ?_, fun other loaded hbefore hloaded => ?_⟩
      · rcases List.mem_append.mp hother with hother | hother
        · exact hvisited other hother
        · obtain rfl := List.mem_singleton.mp hother
          rw [Table.get?_insert, if_pos rfl]
          rfl
      · by_cases heq : file = other
        · subst heq
          rw [Table.get?_insert, if_pos rfl] at hloaded
          cases hloaded
          exact ⟨List.mem_append_right _ (List.mem_singleton_self _), htext⟩
        · rw [Table.get?_insert, if_neg heq] at hloaded
          exact hread other loaded hbefore hloaded
  | fail failure => exact ⟨horderly, hvisited, hread⟩
  | exhaust => exact ⟨horderly, hvisited, hread⟩
  | link hfile found => exact ⟨horderly, hvisited, hread⟩
  | warn i => exact ⟨horderly, hvisited, hread⟩
  | leave hfile hloaded => exact ⟨horderly, hvisited, hread⟩

namespace Workspace

variable {ws : Workspace MemoryFiles} {file : FileId} {text : String}

theorem Sound.readsFrom_walk (h : ws.Sound) : ws.walk.ReadsFrom ws.store ws.loaded := by
  apply Walk.Moves.keep Walk.ReadsFrom.move (moves_walk h.registry)
  refine ⟨?_, by simp [Walk.start], fun file loaded hbefore hloaded => ?_⟩
  · exact ⟨by simp [Walk.start], h.parsed, by simp [Walk.start], by simp [Walk.start]⟩
  · rw [show (Walk.start ws.registry ws.loaded).loaded.get? file = none from hbefore] at hloaded
    cases hloaded

theorem text?_eq_some_iff :
    ws.text? file = some text ↔ ∃ source, ws.loaded.get? file = some ⟨text, source⟩ := by
  rw [text?, Option.map_eq_some_iff]
  constructor
  · rintro ⟨loaded, hloaded, rfl⟩
    exact ⟨loaded.source, hloaded⟩
  · rintro ⟨source, hsource⟩
    exact ⟨_, hsource, rfl⟩

/-- A pass on a workspace comes to a file that is not loaded, and reads it. -/
def PassReads (ws : Workspace MemoryFiles) (file : FileId) (text : String) : Prop :=
  ws.text? file = none ∧ file ∈ ws.walk.visited ∧
    ∃ path, ws.walk.registry.lookup? path = some file ∧ ws.store.text? path = some text

/-- A pass keeps the texts it finds, and adds those that it reads. -/
theorem Sound.text?_rebuild_iff (h : ws.Sound) :
    ws.rebuild.1.text? file = some text ↔ ws.text? file = some text ∨ ws.PassReads file text := by
  have hcontinues := (moves_walk h.registry).continues
  have hreads := h.readsFrom_walk
  rw [text?_eq_some_iff, loaded_rebuild]
  constructor
  · rintro ⟨source, hsource⟩
    cases hbefore : ws.loaded.get? file with
    | some loaded =>
        have hkept := hcontinues.loaded file loaded hbefore
        rw [hsource] at hkept
        cases hkept
        exact .inl (text?_eq_some_iff.mpr ⟨source, hbefore⟩)
    | none =>
        obtain ⟨hvisited, htext⟩ := hreads.read file _ hbefore hsource
        obtain ⟨path, hpath⟩ := Registry.exists_lookup? (hcontinues.sound h.registry)
          (hreads.orderly.known file hvisited)
        refine .inr ⟨by rw [text?, hbefore]; rfl, hvisited, path, hpath, ?_⟩
        rw [MemoryFiles.text?, ← (Registry.knows_of_lookup? hpath).2]
        exact htext
  · rintro (htext | ⟨hbefore, hvisited, path, hpath, htext⟩)
    · obtain ⟨source, hsource⟩ := text?_eq_some_iff.mp htext
      exact ⟨source, hcontinues.loaded file _ hsource⟩
    · obtain ⟨loaded, hloaded⟩ := Option.isSome_iff_exists.mp (hreads.visited file hvisited)
      have hread := (hreads.read file loaded (Option.map_eq_none_iff.mp hbefore) hloaded).2
      rw [(Registry.knows_of_lookup? hpath).2] at hread
      rw [MemoryFiles.text?, hread] at htext
      cases htext
      exact ⟨loaded.source, hloaded⟩

/-! ### What steps do to a text -/

/-- A step has a file forgotten before its pass. -/
def Forgets (ws : Workspace MemoryFiles) (file : FileId) : Step → Prop
  | .ask (.revaluate none) => True
  | .ask (.revaluate (some path)) => ws.registry.lookup? path = some file
  | _ => False

/-- The pass of a step comes to a file that is not loaded then, and reads it. -/
def Rereads (ws : Workspace MemoryFiles) (file : FileId) (text : String) : Step → Prop
  | .ask request => ∃ ready, ws.passOn? request = some ready ∧ ready.PassReads file text
  | _ => False

theorem text?_forget_iff (changed : Option SourcePath) :
    (ws.forget changed).text? file = some text ↔
      ws.text? file = some text ∧ ¬ws.Forgets file (.ask (.revaluate changed)) := by
  rw [text?_eq_some_iff, text?_eq_some_iff]
  cases changed with
  | none =>
      constructor
      · rintro ⟨source, hsource⟩
        cases hsource
      · exact fun ⟨_, hkept⟩ => absurd trivial hkept
  | some path =>
      rw [forget, Forgets]
      cases ws.registry.lookup? path with
      | none => simp
      | some other =>
          dsimp only
          rw [Table.get?_erase]
          by_cases heq : other = file <;> simp [heq]

/-- A file is held after a step from a text if it was before and the step did not have it
forgotten, or if the step read it. -/
theorem Sound.text?_perform_iff (h : ws.Sound) (step : Step) :
    (ws.perform step).text? file = some text ↔
      (ws.text? file = some text ∧ ¬ws.Forgets file step) ∨ ws.Rereads file text step := by
  cases step with
  | ask request =>
      rw [Workspace.perform, Rereads]
      cases hpass : ws.passOn? request with
      | none =>
          obtain ⟨l, -, heq⟩ := answer_of_no_pass hpass
          cases request with
          | linkage => simp [heq, Forgets]
          | revaluate changed => cases hpass
      | some ready =>
          have hready := h.passOn? hpass
          have hfound : ready.text? file = some text ↔
              ws.text? file = some text ∧ ¬ws.Forgets file (.ask request) := by
            cases request with
            | linkage =>
                rw [Workspace.passOn?] at hpass
                split at hpass
                · cases hpass
                · cases hpass
                  simp [Forgets]
            | revaluate changed =>
                cases hpass
                exact text?_forget_iff changed
          rw [answer_of_pass hpass, hready.text?_rebuild_iff, hfound]
          simp
  | insert path inserted => simp [Workspace.perform, text?, Forgets, Rereads]
  | remove path => simp [Workspace.perform, text?, Forgets, Rereads]

/-- None of some steps has a file forgotten. -/
def Untouched (ws : Workspace MemoryFiles) (file : FileId) : List Step → Prop
  | [] => True
  | step :: steps => ¬ws.Forgets file step ∧ (ws.perform step).Untouched file steps

/-- One of some steps reads a file from a text, and none after it has the file forgotten. -/
def ReadLast (ws : Workspace MemoryFiles) (file : FileId) (text : String) : List Step → Prop
  | [] => False
  | step :: steps =>
    (ws.Rereads file text step ∧ (ws.perform step).Untouched file steps) ∨
      (ws.perform step).ReadLast file text steps

/-- The text held of a file after any steps. -/
theorem Sound.text?_run_iff (h : ws.Sound) (steps : List Step) :
    (ws.run steps).text? file = some text ↔
      (ws.text? file = some text ∧ ws.Untouched file steps) ∨ ws.ReadLast file text steps := by
  induction steps generalizing ws with
  | nil => simp [Untouched, ReadLast]
  | cons step steps ih =>
      rw [run_cons, ih (h.perform step), h.text?_perform_iff step, Untouched, ReadLast]
      tauto

/-! ### Texts and the last linkage -/

/-- A file is held from a text that reads as what was linked of it. -/
def Agrees (ws : Workspace MemoryFiles) (l : Linkage) (file : FileId) : Prop :=
  ∃ text, ws.text? file = some text ∧ l.source? file = some (.read file text.toList)

theorem exists_source? {l : Linkage} (h : file ∈ l.fileOrder) :
    ∃ source ∈ l.files, source.file = file ∧ l.source? file = some source := by
  cases hsource : l.source? file with
  | none =>
      obtain ⟨source, hmem, hfile⟩ := List.mem_map.mp h
      have hne := List.find?_eq_none.mp hsource source hmem
      exact absurd (decide_eq_true hfile) hne
  | some source =>
      have hfile := List.find?_some hsource
      exact ⟨source, List.mem_of_find?_eq_some hsource, of_decide_eq_true hfile, rfl⟩

/-- A pass that succeeds holds all its files from the texts that it linked. -/
theorem Sound.agrees_of_success (h : ws.Sound) {l : Linkage} (hl : ws.rebuild.2 = .ok l)
    (hfile : file ∈ l.fileOrder) : ws.rebuild.1.Agrees l file := by
  have hwalk := h.orderly_walk
  obtain ⟨source, hmem, rfl, hsource⟩ := exists_source? hfile
  rw [(files_of_rebuild ws hl).2] at hmem
  obtain ⟨-, text, htext⟩ := hwalk.left source hmem
  refine ⟨text, ?_, ?_⟩
  · rw [text?_eq_some_iff, loaded_rebuild]
    exact ⟨source, htext⟩
  · rw [hsource]
    exact congrArg some (hwalk.parsed _ _ htext).2

/-- A pass of some steps, with the steps before it and those after it. -/
structure Made (ws : Workspace MemoryFiles) (steps : List Step) (l : Linkage)
    (earlier : List Step) (request : Request) (later : List Step) : Prop where
  steps_eq : steps = earlier ++ .ask request :: later
  pass : ((ws.run earlier).passOn? request).isSome
  result : ((ws.run earlier).answer request).2 = .ok l

/-- The last linkage was there before, or one of the steps made it. -/
theorem exists_made {l : Linkage} (steps : List Step) (h : (ws.run steps).current = some l) :
    ws.current = some l ∨ ∃ earlier request later, Made ws steps l earlier request later := by
  induction steps generalizing ws with
  | nil => exact .inl h
  | cons step steps ih =>
      rcases ih h with hcurrent | ⟨earlier, request, later, hmade⟩
      · cases step with
        | insert path text => exact .inl hcurrent
        | remove path => exact .inl hcurrent
        | ask request =>
            rw [perform] at hcurrent
            cases hpass : ws.passOn? request with
            | none =>
                obtain ⟨_, -, heq⟩ := answer_of_no_pass hpass
                rw [heq] at hcurrent
                exact .inl hcurrent
            | some ready =>
                obtain ⟨loaded, rfl, -⟩ := exists_of_pass hpass
                have hanswer := answer_of_pass hpass
                rw [hanswer] at hcurrent
                cases hresult : (Workspace.rebuild { ws with loaded := loaded }).2 with
                | error failure =>
                    rw [rebuild_of_failure hresult] at hcurrent
                    exact .inl hcurrent
                | ok l' =>
                    rw [(rebuild_of_success hresult).2] at hcurrent
                    cases hcurrent
                    refine .inr ⟨[], request, steps, rfl, ?_, ?_⟩
                    · exact Option.isSome_iff_exists.mpr ⟨_, hpass⟩
                    · exact (congrArg Prod.snd hanswer).trans hresult
      · refine .inr ⟨step :: earlier, request, later, ?_, hmade.pass, hmade.result⟩
        rw [hmade.steps_eq, List.cons_append]

/-- Whatever was done to a workspace over files in memory, its last linkage was made by one of the
steps; and a file of it is held from a text that reads as what was linked, exactly if no step since
has had it forgotten, or the last to have done so was followed by a pass that read it from such a
text. -/
theorem text_agrees_iff_untouched_or_reread (root : SourcePath) (store : MemoryFiles)
    (settings : Settings) (steps : List Step) (l : Linkage)
    (hl : ((start root store settings).run steps).current = some l) :
    ∃ earlier request later, Made (start root store settings) steps l earlier request later ∧
      ∀ file ∈ l.fileOrder,
        let made := (((start root store settings).run earlier).answer request).1
        (∃ text, ((start root store settings).run steps).text? file = some text ∧
            l.source? file = some (.read file text.toList)) ↔
          made.Untouched file later ∨
            ∃ text, made.ReadLast file text later ∧
              l.source? file = some (.read file text.toList) := by
  obtain hstart | ⟨earlier, request, later, hmade⟩ := exists_made steps hl
  · cases hstart
  · refine ⟨earlier, request, later, hmade, fun file hfile => ?_⟩
    intro made
    have hsound : ((start root store settings).run earlier).Sound :=
      (sound_start root store settings).run earlier
    have hrun : (start root store settings).run steps = made.run later := by
      rw [hmade.steps_eq, run_append, run_cons, perform]
    obtain ⟨ready, hready⟩ := Option.isSome_iff_exists.mp hmade.pass
    have hanswer := answer_of_pass hready
    have hagrees : made.Agrees l file := by
      have hresult := hmade.result
      rw [hanswer] at hresult
      have hagrees := (hsound.passOn? hready).agrees_of_success hresult hfile
      rwa [← hanswer] at hagrees
    have htext : ∀ text, ((start root store settings).run steps).text? file = some text ↔
        (made.text? file = some text ∧ made.Untouched file later) ∨
          made.ReadLast file text later := by
      intro text
      rw [hrun]
      exact (hsound.perform (.ask request)).text?_run_iff later
    constructor
    · rintro ⟨text, hheld, hreads⟩
      rcases (htext text).mp hheld with ⟨-, huntouched⟩ | hlast
      · exact .inl huntouched
      · exact .inr ⟨text, hlast, hreads⟩
    · rintro (huntouched | ⟨text, hlast, hreads⟩)
      · obtain ⟨text, hheld, hreads⟩ := hagrees
        exact ⟨text, (htext text).mpr (.inl ⟨hheld, huntouched⟩), hreads⟩
      · exact ⟨text, (htext text).mpr (.inr hlast), hreads⟩

/-- An edit that no pass was asked for since leaves the texts as they were linked. -/
theorem commonFiles_edit_agrees :
    let ws := (start ⟨"r"⟩ commonFiles { Settings.standard with common := [⟨"c"⟩] }).run
      [.ask .linkage, .insert ⟨"r"⟩ "/include/ \"c\""]
    ∃ l, ws.current = some l ∧ l.fileOrder = [⟨0⟩, ⟨1⟩] ∧
      ∀ file ∈ l.fileOrder, ∃ text, ws.text? file = some text ∧
        l.source? file = some (.read file text.toList) := by
  intro ws
  have horder : ws.current.map (·.fileOrder) = some [⟨0⟩, ⟨1⟩] := by decide +kernel
  obtain ⟨l, hl, hfiles⟩ := Option.map_eq_some_iff.mp horder
  refine ⟨l, hl, hfiles, fun file hfile => ?_⟩
  obtain ⟨earlier, request, later, hmade, hagrees⟩ :=
    text_agrees_iff_untouched_or_reread _ _ _ _ l hl
  refine (hagrees file hfile).mpr (.inl ?_)
  have hsteps := hmade.steps_eq
  cases earlier with
  | nil =>
      cases hsteps
      exact ⟨id, trivial⟩
  | cons step earlier =>
      obtain ⟨-, hrest⟩ := List.cons.inj hsteps
      have hmem : Step.ask request ∈ [Step.insert ⟨"r"⟩ "/include/ \"c\""] := by
        rw [hrest]
        exact List.mem_append_right _ List.mem_cons_self
      simp at hmem

/-- A single file. -/
def boardFiles : MemoryFiles :=
  MemoryFiles.empty.insert ⟨"board.dts"⟩ "/ \x7b \x7d;"

/-- The file is linked and then taken away. The pass that fails for want of it leaves the linkage
in place and forgets the text. -/
theorem boardFiles_text_lost :
    let ws := (start ⟨"board.dts"⟩ boardFiles .standard).run
      [.ask .linkage, .remove ⟨"board.dts"⟩, .ask (.revaluate none)]
    ∃ l, ws.current = some l ∧ ∃ file ∈ l.fileOrder, ws.text? file = none := by
  intro ws
  have horder : ws.current.map (·.fileOrder) = some [⟨0⟩] := by decide +kernel
  obtain ⟨l, hl, hfiles⟩ := Option.map_eq_some_iff.mp horder
  refine ⟨l, hl, ⟨0⟩, ?_, ?_⟩
  · rw [hfiles]
    exact List.mem_singleton_self _
  · decide +kernel

end Workspace

end Devicetree
