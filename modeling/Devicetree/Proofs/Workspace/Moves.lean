import Devicetree.Proofs.Workspace.Postorder

/-!
# What a walk does

A walk is made up of a few kinds of moves. It registers paths, enters files, from what is loaded or
from the store, notes includes, leaves files, and may fail. All that is said of a walk that starts
with files loaded, and may fail at any place, follows from what each kind of move keeps.
-/

namespace Devicetree.Walk

variable {store : MemoryFiles} {directories : List SourcePath}

/-- One thing that a walk does. -/
inductive Move (store : MemoryFiles) : Walk → Walk → Prop
  | register (w : Walk) (path : SourcePath) :
      Move store w { w with registry := (w.registry.intern path).2 }
  /-- A file is entered as it is loaded. -/
  | enter {w : Walk} {file : FileId} {loaded : Loaded} (hknows : w.registry.Knows file)
      (hloaded : w.loaded.get? file = some loaded) :
      Move store w { w with visited := w.visited ++ [file] }
  /-- A file that is not loaded is read and entered. -/
  | read {w : Walk} {file : FileId} {text : String} (hknows : w.registry.Knows file)
      (hunloaded : w.loaded.get? file = none)
      (htext : store.texts.get? (w.registry.key file) = some text) :
      Move store w
        { w with
          visited := w.visited ++ [file]
          loaded := w.loaded.insert file ⟨text, .read file text.toList⟩ }
  | fail (w : Walk) (failure : RunError) : Move store w { w with failure := some failure }
  | exhaust (w : Walk) : Move store w { w with exhausted := true }
  | link {w : Walk} {file : FileId} (hfile : file ∈ w.visited) (found : Span × SourcePath) :
      Move store w { w with links := w.links.push file found }
  | warn (w : Walk) (i : Include) : Move store w (w.warn i)
  | leave {w : Walk} {file : FileId} {loaded : Loaded} (hfile : file ∈ w.visited)
      (hloaded : w.loaded.get? file = some loaded) : Move store w (w.leave loaded.source)

/-- A number of moves. -/
def Moves (store : MemoryFiles) : Walk → Walk → Prop :=
  Relation.ReflTransGen (Move store)

/-- What a walk knows later it knows better: paths keep their numbers, files seen stay seen, and
what is loaded stays loaded. -/
structure Continues (w w' : Walk) : Prop where
  sound : w.registry.Sound → w'.registry.Sound
  registry : w.registry.entries <+: w'.registry.entries
  visited : ∀ file ∈ w.visited, file ∈ w'.visited
  loaded : ∀ file loaded, w.loaded.get? file = some loaded → w'.loaded.get? file = some loaded

namespace Continues

variable {w w' w'' : Walk}

theorem refl (w : Walk) : Continues w w :=
  ⟨id, List.prefix_refl _, fun _ => id, fun _ _ => id⟩

theorem trans (h : Continues w w') (h' : Continues w' w'') : Continues w w'' where
  sound hsound := h'.sound (h.sound hsound)
  registry := h.registry.trans h'.registry
  visited file hfile := h'.visited file (h.visited file hfile)
  loaded file loaded hloaded := h'.loaded file loaded (h.loaded file loaded hloaded)

end Continues

theorem Move.continues {w w' : Walk} (h : Move store w w') : Continues w w' := by
  cases h with
  | register path =>
      refine ⟨fun hsound => (Registry.intern_spec hsound path).1, ?_, fun _ => id, fun _ _ => id⟩
      exact Registry.isPrefix_intern w.registry path
  | enter hknows hloaded =>
      exact ⟨id, List.prefix_refl _, fun _ => List.mem_append_left _, fun _ _ => id⟩
  | @read file text hknows hunloaded htext =>
      refine ⟨id, List.prefix_refl _, fun _ => List.mem_append_left _, ?_⟩
      intro other loaded hloaded
      have hne : file ≠ other := by
        rintro rfl
        rw [hunloaded] at hloaded
        cases hloaded
      rw [Table.get?_insert, if_neg hne]
      exact hloaded
  | fail failure => exact ⟨id, List.prefix_refl _, fun _ => id, fun _ _ => id⟩
  | exhaust => exact ⟨id, List.prefix_refl _, fun _ => id, fun _ _ => id⟩
  | link hfile found => exact ⟨id, List.prefix_refl _, fun _ => id, fun _ _ => id⟩
  | warn i => exact ⟨id, List.prefix_refl _, fun _ => id, fun _ _ => id⟩
  | leave hfile hloaded => exact ⟨id, List.prefix_refl _, fun _ => id, fun _ _ => id⟩

theorem Moves.continues {w w' : Walk} (h : Moves store w w') : Continues w w' := by
  induction h with
  | refl => exact .refl w
  | tail _ hmove ih => exact ih.trans hmove.continues

/-- What each move keeps holds after any number of moves. -/
theorem Moves.keep {P : Walk → Prop} (hstep : ∀ {w w'}, P w → Move store w w' → P w') {w w' : Walk}
    (h : Moves store w w') (hw : P w) : P w' := by
  induction h with
  | refl => exact hw
  | tail _ hmove ih => exact hstep ih hmove

/-! ### Every walk is made up of moves -/

/-- Loading a file either fails, or it is a move to where the file is entered and loaded. -/
theorem move_load {w : Walk} (hsound : w.registry.Sound) (path : SourcePath) {entered : Walk}
    {source : SourceFile}
    (h : (w.reach path).load store (w.registry.intern path).1 path = .ok (entered, source)) :
    Move store { w with registry := (w.registry.intern path).2 } entered ∧
      (w.registry.intern path).1 ∈ entered.visited ∧
      ∃ text, entered.loaded.get? (w.registry.intern path).1 = some ⟨text, source⟩ := by
  obtain ⟨-, -, hknows, hkey⟩ := Registry.intern_spec hsound path
  have hmem : (w.registry.intern path).1 ∈ w.visited ++ [(w.registry.intern path).1] :=
    List.mem_append_right _ (List.mem_singleton_self _)
  cases hloaded : w.loaded.get? (w.registry.intern path).1 with
  | some loaded =>
      rw [load, show (w.reach path).loaded.get? _ = _ from hloaded] at h
      cases h
      exact ⟨.enter hknows hloaded, hmem, loaded.text, hloaded⟩
  | none =>
      cases htext : store.text? path with
      | none =>
          rw [load_of_absent (w := w.reach path) htext hloaded] at h
          cases h
      | some text =>
          rw [load_of_held (w := w.reach path) htext hloaded] at h
          cases h
          refine ⟨.read hknows hloaded ?_, hmem, text, ?_⟩
          · rw [hkey]
            exact htext
          · rw [Table.get?_insert, if_pos rfl]

/-- Following includes is made up of moves, if visits are. -/
theorem moves_follow {depth : Nat} (file : FileId) (path : SourcePath)
    (ih : ∀ (path : SourcePath) (w : Walk), w.registry.Sound →
      Moves store w (visit store directories depth path w))
    (is : List Include) (w : Walk) (hsound : w.registry.Sound) (hfile : file ∈ w.visited) :
    Moves store w (is.foldl (follow store directories depth file path) w) := by
  apply foldl_follow_induction (P := Moves store w)
  · exact fun w' i hw' => hw'.tail (.warn w' i)
  · intro w' i target _ hw'
    have hlink : Move store w' { w' with links := w'.links.push file (i.path.span, target) } :=
      .link (hw'.continues.visited file hfile) (i.path.span, target)
    exact (hw'.tail hlink).trans (ih target _ (hw'.continues.sound hsound))
  · exact .refl

/-- A visit is made up of moves. -/
theorem moves_visit (depth : Nat) (path : SourcePath) (w : Walk) (hsound : w.registry.Sound) :
    Moves store w (visit store directories depth path w) := by
  induction depth using Nat.strongRecOn generalizing path w with
  | ind depth ih =>
      have hregister : Moves store w (w.register path) := .single (.register w path)
      have hvisits := visits_visit store directories depth path w
      generalize visit store directories depth path w = w' at hvisits ⊢
      cases hvisits with
      | failed => exact .refl
      | seen => exact hregister
      | exhausted => exact hregister.tail (.exhaust _)
      | unreadable => exact hregister.tail (.fail _ _)
      | @entered depth entered source _ _ hload =>
          obtain ⟨hmove, hmem, text, hloaded⟩ := move_load hsound path hload
          have hentered : Moves store w entered := hregister.tail hmove
          have hfollow := moves_follow (w.registry.intern path).1 path
            (ih depth (Nat.lt_succ_self depth)) source.includes entered
            (hentered.continues.sound hsound) hmem
          have hwhole : Moves store w _ := hentered.trans hfollow
          rw [close]
          split
          · exact hwhole
          · exact hwhole.tail
              (.leave (hfollow.continues.visited _ hmem) (hfollow.continues.loaded _ _ hloaded))

theorem moves_visits {depth : Nat} (paths : List SourcePath) (w : Walk)
    (hsound : w.registry.Sound) :
    Moves store w (paths.foldl (fun w p => w.visit store directories depth p) w) := by
  induction paths generalizing w with
  | nil => exact .refl
  | cons p paths ih =>
      have hfirst : Moves store w (visit store directories depth p w) :=
        moves_visit depth p w hsound
      exact hfirst.trans (ih _ (hfirst.continues.sound hsound))

end Walk

theorem Workspace.moves_walk {ws : Workspace MemoryFiles} (h : ws.registry.Sound) :
    Walk.Moves ws.store (.start ws.registry ws.loaded) ws.walk :=
  Walk.moves_visits _ _ h

end Devicetree
