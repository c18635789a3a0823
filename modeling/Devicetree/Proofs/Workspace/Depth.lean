import Mathlib.Data.List.ProdSigma
import Devicetree.Proofs.Workspace.Registry
import Devicetree.Workspace.FileTree
import Devicetree.Workspace.Snapshot

/-!
# The include walk comes to its end

A walk spends depth on each file that it enters, and notes it if none is left for one. The paths of
the files in a store have no more shortest spellings than the store tells, and each file that is
entered through an include is one of them that was not seen before. So a walk is never exhausted, in
whatever store, whatever was loaded before, and wherever it may fail; and with more depth it comes
to the same.
-/

namespace Devicetree

/-! ### Stores have finitely many files -/

/-- The paths of the files in a store have no more shortest spellings than the store tells. -/
class LawfulStore (σ : Type) [Store σ] : Prop where
  exists_keys (store : σ) : ∃ keys : List String, keys.length ≤ Store.extent store ∧
    ∀ p, Store.isFile store p = true → p.canonical ∈ keys

instance : LawfulStore MemoryFiles where
  exists_keys store := by
    refine ⟨store.texts.keys, Nat.le_of_eq (List.length_map _), fun p hp => ?_⟩
    obtain ⟨text, htext⟩ := Option.isSome_iff_exists.mp hp
    exact List.mem_map_of_mem (Table.mem_of_get? htext)

instance : LawfulStore Snapshot where
  exists_keys s := by
    refine ⟨s.contents.keys.map fun text => (SourcePath.mk text).canonical, ?_, fun p hp => ?_⟩
    · rw [List.length_map, Table.keys, List.length_map]
      exact Nat.le_refl _
    · cases hcontent : s.contents.get? p.text with
      | some content =>
          exact List.mem_map_of_mem (List.mem_map_of_mem (Table.mem_of_get? hcontent))
      | none =>
          dsimp only [Store.isFile] at hp
          rw [Snapshot.content, hcontent] at hp
          cases hp

/-- The texts over an alphabet up to a length are no more than those of that length over one letter
more. -/
theorem exists_texts {α : Type} (alphabet : List α) (n : Nat) :
    ∃ texts : List (List α), texts.length ≤ Nat.pow (alphabet.length + 1) n ∧
      ∀ t : List α, t.length ≤ n → (∀ a ∈ t, a ∈ alphabet) → t ∈ texts := by
  induction n with
  | zero =>
      refine ⟨[[]], Nat.le_refl _, fun t ht _ => ?_⟩
      rw [List.length_eq_zero_iff.mp (Nat.le_zero.mp ht)]
      exact List.mem_singleton_self _
  | succ n ih =>
      obtain ⟨texts, hlength, hmem⟩ := ih
      refine ⟨[] :: (alphabet ×ˢ texts).map fun pair => pair.1 :: pair.2, ?_, fun t ht hall => ?_⟩
      · have hpow : Nat.pow (alphabet.length + 1) (n + 1) =
            Nat.pow (alphabet.length + 1) n * alphabet.length + Nat.pow (alphabet.length + 1) n :=
          rfl
        have hpos : 0 < Nat.pow (alphabet.length + 1) n := Nat.pow_pos (Nat.succ_pos _)
        have hproduct := Nat.mul_le_mul_right alphabet.length hlength
        rw [List.length_cons, List.length_map, List.length_product, hpow,
          Nat.mul_comm alphabet.length]
        omega
      · cases t with
        | nil => exact List.mem_cons_self
        | cons a t =>
            obtain ⟨ha, hall⟩ := List.forall_mem_cons.mp hall
            have hpair : (a, t) ∈ alphabet ×ˢ texts :=
              List.pair_mem_product.mpr ⟨ha, hmem t (Nat.le_of_succ_le_succ ht) hall⟩
            exact List.mem_cons_of_mem _ (List.mem_map.mpr ⟨(a, t), hpair, rfl⟩)

namespace FileTree

theorem mem_codePoints (c : Char) : c ∈ (List.range codePoints).map Char.ofNat := by
  refine List.mem_map.mpr ⟨c.toNat, List.mem_range.mpr ?_, Char.ofNat_toNat c⟩
  rcases c.valid with hlow | ⟨-, hhigh⟩
  · exact Nat.lt_trans hlow (by decide)
  · exact hhigh

/-- The path of a file keeps to the limit. -/
theorem utf8ByteSize_lt_of_isFile {t : FileTree} {p : SourcePath}
    (h : Store.isFile t p = true) : p.text.utf8ByteSize < pathLimit := by
  apply Nat.lt_of_not_le
  intro hlimit
  have hlocate : ∃ e, t.locate p = .error e := by
    rw [locate, if_pos hlimit]
    split
    · exact ⟨_, rfl⟩
    · split <;> exact ⟨_, rfl⟩
  obtain ⟨e, he⟩ := hlocate
  dsimp only [Store.isFile] at h
  rw [find, he] at h
  cases h

instance : LawfulStore FileTree where
  exists_keys t := by
    obtain ⟨texts, hlength, hmem⟩ := exists_texts ((List.range codePoints).map Char.ofNat) pathLimit
    rw [List.length_map, List.length_range] at hlength
    refine ⟨texts.map fun cs => (SourcePath.mk (String.ofList cs)).canonical, ?_, fun p hp => ?_⟩
    · rw [List.length_map]
      exact hlength
    · have hsize : p.text.toList.length ≤ pathLimit := by
        have hbytes := Text.utf8ByteSize_ofList p.text.toList
        rw [String.ofList_toList] at hbytes
        have hlimit := utf8ByteSize_lt_of_isFile hp
        have hle := Text.length_le_size p.text.toList
        omega
      refine List.mem_map.mpr ⟨p.text.toList, hmem _ hsize fun c _ => mem_codePoints c, ?_⟩
      rw [String.ofList_toList]

end FileTree

namespace Walk

variable {σ : Type} [Store σ]

/-! ### What a visit comes to -/

/-- What the walk does with an include of a file: it visits the file found, if any. -/
def follow (store : σ) (directories : List SourcePath) (depth : Nat) (file : FileId)
    (path : SourcePath) (w : Walk) (i : Include) : Walk :=
  if w.failure.isSome then w
  else
    (i.resolve? store path directories).elim (w.warn i) fun target =>
      visit store directories depth target
        { w with links := w.links.push file (i.path.span, target) }

/-- The walk after a path was registered. -/
def register (w : Walk) (path : SourcePath) : Walk :=
  { w with registry := (w.registry.intern path).2 }

/-- The walk as it comes to load a file: the file is registered and counts as seen. -/
def reach (w : Walk) (path : SourcePath) : Walk :=
  let (file, registry) := w.registry.intern path
  { w with registry := registry, visited := w.visited ++ [file] }

/-- The walk after a file was left. -/
def leave (w : Walk) (source : SourceFile) : Walk :=
  { w with files := w.files ++ [source] }

/-- The walk after the includes of a file were followed: the file is left, unless it failed. -/
def close (w : Walk) (source : SourceFile) : Walk :=
  if w.failure.isSome then w else w.leave source

/-- What a visit comes to, with a number of files left to go deep. -/
inductive Visits (store : σ) (directories : List SourcePath) (path : SourcePath) (w : Walk) :
    Nat → Walk → Prop
  | failed {depth : Nat} (h : w.failure.isSome = true) : Visits store directories path w depth w
  | seen {depth : Nat} (hunfailed : w.failure = none)
      (hfile : (w.registry.intern path).1 ∈ w.visited) :
      Visits store directories path w depth (w.register path)
  | exhausted (hunfailed : w.failure = none) (hfile : (w.registry.intern path).1 ∉ w.visited) :
      Visits store directories path w 0 { w.register path with exhausted := true }
  | unreadable {depth : Nat} {failure : RunError} (hunfailed : w.failure = none)
      (hfile : (w.registry.intern path).1 ∉ w.visited)
      (hload : (w.reach path).load store (w.registry.intern path).1 path = .error failure) :
      Visits store directories path w (depth + 1) { w.register path with failure := some failure }
  | entered {depth : Nat} {entered : Walk} {source : SourceFile} (hunfailed : w.failure = none)
      (hfile : (w.registry.intern path).1 ∉ w.visited)
      (hload : (w.reach path).load store (w.registry.intern path).1 path = .ok (entered, source)) :
      Visits store directories path w (depth + 1)
        ((source.includes.foldl
          (follow store directories depth (w.registry.intern path).1 path) entered).close source)

section Equations

variable {store : σ} {directories : List SourcePath}

theorem visit_of_failure {depth : Nat} {path : SourcePath} {w : Walk}
    (h : w.failure.isSome = true) : visit store directories depth path w = w := by
  rw [visit, if_pos h]

variable {w : Walk} (hunfailed : w.failure = none) {path : SourcePath}

include hunfailed

theorem visit_of_visited (hfile : (w.registry.intern path).1 ∈ w.visited) (depth : Nat) :
    visit store directories depth path w = w.register path := by
  rw [visit, if_neg (by simp [hunfailed])]
  exact if_pos hfile

variable (hfile : (w.registry.intern path).1 ∉ w.visited)

include hfile

theorem visit_of_exhausted :
    visit store directories 0 path w = { w.register path with exhausted := true } := by
  rw [visit, if_neg (by simp [hunfailed])]
  exact if_neg hfile

theorem visit_of_unreadable {failure : RunError}
    (hload : (w.reach path).load store (w.registry.intern path).1 path = .error failure)
    (depth : Nat) :
    visit store directories (depth + 1) path w =
      { w.register path with failure := some failure } := by
  rw [reach] at hload
  rw [visit, if_neg (by simp [hunfailed])]
  dsimp only at hload ⊢
  rw [if_neg hfile, hload]
  rfl

/-- A file that could be loaded is left once its includes were followed. -/
theorem visit_of_loaded {entered : Walk} {source : SourceFile}
    (hload : (w.reach path).load store (w.registry.intern path).1 path = .ok (entered, source))
    (depth : Nat) :
    visit store directories (depth + 1) path w =
      (source.includes.foldl
        (follow store directories depth (w.registry.intern path).1 path) entered).close source := by
  have hfold : ∀ (f : Walk → Include → Walk) (w' : Walk),
      (∀ w' i, f w' i = follow store directories depth (w.registry.intern path).1 path w' i) →
        source.includes.foldl f w' = source.includes.foldl
          (follow store directories depth (w.registry.intern path).1 path) w' := by
    intro f w' hf
    rw [show f = _ from funext fun w' => funext (hf w')]
  rw [reach] at hload
  rw [visit, if_neg (by simp [hunfailed])]
  dsimp only at hload ⊢
  rw [if_neg hfile, hload]
  dsimp only
  rw [hfold]
  · rfl
  intro w' i
  rw [follow]
  split
  · rfl
  · cases i.resolve? store path directories <;> rfl

end Equations

theorem visits_visit (store : σ) (directories : List SourcePath) (depth : Nat) (path : SourcePath)
    (w : Walk) : Visits store directories path w depth (visit store directories depth path w) := by
  cases hfailure : w.failure with
  | some failure =>
      have hfailed : w.failure.isSome = true := by rw [hfailure]; rfl
      rw [visit_of_failure hfailed]
      exact .failed hfailed
  | none =>
      by_cases hfile : (w.registry.intern path).1 ∈ w.visited
      · rw [visit_of_visited hfailure hfile]
        exact .seen hfailure hfile
      · cases depth with
        | zero =>
            rw [visit_of_exhausted hfailure hfile]
            exact .exhausted hfailure hfile
        | succ depth =>
            cases hload : (w.reach path).load store (w.registry.intern path).1 path with
            | error failure =>
                rw [visit_of_unreadable hfailure hfile hload]
                exact .unreadable hfailure hfile hload
            | ok read =>
                rw [visit_of_loaded hfailure hfile hload]
                exact .entered hfailure hfile hload

/-- Loading a file changes nothing but what is loaded. -/
theorem eq_of_load {store : σ} {w entered : Walk} {file : FileId} {path : SourcePath}
    {source : SourceFile} (h : w.load store file path = .ok (entered, source)) :
    ∃ loaded, entered = { w with loaded := loaded } := by
  rw [load] at h
  split at h
  · cases h
    exact ⟨w.loaded, rfl⟩
  · split at h
    · cases h
    · cases h
      exact ⟨_, rfl⟩

@[simp] theorem exhausted_close (w : Walk) (source : SourceFile) :
    (w.close source).exhausted = w.exhausted := by
  rw [close]
  split <;> rfl

/-- What notes and visits keep is kept while includes are followed. -/
theorem foldl_follow_induction {store : σ} {directories : List SourcePath} {depth : Nat}
    {file : FileId} {path : SourcePath} {P : Walk → Prop} (hwarn : ∀ w i, P w → P (w.warn i))
    (hvisit : ∀ w i target, Include.resolve? i store path directories = some target → P w →
      P (visit store directories depth target
        { w with links := w.links.push file (i.path.span, target) }))
    (is : List Include) (w : Walk) (h : P w) :
    P (is.foldl (follow store directories depth file path) w) := by
  induction is generalizing w with
  | nil => exact h
  | cons i is ih =>
      apply ih
      rw [follow]
      split
      · exact h
      · cases hfound : i.resolve? store path directories with
        | none => exact hwarn w i h
        | some target => exact hvisit w i target hfound h

/-! ### More depth changes nothing -/

section Deeper

variable {store : σ} {directories : List SourcePath}

/-- A walk that was exhausted once stays so. -/
theorem exhausted_visit_of_exhausted (depth : Nat) (path : SourcePath) (w : Walk)
    (h : w.exhausted = true) : (visit store directories depth path w).exhausted = true := by
  induction depth using Nat.strongRecOn generalizing path w with
  | ind depth ih =>
      have hvisits := visits_visit store directories depth path w
      generalize visit store directories depth path w = w' at hvisits ⊢
      cases hvisits with
      | failed => exact h
      | seen => exact h
      | exhausted => rfl
      | unreadable => exact h
      | @entered depth entered source _ _ hload =>
          obtain ⟨loaded, rfl⟩ := eq_of_load hload
          rw [exhausted_close]
          exact foldl_follow_induction (P := (·.exhausted = true)) (fun _ _ hw => hw)
            (fun _ _ target _ hw => ih depth (Nat.lt_succ_self depth) target _ hw) _ _ h

section Following

variable {depth more : Nat} {file : FileId} {path : SourcePath}
  (ih : ∀ (target : SourcePath) (w : Walk),
    (visit store directories depth target w).exhausted = false →
      visit store directories (depth + more) target w = visit store directories depth target w)

include ih

theorem follow_of_deeper (w : Walk) (i : Include)
    (h : (follow store directories depth file path w i).exhausted = false) :
    follow store directories (depth + more) file path w i =
      follow store directories depth file path w i := by
  rw [follow] at h ⊢
  rw [follow]
  split at h
  · rename_i hfailed
    rw [if_pos hfailed, if_pos hfailed]
  · rename_i hfailed
    rw [if_neg hfailed, if_neg hfailed]
    cases hfound : i.resolve? store path directories with
    | none => rfl
    | some target =>
        rw [hfound] at h
        exact ih target _ h

theorem foldl_follow_of_deeper (is : List Include) (w : Walk)
    (h : (is.foldl (follow store directories depth file path) w).exhausted = false) :
    is.foldl (follow store directories (depth + more) file path) w =
      is.foldl (follow store directories depth file path) w := by
  induction is generalizing w with
  | nil => rfl
  | cons i is ihs =>
      have hfirst : (follow store directories depth file path w i).exhausted = false := by
        apply Bool.eq_false_iff.mpr
        intro hexhausted
        -- What is exhausted after one include is so after all.
        have hall : ((i :: is).foldl (follow store directories depth file path) w).exhausted =
            true :=
          foldl_follow_induction (P := (·.exhausted = true)) (fun _ _ hw => hw)
            (fun _ _ target _ hw => exhausted_visit_of_exhausted depth target _ hw) is _ hexhausted
        rw [hall] at h
        cases h
      rw [List.foldl_cons, List.foldl_cons, follow_of_deeper ih w i hfirst]
      exact ihs _ h

end Following

/-- A visit that was not exhausted comes to the same with more depth. -/
theorem visit_of_deeper {depth : Nat} (path : SourcePath) (w : Walk)
    (h : (visit store directories depth path w).exhausted = false) (more : Nat) :
    visit store directories (depth + more) path w = visit store directories depth path w := by
  induction depth using Nat.strongRecOn generalizing path w with
  | ind depth ih =>
      have hvisits := visits_visit store directories depth path w
      generalize visit store directories depth path w = w' at hvisits h ⊢
      cases hvisits with
      | failed hfailed => exact visit_of_failure hfailed
      | seen hunfailed hfile => exact visit_of_visited hunfailed hfile _
      | exhausted => cases h
      | @unreadable depth failure hunfailed hfile hload =>
          rw [Nat.add_right_comm]
          exact visit_of_unreadable hunfailed hfile hload _
      | @entered depth entered source hunfailed hfile hload =>
          rw [exhausted_close] at h
          rw [Nat.add_right_comm, visit_of_loaded hunfailed hfile hload,
            foldl_follow_of_deeper (ih depth (Nat.lt_succ_self depth)) _ _ h]

end Deeper

/-! ### There is always depth left -/

/-- The files seen, by shortest spelling. -/
def seen (w : Walk) : List String :=
  w.visited.map w.registry.key

/-- The number of some files that were not seen. -/
def unseen (keys : List String) (w : Walk) : Nat :=
  keys.countP fun key => key ∉ w.seen

/-- The files seen are registered. -/
structure Tracked (w : Walk) : Prop where
  registry : w.registry.Sound
  known : ∀ file ∈ w.visited, w.registry.Knows file

theorem unseen_le {w w' : Walk} (h : ∀ key ∈ w.seen, key ∈ w'.seen) (keys : List String) :
    w'.unseen keys ≤ w.unseen keys := by
  apply List.countP_mono_left
  intro key _ hkey
  exact decide_eq_true fun hmem => of_decide_eq_true hkey (h key hmem)

theorem unseen_lt {w w' : Walk} (h : ∀ key ∈ w.seen, key ∈ w'.seen) {keys : List String}
    {key : String} (hkey : key ∈ keys) (hunseen : key ∉ w.seen) (hseen : key ∈ w'.seen) :
    w'.unseen keys < w.unseen keys := by
  obtain ⟨front, back, rfl⟩ := List.append_of_mem hkey
  have hfront := unseen_le h front
  have hback := unseen_le h back
  rw [unseen, unseen] at hfront hback ⊢
  rw [List.countP_append, List.countP_append, List.countP_cons_of_neg, List.countP_cons_of_pos]
  · omega
  · exact decide_eq_true hunseen
  · simp [hseen]

namespace Tracked

variable {w : Walk} (h : w.Tracked) (path : SourcePath)

include h

/-- A file is passed over exactly if its shortest spelling was seen. -/
theorem intern_mem_visited_iff :
    (w.registry.intern path).1 ∈ w.visited ↔ path.canonical ∈ w.seen := by
  constructor
  · intro hmem
    obtain ⟨-, hregistry, -, hkey⟩ := Registry.intern_spec h.registry path
    refine List.mem_map.mpr ⟨_, hmem, ?_⟩
    rw [← Registry.key_mono hregistry (h.known _ hmem), hkey]
  · intro hseen
    obtain ⟨file, hfile, hkey⟩ := List.mem_map.mp hseen
    rw [Registry.intern_of_knows h.registry (h.known file hfile) hkey]
    exact hfile

theorem register : (w.register path).Tracked := by
  obtain ⟨hsound, hregistry, -⟩ := Registry.intern_spec h.registry path
  exact ⟨hsound, fun file hfile => Registry.knows_mono hregistry (h.known file hfile)⟩

theorem reach : (w.reach path).Tracked := by
  obtain ⟨hsound, hregistry, hknows, -⟩ := Registry.intern_spec h.registry path
  refine ⟨hsound, fun file hfile => ?_⟩
  rcases List.mem_append.mp hfile with hfile | hfile
  · exact Registry.knows_mono hregistry (h.known file hfile)
  · exact List.mem_singleton.mp hfile ▸ hknows

theorem seen_reach : (w.reach path).seen = w.seen ++ [path.canonical] := by
  obtain ⟨-, hregistry, -, hkey⟩ := Registry.intern_spec h.registry path
  rw [seen, Walk.reach, List.map_append, List.map_singleton, hkey, seen]
  congr 1
  exact List.map_congr_left fun file hfile => Registry.key_mono hregistry (h.known file hfile)

/-- Entering one of some files that was not seen leaves fewer of them. -/
theorem unseen_reach_lt {keys : List String} (hkey : path.canonical ∈ keys)
    (hunseen : path.canonical ∉ w.seen) : (w.reach path).unseen keys < w.unseen keys := by
  refine unseen_lt (fun key hseen => ?_) hkey hunseen ?_
  · rw [h.seen_reach path]
    exact List.mem_append_left _ hseen
  · rw [h.seen_reach path]
    exact List.mem_append_right _ (List.mem_singleton_self _)

end Tracked

/-- A part of a walk that was not exhausted. -/
structure Proceeds (w w' : Walk) : Prop where
  tracked : w'.Tracked
  seen : ∀ key ∈ w.seen, key ∈ w'.seen
  exhausted : w'.exhausted = w.exhausted

namespace Proceeds

variable {w w' w'' : Walk}

theorem refl (h : w.Tracked) : Proceeds w w :=
  ⟨h, fun _ => id, rfl⟩

theorem trans (h : Proceeds w w') (h' : Proceeds w' w'') : Proceeds w w'' where
  tracked := h'.tracked
  seen key hkey := h'.seen key (h.seen key hkey)
  exhausted := h'.exhausted.trans h.exhausted

theorem register (h : w.Tracked) (path : SourcePath) : Proceeds w (w.register path) := by
  obtain ⟨-, hregistry, -⟩ := Registry.intern_spec h.registry path
  refine ⟨h.register path, fun key hkey => ?_, rfl⟩
  obtain ⟨file, hfile, rfl⟩ := List.mem_map.mp hkey
  exact List.mem_map.mpr ⟨file, hfile, Registry.key_mono hregistry (h.known file hfile)⟩

theorem reach (h : w.Tracked) (path : SourcePath) : Proceeds w (w.reach path) := by
  refine ⟨h.reach path, fun key hkey => ?_, rfl⟩
  rw [h.seen_reach path]
  exact List.mem_append_left _ hkey

/-- What is loaded, found or noted, and whether the walk fails, does not matter. -/
theorem of_eq (h : Proceeds w w') (hregistry : w''.registry = w'.registry)
    (hvisited : w''.visited = w'.visited) (hexhausted : w''.exhausted = w'.exhausted) :
    Proceeds w w'' where
  tracked := ⟨hregistry ▸ h.tracked.registry, by
    rw [hregistry, hvisited]
    exact h.tracked.known⟩
  seen := by
    rw [Walk.seen, Walk.seen, hregistry, hvisited]
    exact h.seen
  exhausted := hexhausted.trans h.exhausted

theorem close (h : Proceeds w w') (source : SourceFile) : Proceeds w (w'.close source) := by
  rw [Walk.close]
  split
  · exact h
  · exact h.of_eq rfl rfl rfl

end Proceeds

section Depth

variable {store : σ} {directories : List SourcePath} {keys : List String}

/-- A file that is entered leaves enough depth for its includes, if it is one of those not seen or
there is depth to spare. -/
theorem proceeds_visit_succ {depth : Nat}
    (ih : ∀ (target : SourcePath) (w : Walk), w.Tracked → Store.isFile store target = true →
      w.unseen keys ≤ depth → Proceeds w (visit store directories depth target w))
    (path : SourcePath) (w : Walk) (h : w.Tracked)
    (hdepth : path.canonical ∉ w.seen → (w.reach path).unseen keys ≤ depth) :
    Proceeds w (visit store directories (depth + 1) path w) := by
  have hvisits := visits_visit store directories (depth + 1) path w
  generalize visit store directories (depth + 1) path w = w' at hvisits ⊢
  cases hvisits with
  | failed => exact .refl h
  | seen => exact .register h path
  | unreadable => exact (Proceeds.register h path).of_eq rfl rfl rfl
  | @entered _ entered source _ hfile hload =>
      obtain ⟨loaded, rfl⟩ := eq_of_load hload
      have hreach : Proceeds w { w.reach path with loaded := loaded } :=
        (Proceeds.reach h path).of_eq rfl rfl rfl
      have hfew := hdepth ((h.intern_mem_visited_iff path).not.mp hfile)
      refine (hreach.trans ?_).close source
      refine foldl_follow_induction (P := Proceeds _) (fun w' i hw' => hw'.of_eq rfl rfl rfl)
        (fun w' i target hfound hw' => ?_) source.includes _ (.refl hreach.tracked)
      have hlinked : Proceeds { w.reach path with loaded := loaded }
          { w' with links := w'.links.push (w.registry.intern path).1 (i.path.span, target) } :=
        hw'.of_eq rfl rfl rfl
      exact hlinked.trans (ih target _ hlinked.tracked (List.find?_some hfound)
        (Nat.le_trans (unseen_le hlinked.seen keys) hfew))

variable (hkeys : ∀ p, Store.isFile store p = true → p.canonical ∈ keys)

include hkeys

/-- A file of the store is visited in full if there is depth for all that were not seen. -/
theorem proceeds_visit (depth : Nat) (path : SourcePath) (w : Walk) (h : w.Tracked)
    (hfile : Store.isFile store path = true) (hdepth : w.unseen keys ≤ depth) :
    Proceeds w (visit store directories depth path w) := by
  induction depth generalizing path w with
  | zero =>
      have hseen : path.canonical ∈ w.seen := by
        have hnone := List.countP_eq_zero.mp (Nat.le_zero.mp hdepth) _ (hkeys path hfile)
        simpa using hnone
      have hvisits := visits_visit store directories 0 path w
      generalize visit store directories 0 path w = w' at hvisits ⊢
      cases hvisits with
      | failed => exact .refl h
      | seen => exact .register h path
      | exhausted _ hunseen => exact absurd ((h.intern_mem_visited_iff path).mpr hseen) hunseen
  | succ depth ih =>
      refine proceeds_visit_succ ih path w h fun hunseen => Nat.le_of_lt_succ ?_
      exact Nat.lt_of_lt_of_le (h.unseen_reach_lt path (hkeys path hfile) hunseen) hdepth

/-- With depth for one file more the first may be any. -/
theorem proceeds_visit_of_lt {depth : Nat} (path : SourcePath) (w : Walk) (h : w.Tracked)
    (hdepth : w.unseen keys < depth) : Proceeds w (visit store directories depth path w) := by
  obtain ⟨depth, rfl⟩ := Nat.exists_eq_add_one_of_ne_zero (Nat.ne_zero_of_lt hdepth)
  refine proceeds_visit_succ (proceeds_visit hkeys depth) path w h fun _ => ?_
  exact Nat.le_trans (unseen_le (Proceeds.reach h path).seen keys) (Nat.le_of_lt_succ hdepth)

theorem proceeds_visits {depth : Nat} (paths : List SourcePath) (w : Walk) (h : w.Tracked)
    (hdepth : w.unseen keys < depth) :
    Proceeds w (paths.foldl (fun w p => w.visit store directories depth p) w) := by
  induction paths generalizing w with
  | nil => exact .refl h
  | cons p paths ih =>
      have hfirst : Proceeds w (w.visit store directories depth p) :=
        proceeds_visit_of_lt hkeys p w h hdepth
      exact hfirst.trans
        (ih _ hfirst.tracked (Nat.lt_of_le_of_lt (unseen_le hfirst.seen keys) hdepth))

theorem visits_of_deeper {depth : Nat} (paths : List SourcePath) (w : Walk) (h : w.Tracked)
    (hexhausted : w.exhausted = false) (hdepth : w.unseen keys < depth) (more : Nat) :
    paths.foldl (fun w p => w.visit store directories (depth + more) p) w =
      paths.foldl (fun w p => w.visit store directories depth p) w := by
  induction paths generalizing w with
  | nil => rfl
  | cons p paths ih =>
      have hfirst : Proceeds w (w.visit store directories depth p) :=
        proceeds_visit_of_lt hkeys p w h hdepth
      have hunexhausted := hfirst.exhausted.trans hexhausted
      rw [List.foldl_cons, List.foldl_cons, visit_of_deeper p w hunexhausted more]
      exact ih _ hfirst.tracked hunexhausted
        (Nat.lt_of_le_of_lt (unseen_le hfirst.seen keys) hdepth)

end Depth

theorem tracked_start {registry : Registry} (h : registry.Sound) (loaded : Table FileId Loaded) :
    (start registry loaded).Tracked :=
  ⟨h, by simp [start]⟩

end Walk

namespace Workspace

variable {σ : Type} [Store σ] [LawfulStore σ] {ws : Workspace σ} (h : ws.registry.Sound)

include h

/-- No walk is exhausted, whatever is loaded and whether or not it fails. -/
theorem exhausted_walk : ws.walk.exhausted = false := by
  obtain ⟨keys, hlength, hkeys⟩ := LawfulStore.exists_keys ws.store
  refine (Walk.proceeds_visits hkeys ws.entryPaths _ (Walk.tracked_start h ws.loaded) ?_).exhausted
  exact Nat.lt_succ_of_le (Nat.le_trans List.countP_le_length hlength)

/-- With more depth a walk comes to the same. -/
theorem walk_of_deeper {depth : Nat} (hdepth : Store.extent ws.store < depth) :
    ws.entryPaths.foldl (fun w p => w.visit ws.store ws.settings.includePaths depth p)
      (.start ws.registry ws.loaded) = ws.walk := by
  obtain ⟨keys, hlength, hkeys⟩ := LawfulStore.exists_keys ws.store
  obtain ⟨more, rfl⟩ := Nat.exists_eq_add_of_le (Nat.succ_le_of_lt hdepth)
  apply Walk.visits_of_deeper hkeys ws.entryPaths _ (Walk.tracked_start h ws.loaded) rfl
  exact Nat.lt_succ_of_le (Nat.le_trans List.countP_le_length hlength)

end Workspace

end Devicetree
