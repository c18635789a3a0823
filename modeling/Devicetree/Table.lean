/-!
# Ordered tables

A table maps keys to values and keeps the order in which its keys first came. Writing to a
present key keeps its place; erasing a key closes the gap it leaves.
-/

namespace Devicetree

/-- Keys and values in the order in which the keys first came. -/
structure Table (κ ν : Type) where
  entries : List (κ × ν)
deriving Repr

namespace Table

variable {κ ν : Type} [DecidableEq κ]

def empty : Table κ ν := ⟨[]⟩

instance : Inhabited (Table κ ν) := ⟨empty⟩

/-- The value of the first entry under a key. -/
def lookup? (k : κ) : List (κ × ν) → Option ν
  | [] => none
  | e :: es => if e.1 = k then some e.2 else lookup? k es

def get? (t : Table κ ν) (k : κ) : Option ν :=
  lookup? k t.entries

def contains (t : Table κ ν) (k : κ) : Bool :=
  (t.get? k).isSome

def keys (t : Table κ ν) : List κ :=
  t.entries.map (·.1)

def values (t : Table κ ν) : List ν :=
  t.entries.map (·.2)

/-- The entries after writing `v` at `k`: in place if `k` is there, at the end if not. -/
def insertEntry (k : κ) (v : ν) : List (κ × ν) → List (κ × ν)
  | [] => [(k, v)]
  | e :: es => if e.1 = k then (k, v) :: es else e :: insertEntry k v es

def insert (t : Table κ ν) (k : κ) (v : ν) : Table κ ν :=
  ⟨insertEntry k v t.entries⟩

def erase (t : Table κ ν) (k : κ) : Table κ ν :=
  ⟨t.entries.filter (·.1 ≠ k)⟩

/-- The entries whose value passes the test. -/
def filterValues (t : Table κ ν) (p : ν → Bool) : Table κ ν :=
  ⟨t.entries.filter (p ·.2)⟩

/-- Adds a value to the list kept under a key. -/
def push (t : Table κ (List ν)) (k : κ) (v : ν) : Table κ (List ν) :=
  t.insert k ((t.get? k).getD [] ++ [v])

@[simp] theorem get?_empty (k : κ) : (empty : Table κ ν).get? k = none := rfl

theorem lookup?_insertEntry (k k' : κ) (v : ν) (es : List (κ × ν)) :
    lookup? k' (insertEntry k v es) = if k = k' then some v else lookup? k' es := by
  induction es with
  | nil => simp [insertEntry, lookup?]
  | cons e es ih => grind [insertEntry, lookup?]

theorem get?_insert (t : Table κ ν) (k k' : κ) (v : ν) :
    (t.insert k v).get? k' = if k = k' then some v else t.get? k' :=
  lookup?_insertEntry k k' v t.entries

theorem lookup?_filter_ne (k k' : κ) (es : List (κ × ν)) :
    lookup? k' (es.filter (·.1 ≠ k)) = if k = k' then none else lookup? k' es := by
  induction es with
  | nil => simp [lookup?]
  | cons e es ih => grind [lookup?]

theorem get?_erase (t : Table κ ν) (k k' : κ) :
    (t.erase k).get? k' = if k = k' then none else t.get? k' :=
  lookup?_filter_ne k k' t.entries

theorem mem_of_lookup? {k : κ} {v : ν} {es : List (κ × ν)} (h : lookup? k es = some v) :
    (k, v) ∈ es := by
  induction es with
  | nil => cases h
  | cons e es ih =>
    unfold lookup? at h
    split at h
    · rename_i he
      cases h
      exact he ▸ List.mem_cons_self
    · exact List.mem_cons_of_mem _ (ih h)

theorem mem_of_get? {t : Table κ ν} {k : κ} {v : ν} (h : t.get? k = some v) :
    (k, v) ∈ t.entries :=
  mem_of_lookup? h

/-- A present key has one place where it comes first, and writing changes that place alone. -/
theorem exists_split_of_lookup? {k : κ} {v : ν} {es : List (κ × ν)} (h : lookup? k es = some v) :
    ∃ front back, es = front ++ (k, v) :: back ∧ (∀ e ∈ front, e.1 ≠ k) ∧
      ∀ w, insertEntry k w es = front ++ (k, w) :: back := by
  induction es with
  | nil => cases h
  | cons e es ih =>
    unfold lookup? at h
    split at h
    · rename_i he
      cases h
      subst he
      exact ⟨[], es, rfl, by simp, fun w => if_pos rfl⟩
    · rename_i he
      obtain ⟨front, back, rfl, hfront, hinsert⟩ := ih h
      refine ⟨e :: front, back, rfl, ?_, fun w => ?_⟩
      · intro d hd
        rcases List.mem_cons.mp hd with rfl | hd
        · exact he
        · exact hfront d hd
      · rw [insertEntry, if_neg he, hinsert w, List.cons_append]

/-- Writing to a key that is not there adds it at the end. -/
theorem insertEntry_of_lookup?_none {k : κ} {es : List (κ × ν)} (h : lookup? k es = none) :
    (∀ e ∈ es, e.1 ≠ k) ∧ ∀ w, insertEntry k w es = es ++ [(k, w)] := by
  induction es with
  | nil => exact ⟨by simp, fun _ => rfl⟩
  | cons e es ih =>
    unfold lookup? at h
    split at h
    · cases h
    · rename_i he
      obtain ⟨hes, hinsert⟩ := ih h
      refine ⟨fun d hd => ?_, fun w => ?_⟩
      · rcases List.mem_cons.mp hd with rfl | hd
        · exact he
        · exact hes d hd
      · rw [insertEntry, if_neg he, hinsert w, List.cons_append]

theorem mem_insertEntry {k : κ} {v : ν} {e : κ × ν} {es : List (κ × ν)}
    (h : e ∈ insertEntry k v es) : e = (k, v) ∨ e ∈ es := by
  induction es with
  | nil => exact .inl (List.mem_singleton.mp h)
  | cons d es ih =>
    unfold insertEntry at h
    split at h
    · rcases List.mem_cons.mp h with h | h
      · exact .inl h
      · exact .inr (List.mem_cons_of_mem _ h)
    · rcases List.mem_cons.mp h with h | h
      · exact .inr (h ▸ List.mem_cons_self)
      · exact (ih h).imp_right (List.mem_cons_of_mem _)

theorem self_mem_insertEntry (k : κ) (v : ν) (es : List (κ × ν)) :
    (k, v) ∈ insertEntry k v es := by
  induction es with
  | nil => exact List.mem_singleton_self _
  | cons e es ih =>
    unfold insertEntry
    split
    · exact List.mem_cons_self
    · exact List.mem_cons_of_mem _ ih

theorem mem_entries_insert {t : Table κ ν} {k : κ} {v : ν} {e : κ × ν}
    (h : e ∈ (t.insert k v).entries) : e = (k, v) ∨ e ∈ t.entries :=
  mem_insertEntry h

end Table

end Devicetree
