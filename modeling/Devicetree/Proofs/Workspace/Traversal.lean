import Mathlib.Data.List.Nodup
import Mathlib.Logic.Relation

/-!
# Depth-first traversals

A traversal goes through vertices one by one, past those seen before, and leaves each after it went
through all that follow it. Whatever the graph, the vertices left are those within reach, each once,
and a vertex comes after all that follow it, except those it is itself within reach of.
-/

namespace Devicetree

variable {α : Type} (next : α → List α)

/-- A vertex is reached by following any number of edges. -/
def Reaches : α → α → Prop :=
  Relation.ReflTransGen fun u v => v ∈ next u

/-- A traversal through some vertices, with the vertices seen and those left, in order, before it
and after it. -/
inductive Traverses : List α → List α → List α → List α → List α → Prop
  | done {seen order : List α} : Traverses [] seen order seen order
  | skip {v : α} {vs seen order seen' order' : List α} (hv : v ∈ seen)
      (h : Traverses vs seen order seen' order') : Traverses (v :: vs) seen order seen' order'
  | enter {v : α} {vs seen order mid left seen' order' : List α} (hv : v ∉ seen)
      (hinner : Traverses (next v) (seen ++ [v]) order mid left)
      (houter : Traverses vs mid (left ++ [v]) seen' order') :
      Traverses (v :: vs) seen order seen' order'

/-- One vertex stands before another in an order. -/
def Precedes (order : List α) (u v : α) : Prop :=
  ∃ front back, order = front ++ v :: back ∧ u ∈ front

theorem Precedes.append {order : List α} {u v : α} (h : Precedes order u v) (more : List α) :
    Precedes (order ++ more) u v := by
  obtain ⟨front, back, rfl, hu⟩ := h
  exact ⟨front, back ++ more, by rw [List.append_assoc, List.cons_append], hu⟩

namespace Traverses

variable {next} {vs seen order seen' order' : List α}

/-- A traversal may be taken up where another ended. -/
theorem append {vs' seen'' order'' : List α} (h : Traverses next vs seen order seen' order')
    (h' : Traverses next vs' seen' order' seen'' order'') :
    Traverses next (vs ++ vs') seen order seen'' order'' := by
  induction h with
  | done => exact h'
  | skip hv _ ih => exact .skip hv (ih h')
  | enter hv hinner _ _ ih => exact .enter hv hinner (ih h')

/-- The vertices left are new ones, each once, and no other is seen for good. -/
theorem exists_new (h : Traverses next vs seen order seen' order') :
    ∃ new, order' = order ++ new ∧ new.Nodup ∧ (∀ x ∈ new, x ∉ seen) ∧
      ∀ x, x ∈ seen' ↔ x ∈ seen ∨ x ∈ new := by
  induction h with
  | done => exact ⟨[], (List.append_nil _).symm, List.nodup_nil, by simp, by simp⟩
  | skip _ _ ih => exact ih
  | @enter v vs seen order mid left seen' order' hv _ _ ihinner ihouter =>
      obtain ⟨inner, rfl, hinner, hunseen, hmid⟩ := ihinner
      obtain ⟨outer, rfl, houter, hunseen', hseen'⟩ := ihouter
      refine ⟨inner ++ v :: outer, by simp, ?_, ?_, ?_⟩
      · rw [List.nodup_append, List.nodup_cons]
        refine ⟨hinner, ⟨fun hmem => hunseen' v hmem ?_, houter⟩, fun x hx y hy hxy => ?_⟩
        · exact (hmid v).mpr (.inl (by simp))
        · subst hxy
          rcases List.mem_cons.mp hy with rfl | hy
          · exact hunseen x hx (by simp)
          · exact hunseen' x hy ((hmid x).mpr (.inr hx))
      · intro x hx hseen
        rcases List.mem_append.mp hx with hx | hx
        · exact hunseen x hx (by simp [hseen])
        · rcases List.mem_cons.mp hx with rfl | hx
          · exact hv hseen
          · exact hunseen' x hx ((hmid x).mpr (.inl (by simp [hseen])))
      · intro x
        rw [hseen', hmid]
        simp only [List.mem_append, List.mem_cons, List.not_mem_nil, or_false]
        tauto

theorem seen_subset (h : Traverses next vs seen order seen' order') {x : α} (hx : x ∈ seen) :
    x ∈ seen' := by
  obtain ⟨new, -, -, -, hseen⟩ := h.exists_new
  exact (hseen x).mpr (.inl hx)

theorem order_subset (h : Traverses next vs seen order seen' order') {x : α} (hx : x ∈ order) :
    x ∈ order' := by
  obtain ⟨new, rfl, -⟩ := h.exists_new
  exact List.mem_append_left _ hx

/-- A vertex that was seen and not left stays so, and no other becomes so. -/
theorem open_iff (h : Traverses next vs seen order seen' order') {x : α} (hx : x ∉ order') :
    x ∈ seen' ↔ x ∈ seen := by
  obtain ⟨new, rfl, -, -, hseen⟩ := h.exists_new
  rw [hseen]
  exact or_iff_left fun hnew => hx (List.mem_append_right _ hnew)

theorem mem_seen (h : Traverses next vs seen order seen' order') : ∀ v ∈ vs, v ∈ seen' := by
  induction h with
  | done => simp
  | skip hv h ih => exact List.forall_mem_cons.mpr ⟨h.seen_subset hv, ih⟩
  | enter _ hinner houter _ ih =>
      exact List.forall_mem_cons.mpr ⟨houter.seen_subset (hinner.seen_subset (by simp)), ih⟩

/-- What was left is within reach of the vertices gone through. -/
theorem reaches_of_mem (h : Traverses next vs seen order seen' order') :
    ∀ x ∈ order', x ∈ order ∨ ∃ v ∈ vs, Reaches next v x := by
  induction h with
  | done => exact fun x hx => .inl hx
  | skip _ _ ih =>
      intro x hx
      exact (ih x hx).imp_right fun ⟨v, hv, hreach⟩ => ⟨v, List.mem_cons_of_mem _ hv, hreach⟩
  | @enter v vs seen order mid left seen' order' _ _ _ ihinner ihouter =>
      intro x hx
      rcases ihouter x hx with hx | ⟨u, hu, hreach⟩
      · rcases List.mem_append.mp hx with hx | hx
        · rcases ihinner x hx with hx | ⟨u, hu, hreach⟩
          · exact .inl hx
          · exact .inr ⟨v, List.mem_cons_self, .head hu hreach⟩
        · obtain rfl := List.mem_singleton.mp hx
          exact .inr ⟨x, List.mem_cons_self, .refl⟩
      · exact .inr ⟨u, List.mem_cons_of_mem _ hu, hreach⟩

/-- All that follows a vertex is seen once that vertex is left. -/
theorem next_seen (h : Traverses next vs seen order seen' order')
    (hbefore : ∀ x ∈ order, ∀ y ∈ next x, y ∈ seen) : ∀ x ∈ order', ∀ y ∈ next x, y ∈ seen' := by
  induction h with
  | done => exact hbefore
  | skip _ _ ih => exact ih hbefore
  | @enter v vs seen order mid left seen' order' _ hinner _ ihinner ihouter =>
      have hleft := ihinner fun x hx y hy => List.mem_append_left _ (hbefore x hx y hy)
      refine ihouter fun x hx y hy => ?_
      rcases List.mem_append.mp hx with hx | hx
      · exact hleft x hx y hy
      · obtain rfl := List.mem_singleton.mp hx
        exact hinner.mem_seen y hy

/-- The law of the order: what follows a vertex comes before it or has it within reach. -/
def Ordered (next : α → List α) (order : List α) : Prop :=
  ∀ x ∈ order, ∀ y ∈ next x, Precedes order y x ∨ Reaches next y x

/-- The law is kept if the vertices seen and not left yet have those gone through within reach. -/
theorem ordered (h : Traverses next vs seen order seen' order')
    (hopen : ∀ o ∈ seen, o ∉ order → ∀ v ∈ vs, Reaches next o v) (hbefore : Ordered next order) :
    Ordered next order' := by
  induction h with
  | done => exact hbefore
  | skip _ _ ih =>
      exact ih (fun o ho ho' v hv => hopen o ho ho' v (List.mem_cons_of_mem _ hv)) hbefore
  | @enter v vs seen order mid left seen' order' _ hinner _ ihinner ihouter =>
      have hopenv : ∀ o ∈ seen, o ∉ order → Reaches next o v :=
        fun o ho ho' => hopen o ho ho' v List.mem_cons_self
      have hleft : Ordered next left := by
        refine ihinner (fun o ho ho' y hy => ?_) hbefore
        rcases List.mem_append.mp ho with ho | ho
        · exact (hopenv o ho ho').tail hy
        · obtain rfl := List.mem_singleton.mp ho
          exact .single hy
      -- What follows `v` was left before it, or was open when `v` was entered.
      have hv : Ordered next (left ++ [v]) := by
        intro x hx y hy
        rcases List.mem_append.mp hx with hx | hx
        · exact (hleft x hx y hy).imp_left fun h => h.append _
        · obtain rfl := List.mem_singleton.mp hx
          by_cases hleft : y ∈ left
          · exact .inl ⟨left, [], rfl, hleft⟩
          · refine .inr ?_
            have hseen := (hinner.open_iff hleft).mp (hinner.mem_seen y hy)
            rcases List.mem_append.mp hseen with hseen | hseen
            · exact hopenv y hseen fun h => hleft (hinner.order_subset h)
            · obtain rfl := List.mem_singleton.mp hseen
              exact .refl
      refine ihouter (fun o ho ho' u hu => ?_) hv
      rw [List.mem_append, List.mem_singleton, not_or] at ho'
      have hseen := (hinner.open_iff ho'.1).mp ho
      rcases List.mem_append.mp hseen with hseen | hseen
      · exact hopen o hseen (fun h => ho'.1 (hinner.order_subset h)) u (List.mem_cons_of_mem _ hu)
      · exact absurd (List.mem_singleton.mp hseen) ho'.2

section Whole

variable {order : List α} (h : Traverses next vs [] [] seen order)

include h

theorem nodup : order.Nodup := by
  obtain ⟨new, rfl, hnew, -⟩ := h.exists_new
  exact hnew

theorem mem_order_iff_seen {x : α} : x ∈ order ↔ x ∈ seen := by
  obtain ⟨new, rfl, -, -, hseen⟩ := h.exists_new
  rw [hseen]
  exact (or_iff_right List.not_mem_nil).symm

/-- A traversal from nothing leaves exactly what is within reach. -/
theorem mem_order_iff {x : α} : x ∈ order ↔ ∃ v ∈ vs, Reaches next v x := by
  constructor
  · intro hx
    exact (h.reaches_of_mem x hx).resolve_left List.not_mem_nil
  · rintro ⟨v, hv, hreach⟩
    induction hreach with
    | refl => exact h.mem_order_iff_seen.mpr (h.mem_seen v hv)
    | tail _ hnext ih =>
        exact h.mem_order_iff_seen.mpr (h.next_seen (by simp) _ ih _ hnext)

theorem ordered_of_start : Ordered next order :=
  h.ordered (by simp) fun x hx => absurd hx List.not_mem_nil

end Whole

end Traverses

end Devicetree
