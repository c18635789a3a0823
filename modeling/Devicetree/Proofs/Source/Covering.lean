import Devicetree.Proofs.Source.Elements
import Devicetree.Proofs.Source.Numbering

/-!
# The elements at a position

Looking up a position goes down from the statements of a file and takes at every level the last
part that covers the position. Parts of one element follow one another, so a part with the position
strictly between its ends is the only one to cover it, and the same is true of all elements around
it. The way down therefore passes through every such element, at whatever depth.
-/

namespace Devicetree

/-- Whether a position lies between the ends of a span, neither of them included. -/
def Span.Surrounds (s : Span) (p : Position) : Prop :=
  s.startPos < p ∧ p < s.stopPos

namespace Element

variable {file : FileId} {text : Text} {p : Position} {e c : Element} {es chain : List Element}

/-- The last of some elements to cover a position. -/
def LastCovering (file : FileId) (p : Position) (es : List Element) (e : Element) : Prop :=
  ∃ before after, es = before ++ e :: after ∧ e.span.covers file p = true ∧
    ∀ d ∈ after, d.span.covers file p = false

theorem lastCovering_of_some (h : lastCovering? file p es = some e) :
    LastCovering file p es e := by
  obtain ⟨hcovers, after, before, hsplit, hafter⟩ := List.find?_eq_some_iff_append.mp h
  refine ⟨before.reverse, after.reverse, ?_, hcovers, fun d hd => ?_⟩
  · rw [← List.reverse_reverse es, hsplit, List.reverse_append, List.reverse_cons,
      List.append_assoc, List.singleton_append]
  · simpa using hafter d (List.mem_reverse.mp hd)

theorem not_covers_of_none (h : lastCovering? file p es = none) :
    ∀ e ∈ es, e.span.covers file p = false := by
  intro e he
  simpa using List.find?_eq_none.mp h e (List.mem_reverse.mpr he)

/-- A way down from some elements: it takes the last one to cover a position, goes on among the
parts of that one, and stops where none covers the position. -/
inductive Descent (file : FileId) (p : Position) : List Element → List Element → Prop
  | stop {es : List Element} (h : ∀ e ∈ es, e.span.covers file p = false) : Descent file p es []
  | step {es chain : List Element} {e : Element} (h : LastCovering file p es e)
      (rest : Descent file p e.children chain) : Descent file p es (e :: chain)

theorem descent_chain (h : LastCovering file p es e) : Descent file p es (e.chain file p) := by
  induction hn : sizeOf e using Nat.strongRecOn generalizing e es with
  | ind n ih =>
      rw [chain]
      refine .step h ?_
      split
      · rename_i hnone
        exact .stop (not_covers_of_none hnone)
      · rename_i child hchild
        have smaller := sizeOf_lt_of_mem_children (mem_of_lastCovering? hchild)
        exact ih _ (hn ▸ smaller) (lastCovering_of_some hchild) rfl

/-- What is met on a way down is part of where it began. -/
theorem Descent.holds (h : Descent file p es chain) : ∀ c ∈ chain, ∃ e ∈ es, e.Holds c := by
  induction h with
  | stop _ => exact List.forall_mem_nil _
  | @step es chain e h _ ih =>
      obtain ⟨before, after, rfl, -, -⟩ := h
      have he : e ∈ before ++ e :: after := List.mem_append_right _ List.mem_cons_self
      refine List.forall_mem_cons.mpr ⟨⟨e, he, .refl⟩, fun c hc => ?_⟩
      obtain ⟨d, hd, hholds⟩ := ih c hc
      exact ⟨e, he, .head hd hholds⟩

/-! ### Elements around a position -/

/-- Of elements in a row, one that surrounds a position is the only one to cover it. -/
theorem eq_of_surrounds {lo hi : Edge} (hrow : Span.Row file lo hi (es.map span)) (he : e ∈ es)
    (hp : e.span.Surrounds p) {d : Element} (hd : d ∈ es) (hcovers : d.span.covers file p = true) :
    d = e := by
  obtain ⟨-, hfirst, hlast⟩ := Span.covers_iff.mp hcovers
  obtain ⟨before, after, rfl⟩ := List.append_of_mem he
  obtain ⟨-, hafter, hbefore⟩ := List.pairwise_append.mp (List.pairwise_map.mp hrow.ordered)
  rcases List.mem_append.mp hd with hd | hd
  · -- An element before ends before the position.
    have hle := (hbefore d hd e List.mem_cons_self).2
    exact absurd (Position.le_trans hlast hle) (Position.lt_iff_not_le.mp hp.1)
  · rcases List.mem_cons.mp hd with rfl | hd
    · rfl
    · have hle := ((List.pairwise_cons.mp hafter).1 d hd).2
      exact absurd (Position.le_trans hle hfirst) (Position.lt_iff_not_le.mp hp.2)

/-- The way down from elements in a row takes the one that surrounds the position. -/
theorem Descent.takes {lo hi : Edge} (h : Descent file p es chain)
    (hrow : Span.Row file lo hi (es.map span)) (he : e ∈ es) (hp : e.span.Surrounds p) :
    ∃ rest, chain = e :: rest ∧ Descent file p e.children rest := by
  have hfile := (hrow.within e.span (List.mem_map_of_mem he)).file_eq
  have hcovers : e.span.covers file p = true :=
    Span.covers_iff.mpr ⟨hfile, Position.le_of_lt hp.1, Position.le_of_lt hp.2⟩
  cases h with
  | stop hnone =>
      rw [hnone e he] at hcovers
      cases hcovers
  | @step _ rest d hlast hrest =>
      obtain ⟨before, after, rfl, hd, -⟩ := hlast
      have heq := eq_of_surrounds hrow he hp (List.mem_append_right _ List.mem_cons_self) hd
      subst heq
      exact ⟨rest, rfl, hrest⟩

/-- What a part surrounds, the whole surrounds. -/
theorem surrounds_of_holds (hlaid : e.LaidOut file text) (h : e.Holds c)
    (hp : c.span.Surrounds p) : e.span.Surrounds p := by
  induction h with
  | refl => exact hp
  | @tail b c hb hc ih =>
      have hwithin := (hlaid b hb).row.within c.span (List.mem_map_of_mem hc)
      exact ih ⟨Position.lt_of_le_of_lt hwithin.lo_le.2 hp.1,
        Position.lt_of_lt_of_le hp.2 hwithin.le_hi.2⟩

/-- The way down passes through every element that surrounds the position. -/
theorem Descent.mem {lo hi : Edge} (h : Descent file p es chain) (hrow : Row file text lo hi es)
    (he : e ∈ es) (hholds : e.Holds c) (hp : c.span.Surrounds p) : c ∈ chain := by
  induction hholds using Relation.ReflTransGen.head_induction_on generalizing es chain lo hi with
  | refl =>
      obtain ⟨rest, rfl, -⟩ := h.takes hrow.row he hp
      exact List.mem_cons_self
  | @head e d hd hrest ih =>
      have hlaid := hrow.laidOut e he
      have hwhole := surrounds_of_holds hlaid (.head hd hrest) hp
      obtain ⟨rest, rfl, hdescent⟩ := h.takes hrow.row he hwhole
      have hparts : Row file text e.span.first e.span.last e.children :=
        ⟨(hlaid e .refl).row, (laidOut_iff.mp hlaid).2⟩
      exact List.mem_cons_of_mem _ (ih hdescent hparts hd)

/-! ### Statements among the elements -/

theorem statement_of_mem_children {s : Statement} (h : .statement s ∈ e.children) :
    ∃ head body, e = .statement (.block head body) ∧ s ∈ body := by
  have hblock : ∀ target : BlockTarget, statement s ≠ ofBlockTarget target := by
    intro target
    cases target <;> exact nofun
  have hdelete : ∀ target : DeleteTarget, statement s ≠ ofDeleteTarget target := by
    intro target
    cases target <;> exact nofun
  unfold children at h
  split at h <;> simp [hblock, hdelete] at h
  exact ⟨_, _, rfl, h⟩

/-- Only statements hold statements, and those are the statements below them. -/
theorem mem_all_of_holds {s : Statement} (h : e.Holds (.statement s)) :
    ∃ t, e = .statement t ∧ s ∈ t.all := by
  induction h using Relation.ReflTransGen.head_induction_on with
  | refl => exact ⟨s, rfl, s.self_mem_all⟩
  | @head e d hd _ ih =>
      obtain ⟨t, rfl, ht⟩ := ih
      obtain ⟨head, body, rfl, hbody⟩ := statement_of_mem_children hd
      refine ⟨_, rfl, ?_⟩
      rw [Statement.all_block]
      exact List.mem_cons_of_mem _ (Statement.mem_allIn.mpr ⟨t, hbody, ht⟩)

end Element

namespace SourceFile

/-- The elements at a position are the way down from the statements of the file. -/
theorem descent_ancestry (f : SourceFile) (p : Position) :
    Element.Descent f.file p (f.statements.map .statement) (f.ancestry p) := by
  unfold ancestry
  split
  · rename_i hnone
    exact .stop (Element.not_covers_of_none hnone)
  · rename_i e hsome
    exact Element.descent_chain (Element.lastCovering_of_some hsome)

/-- Among the elements at a position of a file as read are all that surround it. -/
theorem mem_ancestry {file : FileId} {text : Text} {p : Position} {e : Element}
    (h : (SourceFile.read file text).Holds e) (hp : e.span.Surrounds p) :
    e ∈ (SourceFile.read file text).ancestry p := by
  obtain ⟨s, hs, he⟩ := h
  obtain ⟨hi, hrow⟩ := row_statements file text
  exact (descent_ancestry _ p).mem hrow (List.mem_map_of_mem hs) he hp

end SourceFile

end Devicetree
