import Devicetree.Proofs.Source.Exact
import Devicetree.Proofs.Source.Spelling

/-!
# Forms as they are read

What is read from a text can be written with tokens that a text spells. This holds of all that
is read, whatever had to be left out around it.
-/

namespace Devicetree

/-- A value that can be written with tokens of a text. -/
def ValueForm.Lexical (v : ValueForm) : Prop :=
  ∃ ts, v.Written ts ∧ ∀ t ∈ ts, t.Spelled

/-- A property that can be written with tokens of a text. -/
structure PropertyForm.Lexical (p : PropertyForm) : Prop where
  labels : ∀ label ∈ p.labels, (Token.label label).Spelled
  name : (Token.word p.name).Spelled
  values : ∀ v ∈ p.values, v.Lexical

/-- A statement that can be written with tokens of a text. -/
def StatementForm.Lexical (s : StatementForm) : Prop :=
  ∃ ts, s.Written ts ∧ ∀ t ∈ ts, t.Spelled

theorem ValueForm.MoreWritten.lexical {vs : List ValueForm} {ts : List Token}
    (h : MoreWritten vs ts) (hts : ∀ t ∈ ts, t.Spelled) : ∀ v ∈ vs, v.Lexical := by
  induction h with
  | nil => exact List.forall_mem_nil _
  | cons hv hvs ih =>
      rw [List.forall_mem_cons, List.forall_mem_append] at hts
      exact List.forall_mem_cons.mpr ⟨⟨_, hv, hts.2.1⟩, ih hts.2.2⟩

theorem ValueForm.Assigned.lexical {vs : List ValueForm} {ts : List Token}
    (h : Assigned vs ts) (hts : ∀ t ∈ ts, t.Spelled) : ∀ v ∈ vs, v.Lexical := by
  cases h with
  | nothing => exact List.forall_mem_nil _
  | values hv hvs =>
      rw [List.forall_mem_cons, List.forall_mem_append] at hts
      exact List.forall_mem_cons.mpr ⟨⟨_, hv, hts.2.1⟩, hvs.lexical hts.2.2⟩

namespace StatementForm

theorem Lexical.property {p : PropertyForm} (h : Lexical (.leaf (.property p))) : p.Lexical := by
  obtain ⟨_, hw, hts⟩ := h
  cases hw with
  | leaf hleaf =>
      cases hleaf with
      | property labels name hvs =>
          rw [List.forall_mem_append, List.forall_mem_map, List.forall_mem_cons,
            List.forall_mem_append] at hts
          exact ⟨hts.1, hts.2.1, hvs.lexical hts.2.2.1⟩

theorem AllWritten.lexical {ss : List StatementForm} {ts : List Token} (h : AllWritten ss ts)
    (hts : ∀ t ∈ ts, t.Spelled) : ∀ s ∈ ss, s.Lexical := by
  induction ss generalizing ts with
  | nil => exact List.forall_mem_nil _
  | cons s ss ih =>
      cases h with
      | cons hs hss =>
          rw [List.forall_mem_append] at hts
          exact List.forall_mem_cons.mpr ⟨⟨_, hs, hts.1⟩, ih hss hts.2⟩

theorem exists_allWritten {ss : List StatementForm} (h : ∀ s ∈ ss, s.Lexical) :
    ∃ ts, AllWritten ss ts ∧ ∀ t ∈ ts, t.Spelled := by
  induction ss with
  | nil => exact ⟨[], .nil, List.forall_mem_nil _⟩
  | cons s ss ih =>
      obtain ⟨⟨ts, hs, hts⟩, hss⟩ := List.forall_mem_cons.mp h
      obtain ⟨us, hall, hus⟩ := ih hss
      exact ⟨ts ++ us, .cons hs hall, List.forall_mem_append.mpr ⟨hts, hus⟩⟩

theorem Lexical.block {labels : List String} {target : TargetForm} {body : List StatementForm}
    (h : Lexical (.block labels target body)) :
    (∀ label ∈ labels, (Token.label label).Spelled) ∧ ∀ s ∈ body, s.Lexical := by
  obtain ⟨_, hw, hts⟩ := h
  cases hw with
  | block labels ht hbody =>
      simp only [List.forall_mem_append, List.forall_mem_map] at hts
      exact ⟨hts.1.1.1, hbody.lexical hts.1.2⟩

/-- A block is as lexical as its head and its body. -/
theorem lexical_block {labels : List String} {target : TargetForm} {t : Token}
    {body : List StatementForm} (ht : target.Written t)
    (hhead : ∀ u ∈ labels.map Token.label ++ [t, .leftBrace], u.Spelled)
    (hbody : ∀ s ∈ body, s.Lexical) : Lexical (.block labels target body) := by
  obtain ⟨ts, hall, hts⟩ := exists_allWritten hbody
  refine ⟨_, .block labels ht hall, ?_⟩
  rw [List.forall_mem_append, List.forall_mem_append]
  exact ⟨⟨hhead, hts⟩, by simp [Token.Spelled]⟩

end StatementForm

/-! ### Through the reader -/

theorem Lexeme.spelled_of_suffix {ls rest : List Lexeme} (h : ∀ l ∈ ls, l.token.Spelled)
    (hrest : rest <:+ ls) : ∀ l ∈ rest, l.token.Spelled :=
  fun l hl => h l (hrest.subset hl)

theorem lexical_reading : ReadingSteps
    (fun ls s rest => rest <:+ ls ∧ ((∀ l ∈ ls, l.token.Spelled) → s.form.Lexical))
    (fun ls body rest => rest <:+ ls ∧
      ((∀ l ∈ ls, l.token.Spelled) → ∀ s ∈ body, s.form.Lexical)) where
  complete {ls s rest} h := by
    refine ⟨Phrase.trims_opening h, fun hls => ?_⟩
    obtain ⟨front, rfl, hw⟩ := Phrase.exact_opening.sound h
    rw [List.forall_mem_append] at hls
    generalize hform : s.form = form at hw
    rw [Phrase.Opening.form, hform] at hw
    cases hw with
    | statement hleaf => exact ⟨_, .leaf hleaf, List.forall_mem_map.mpr hls.1⟩
  block := by
    rintro ls labels target inner body outer s rest reports ho ⟨houter, hbody⟩ hclose
    obtain ⟨⟨span, rfl⟩, hrest⟩ := closeBlock_cases hclose
    have hinner := Phrase.trims_opening ho
    refine ⟨(hrest.trans houter).trans hinner, fun hls => ?_⟩
    have hinside := hbody (Lexeme.spelled_of_suffix hls hinner)
    obtain ⟨front, rfl, hw⟩ := Phrase.exact_opening.sound ho
    rw [List.forall_mem_append] at hls
    rw [Statement.form, Statement.forms_eq_map]
    generalize hts : front.map Lexeme.token = ts at hw
    have hspelled : ∀ t ∈ ts, t.Spelled := hts ▸ List.forall_mem_map.mpr hls.1
    cases hw with
    | block _ ht =>
        exact StatementForm.lexical_block ht hspelled (List.forall_mem_map.mpr hinside)
  stop ls := ⟨List.suffix_rfl, fun _ => List.forall_mem_nil _⟩
  next := by
    rintro ls s mid body rest ⟨hmid, hs⟩ ⟨hrest, hbody⟩
    refine ⟨hrest.trans hmid, fun hls => ?_⟩
    exact List.forall_mem_cons.mpr ⟨hs hls, hbody (Lexeme.spelled_of_suffix hls hmid)⟩
  pass := by
    rintro ls mid body rest hmid ⟨hrest, hbody⟩
    exact ⟨hrest.trans hmid, fun hls => hbody (Lexeme.spelled_of_suffix hls hmid)⟩

theorem lexical_items (last : Span) {ls : List Lexeme} (hls : ∀ l ∈ ls, l.token.Spelled) :
    ∀ s ∈ (Items.read last ls).statements, s.form.Lexical := by
  refine items_induction (R := fun ls ss => (∀ l ∈ ls, l.token.Spelled) →
    ∀ s ∈ ss, s.form.Lexical) last (fun _ => List.forall_mem_nil _) ?_ ?_ ls hls
  · intro ls mid ss hmid hss hls
    exact hss (Lexeme.spelled_of_suffix hls hmid)
  · intro ls read ss hread hss hls
    obtain ⟨hrest, hs⟩ := lexical_reading.statement last hread
    exact List.forall_mem_cons.mpr ⟨hs hls, hss (Lexeme.spelled_of_suffix hls hrest)⟩

mutual

/-- What stands below a lexical statement is lexical too. -/
theorem Statement.lexical_all : ∀ s : Statement, s.form.Lexical → ∀ u ∈ s.all, u.form.Lexical
  | .block head body, h => by
      rw [all_block]
      refine List.forall_mem_cons.mpr ⟨h, lexical_allIn body ?_⟩
      rw [form, forms_eq_map] at h
      exact List.forall_mem_map.mp h.block.2
  | .property p, h => by
      rw [all_property]
      exact List.forall_mem_singleton.mpr h
  | .deleteNode d, h => by
      rw [all_deleteNode]
      exact List.forall_mem_singleton.mpr h
  | .deleteProperty d, h => by
      rw [all_deleteProperty]
      exact List.forall_mem_singleton.mpr h

theorem Statement.lexical_allIn : ∀ ss : List Statement, (∀ s ∈ ss, s.form.Lexical) →
    ∀ u ∈ allIn ss, u.form.Lexical
  | [], _ => List.forall_mem_nil _
  | s :: ss, h => by
      obtain ⟨hs, hss⟩ := List.forall_mem_cons.mp h
      rw [allIn_cons, List.forall_mem_append]
      exact ⟨lexical_all s hs, lexical_allIn ss hss⟩

end

/-- Every statement of a file as read is lexical. -/
theorem SourceFile.Parsed.lexical {f : SourceFile} (h : f.Parsed) :
    ∀ s ∈ Statement.allIn f.statements, s.form.Lexical := by
  obtain ⟨text, hf⟩ := h
  have hforms : ∀ form ∈ Statement.forms f.statements, form.Lexical := by
    rw [hf, SourceFile.read, SourceFile.ofLexemes, Statement.forms_numberAll,
      Statement.forms_eq_map]
    refine List.forall_mem_map.mpr (lexical_items _ fun l hl => ?_)
    exact Tokens.spelled_readFrom _ _ _ l (List.mem_filter.mp hl).1
  rw [Statement.forms_eq_map] at hforms
  exact Statement.lexical_allIn _ (List.forall_mem_map.mp hforms)

end Devicetree
