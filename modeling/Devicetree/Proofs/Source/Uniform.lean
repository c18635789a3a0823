import Devicetree.Proofs.Source.Recognition

/-!
# What is read depends on the text only

The number of a file and the places in it go into spans and into the numbers of references. All
else that is read, failures and what is skipped after them included, is decided by the tokens, and
these by the text.
-/

namespace Devicetree

namespace Phrase

variable {α β : Type}

/-- Results that differ in places only. -/
inductive Agree (view : α → β) :
    Except Failure (α × List Lexeme) → Except Failure (α × List Lexeme) → Prop
  | error {failure failure' : Failure} : Agree view (.error failure) (.error failure')
  | ok {a a' : α} {rest rest' : List Lexeme} (h : view a = view a')
      (hrest : rest.map Lexeme.token = rest'.map Lexeme.token) :
      Agree view (.ok (a, rest)) (.ok (a', rest'))

/-- Phrases that write the same tokens read them alike. -/
theorem Exact.agree {p p' : Phrase α} {view : α → β} {W : β → List Token → Prop}
    (hp : Exact p view Anything W) (hp' : Exact p' view Anything W) {ls ls' : List Lexeme}
    (h : ls.map Lexeme.token = ls'.map Lexeme.token) : Agree view (p ls) (p' ls') := by
  have hfollows : ∀ {p p' : Phrase α} {ls ls' : List Lexeme}, Exact p view Anything W →
      Exact p' view Anything W → ls.map Lexeme.token = ls'.map Lexeme.token →
        ∀ {a rest}, p ls = .ok (a, rest) → ∃ a' rest', p' ls' = .ok (a', rest') ∧
          view a = view a' ∧ rest.map Lexeme.token = rest'.map Lexeme.token := by
    intro p p' ls ls' hp hp' h a rest hread
    obtain ⟨front, rfl, hfront⟩ := hp.sound hread
    rw [List.map_append] at h
    obtain ⟨front', rest', rfl, hfront', hrest'⟩ := List.map_eq_append_iff.mp h.symm
    obtain ⟨a', hread', hview⟩ := hp'.takes (hfront'.symm ▸ hfront) rest'
    exact ⟨a', rest', hread', hview.symm, hrest'.symm⟩
  cases hread : p ls with
  | ok read =>
      obtain ⟨a', rest', hread', hview, hrest⟩ := hfollows hp hp' h hread
      rw [hread']
      exact .ok hview hrest
  | error failure =>
      cases hread' : p' ls' with
      | error failure' => exact .error
      | ok read =>
          obtain ⟨_, _, hread'', -⟩ := hfollows hp' hp h.symm hread'
          rw [hread] at hread''
          cases hread''

end Phrase

theorem skipStatement_tokens (level : Level) (depth : Nat) {ls ls' : List Lexeme}
    (h : ls.map Lexeme.token = ls'.map Lexeme.token) :
    (skipStatement level depth ls).map Lexeme.token =
      (skipStatement level depth ls').map Lexeme.token := by
  induction ls generalizing depth ls' with
  | nil =>
      obtain rfl := List.map_eq_nil_iff.mp h.symm
      rfl
  | cons l ls ih =>
      obtain ⟨l', ls', rfl, hl, hls⟩ := List.map_eq_cons_iff.mp h.symm
      unfold skipStatement
      rw [hl]
      split
      · exact ih _ hls.symm
      · exact ih _ hls.symm
      · split
        · exact ih _ hls.symm
        · rw [List.map_cons, List.map_cons, hl, hls]
      · exact hls.symm
      · exact ih _ hls.symm

theorem closeBlock_agree {labels labels' : List Label} {target target' : BlockTarget}
    {body body' : List Statement} {ls ls' : List Lexeme}
    (hlabels : labels.map (·.value) = labels'.map (·.value)) (htarget : target.form = target'.form)
    (hbody : Statement.forms body = Statement.forms body')
    (h : ls.map Lexeme.token = ls'.map Lexeme.token) :
    Phrase.Agree Statement.form (closeBlock labels target body ls).1
      (closeBlock labels' target' body' ls').1 := by
  have hblock : ∀ span span', (Statement.block ⟨default, labels, target, span⟩ body).form =
      (Statement.block ⟨default, labels', target', span'⟩ body').form := by
    intro span span'
    rw [Statement.form, Statement.form, hbody]
    exact congrArg₂ (StatementForm.block · · _) hlabels htarget
  have hmark := (Phrase.exact_mark .rightBrace .rightBrace).agree
    (Phrase.exact_mark .rightBrace .rightBrace) h
  unfold closeBlock
  generalize Phrase.mark .rightBrace .rightBrace ls = closed at hmark
  generalize Phrase.mark .rightBrace .rightBrace ls' = closed' at hmark
  cases hmark with
  | error => exact .error
  | @ok close close' rest rest' _ hrest =>
      have hsemicolon :=
        (Phrase.exact_mark .semicolon .semicolon).agree
          (Phrase.exact_mark .semicolon .semicolon) hrest
      dsimp only [Phrase.semicolon]
      generalize Phrase.mark .semicolon .semicolon rest = ended at hsemicolon
      generalize Phrase.mark .semicolon .semicolon rest' = ended' at hsemicolon
      cases hsemicolon with
      | error => exact .ok (hblock _ _) hrest
      | ok _ hafter => exact .ok (hblock _ _) hafter

section Statements

variable (last last' : Span)

theorem statement_agree_of_bodies {ls ls' : List Lexeme}
    (h : ls.map Lexeme.token = ls'.map Lexeme.token)
    (ih : ∀ inner inner', inner.length < ls.length →
      inner.map Lexeme.token = inner'.map Lexeme.token →
        Statement.forms (readBody last inner).statements =
            Statement.forms (readBody last' inner').statements ∧
          (readBody last inner).rest.map Lexeme.token =
            (readBody last' inner').rest.map Lexeme.token) :
    Phrase.Agree Statement.form (readStatement last ls).outcome
      (readStatement last' ls').outcome := by
  have hopening := Phrase.exact_opening.agree Phrase.exact_opening h
  generalize hread : Phrase.opening ls = read at hopening
  generalize hread' : Phrase.opening ls' = read' at hopening
  cases hopening with
  | error =>
      rw [(readStatement_of_error last hread).1, (readStatement_of_error last' hread').1]
      exact .error
  | @ok o o' rest rest' hform hrest =>
      cases o with
      | complete s =>
          cases o' with
          | block labels' target' => cases hform
          | complete s' =>
              rw [(readStatement_of_complete last hread).1,
                (readStatement_of_complete last' hread').1]
              exact .ok (Phrase.OpeningForm.statement.inj hform) hrest
      | block labels target =>
          cases o' with
          | complete s' => cases hform
          | block labels' target' =>
              obtain ⟨hlabels, htarget⟩ := Phrase.OpeningForm.block.inj hform
              obtain ⟨hbody, hafter⟩ := ih rest rest' (Phrase.advances_opening hread) hrest
              rw [(readStatement_of_block last hread).1, (readStatement_of_block last' hread').1]
              exact closeBlock_agree hlabels htarget hbody hafter

theorem body_agree {ls ls' : List Lexeme} (h : ls.map Lexeme.token = ls'.map Lexeme.token) :
    Statement.forms (readBody last ls).statements =
        Statement.forms (readBody last' ls').statements ∧
      (readBody last ls).rest.map Lexeme.token = (readBody last' ls').rest.map Lexeme.token := by
  induction hn : ls.length using Nat.strongRecOn generalizing ls ls' with
  | ind n ih =>
      cases ls with
      | nil =>
          obtain rfl := List.map_eq_nil_iff.mp h.symm
          obtain ⟨hss, hrest, -⟩ := readBody_nil last
          obtain ⟨hss', hrest', -⟩ := readBody_nil last'
          rw [hss, hrest, hss', hrest']
          exact ⟨rfl, rfl⟩
      | cons l ls =>
          obtain ⟨l', ls', rfl, hl, hls⟩ := List.map_eq_cons_iff.mp h.symm
          by_cases hbrace : l.token = .rightBrace
          · obtain ⟨hss, hrest, -⟩ := readBody_of_brace last hbrace ls
            obtain ⟨hss', hrest', -⟩ := readBody_of_brace last' (hl.trans hbrace) ls'
            rw [hss, hrest, hss', hrest']
            exact ⟨rfl, h⟩
          · have hbrace' : l'.token ≠ .rightBrace := fun heq => hbrace (hl.symm.trans heq)
            have hstatement : Phrase.Agree Statement.form (readStatement last (l :: ls)).outcome
                (readStatement last' (l' :: ls')).outcome :=
              statement_agree_of_bodies last last' h fun inner inner' hlt hinner =>
                ih _ (hn ▸ hlt) hinner rfl
            generalize hread : (readStatement last (l :: ls)).outcome = read at hstatement
            generalize hread' : (readStatement last' (l' :: ls')).outcome = read' at hstatement
            cases hstatement with
            | error =>
                obtain ⟨hss, hrest, -⟩ := readBody_of_error last hbrace hread
                obtain ⟨hss', hrest', -⟩ := readBody_of_error last' hbrace' hread'
                rw [hss, hrest, hss', hrest']
                have hlt := skipStatement_length_lt .nested l ls (.inr hbrace)
                exact ih _ (hn ▸ hlt) (skipStatement_tokens .nested 0 h) rfl
            | ok hform hafter =>
                obtain ⟨hss, hrest, -⟩ := readBody_of_ok last hbrace hread
                obtain ⟨hss', hrest', -⟩ := readBody_of_ok last' hbrace' hread'
                obtain ⟨hforms, hleft⟩ := ih _ (hn ▸ Attempt.outcome_length_lt hread) hafter rfl
                rw [hss, hrest, hss', hrest', Statement.forms, Statement.forms, hform, hforms]
                exact ⟨rfl, hleft⟩

theorem Item.read_agree {ls ls' : List Lexeme} (h : ls.map Lexeme.token = ls'.map Lexeme.token) :
    Phrase.Agree Item.form (Item.read last ls).1 (Item.read last' ls').1 := by
  cases ls with
  | nil =>
      obtain rfl := List.map_eq_nil_iff.mp h.symm
      exact .error
  | cons l ls =>
      obtain ⟨l', ls', rfl, hl, hls⟩ := List.map_eq_cons_iff.mp h.symm
      rw [Item.read, Item.read, hl]
      split
      · exact exact_bareDirective.agree exact_bareDirective hls.symm
      · exact exact_bareDirective.agree exact_bareDirective hls.symm
      · exact exact_memoryReserve.agree exact_memoryReserve hls.symm
      · exact (exact_includePath _).agree (exact_includePath _) hls.symm
      · exact .ok rfl hls.symm
      · have hstatement : Phrase.Agree Statement.form (readStatement last (l :: ls)).outcome
            (readStatement last' (l' :: ls')).outcome :=
          statement_agree_of_bodies last last' h fun _ _ _ => body_agree last last'
        dsimp only
        rw [map_result, map_result]
        generalize (readStatement last (l :: ls)).outcome = read at hstatement
        generalize (readStatement last' (l' :: ls')).outcome = read' at hstatement
        cases hstatement with
        | error => exact .error
        | ok hform hrest => exact .ok (congrArg ItemForm.statement hform) hrest

theorem items_agree {ls ls' : List Lexeme} (h : ls.map Lexeme.token = ls'.map Lexeme.token) :
    (Items.read last ls).items.map Item.form = (Items.read last' ls').items.map Item.form := by
  induction hn : ls.length using Nat.strongRecOn generalizing ls ls' with
  | ind n ih =>
      cases ls with
      | nil =>
          obtain rfl := List.map_eq_nil_iff.mp h.symm
          rw [Items.read, Items.read]
      | cons l ls =>
          obtain ⟨l', ls', rfl, hl, hls⟩ := List.map_eq_cons_iff.mp h.symm
          have hitem := Item.read_agree last last' h
          generalize hread : (Item.read last (l :: ls)).1 = read at hitem
          generalize hread' : (Item.read last' (l' :: ls')).1 = read' at hitem
          cases hitem with
          | error =>
              rw [(items_of_error last (Prod.ext hread rfl)).1,
                (items_of_error last' (Prod.ext hread' rfl)).1]
              have hlt := skipStatement_length_lt .top l ls (.inl rfl)
              exact ih _ (hn ▸ hlt) (skipStatement_tokens .top 0 h) rfl
          | ok hform hrest =>
              have hlt := Item.read_length_lt (Prod.ext hread rfl)
              rw [(items_of_ok last (Prod.ext hread rfl)).1,
                (items_of_ok last' (Prod.ext hread' rfl)).1, List.map_cons, List.map_cons, hform,
                ih _ (hn ▸ hlt) hrest rfl]

end Statements

/-! ### Files -/

/-- The tokens of a text are the same wherever it stands. -/
theorem Tokens.tokens_readFrom (file file' : FileId) (place place' : Place) (cs : Text) :
    (readFrom file place cs).lexemes.map Lexeme.token =
      (readFrom file' place' cs).lexemes.map Lexeme.token := by
  induction hn : cs.length using Nat.strongRecOn generalizing cs place place' with
  | ind n ih =>
      cases cs with
      | nil => rw [readFrom, readFrom]
      | cons c rest =>
          have hdrop : ∀ more, (rest.drop more).length < n := by
            intro more
            rw [← hn, List.length_drop, List.length_cons]
            omega
          rw [readFrom, readFrom]
          split
          · rw [List.map_cons, List.map_cons, ih _ (hdrop _) _ _ _ rfl]
          · exact ih _ (hdrop _) _ _ _ rfl

theorem Lexeme.tokens_filter {ls ls' : List Lexeme} (p : Token → Bool)
    (h : ls.map Lexeme.token = ls'.map Lexeme.token) :
    (ls.filter fun l => p l.token).map Lexeme.token =
      (ls'.filter fun l => p l.token).map Lexeme.token := by
  have hfilter : ∀ ls : List Lexeme,
      (ls.filter fun l => p l.token).map Lexeme.token = (ls.map Lexeme.token).filter p :=
    fun ls => (List.filter_map ..).symm
  rw [hfilter, hfilter, h]

/-- A text reads the same under every file number. -/
theorem SourceFile.form_read (file file' : FileId) (text : Text) :
    (read file text).form = (read file' text).form := by
  have htokens := Lexeme.tokens_filter (fun t => !t.isTrivia)
    (Tokens.tokens_readFrom file file' Place.origin Place.origin text)
  have hread : ∀ file, (read file text).form = (ofLexemes file
      ((Tokens.read file text).lexemes.filter fun l => !l.token.isTrivia)).form :=
    fun _ => rfl
  rw [hread, hread, form_ofLexemes, form_ofLexemes, Tokens.read, Tokens.read,
    items_agree _ _ htokens]

end Devicetree
