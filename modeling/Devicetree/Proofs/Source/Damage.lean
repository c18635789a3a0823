import Devicetree.Proofs.Source.Recognition

/-!
# A malformed statement damages itself only

Where a file that is written by the grammar has a place for a statement, at the top level or in a
body at any depth, something may stand that is no statement. If its braces close and it ends in its
only semicolon outside of them, then it is skipped as a whole: the rest of the file is read as if
it were not there, and the failure is reported.
-/

namespace Devicetree

/-! ### Scraps -/

namespace Token

/-- The number of open braces after some tokens, if none closes that was not opened. -/
def depthAfter : Nat → List Token → Option Nat
  | depth, [] => some depth
  | depth, t :: ts =>
    if t = .leftBrace then depthAfter (depth + 1) ts
    else if t = .rightBrace then
      if depth = 0 then none else depthAfter (depth - 1) ts
    else depthAfter depth ts

/-- Tokens that close the braces open before them, and their own, and have one semicolon outside of
all braces, at their end. -/
structure Scrap (depth : Nat) (ts : List Token) : Prop where
  balanced : depthAfter depth ts = some 0
  ended : ts.getLast? = some .semicolon
  single : ∀ n < ts.length - 1, ts[n]? = some .semicolon → depthAfter depth (ts.take n) ≠ some 0

namespace Scrap

variable {depth after : Nat} {t : Token} {ts : List Token}

/-- Past a token that is not the end, a scrap goes on at the depth after that token. -/
theorem tail (h : Scrap depth (t :: ts))
    (hdepth : ∀ us, depthAfter depth (t :: us) = depthAfter after us)
    (hend : t = .semicolon → after ≠ 0) : Scrap after ts where
  balanced := (hdepth ts).symm.trans h.balanced
  ended := by
    cases ts with
    | nil =>
        have hlast : t = .semicolon := Option.some.inj h.ended
        have hzero : some after = some 0 := (hdepth []).symm.trans h.balanced
        exact absurd (Option.some.inj hzero) (hend hlast)
    | cons u us => exact h.ended
  single n hn hsemicolon hzero :=
    h.single (n + 1) (by simpa using Nat.add_lt_of_lt_sub hn) hsemicolon ((hdepth _).trans hzero)

end Scrap

end Token

/-- A scrap is skipped as a whole, and nothing after it. -/
theorem skipStatement_scrap (level : Level) {depth : Nat} {ls : List Lexeme}
    (h : Token.Scrap depth (ls.map Lexeme.token)) (rest : List Lexeme) :
    skipStatement level depth (ls ++ rest) = rest := by
  induction ls generalizing depth with
  | nil => cases h.ended
  | cons l ls ih =>
      rw [List.map_cons] at h
      rw [List.cons_append]
      unfold skipStatement
      split
      · rename_i htoken
        refine ih (h.tail (fun us => ?_) fun hsemicolon => ?_)
        · simp [Token.depthAfter, htoken]
        · simp [htoken] at hsemicolon
      · rename_i htoken
        refine ih (h.tail (fun us => ?_) fun hsemicolon => ?_)
        · simp [Token.depthAfter, htoken]
        · simp [htoken] at hsemicolon
      · rename_i htoken
        have := h.balanced
        simp [Token.depthAfter, htoken] at this
      · rename_i htoken
        cases ls with
        | nil => rfl
        | cons l' ls => exact absurd rfl (h.single 0 (by simp) (congrArg some htoken))
      · rename_i depth _ _ hleft hclosed hbare hsemicolon
        have hright : l.token ≠ .rightBrace := by
          intro htoken
          cases depth with
          | zero => exact hbare htoken rfl
          | succ depth => exact hclosed depth htoken rfl
        refine ih (h.tail (fun us => ?_) hsemicolon)
        rw [Token.depthAfter, if_neg hleft, if_neg hright]

theorem exists_of_scrap {ls : List Lexeme} (h : Token.Scrap 0 (ls.map Lexeme.token)) :
    ∃ l rest, ls = l :: rest ∧ l.token ≠ .rightBrace := by
  cases ls with
  | nil => cases h.ended
  | cons l ls =>
      refine ⟨l, ls, rfl, fun htoken => ?_⟩
      have hbalanced := h.balanced
      simp [Token.depthAfter, htoken] at hbalanced

/-! ### Places for a statement -/

/-- A place between statements, or in the body of one of them: the forms of all the statements,
and the tokens before and after the place. -/
inductive StatementForm.Gap : List StatementForm → List Token → List Token → Prop
  | here {ss ss' : List StatementForm} {ts us : List Token} (hss : AllWritten ss ts)
      (hss' : AllWritten ss' us) : Gap (ss ++ ss') ts us
  | inside (labels : List String) {ss body ss' : List StatementForm} {target : TargetForm}
      {t : Token} {ts before after us : List Token} (hss : AllWritten ss ts)
      (ht : target.Written t) (hbody : Gap body before after) (hss' : AllWritten ss' us) :
      Gap (ss ++ .block labels target body :: ss')
        (ts ++ (labels.map .label ++ [t, .leftBrace]) ++ before)
        (after ++ [.rightBrace, .semicolon] ++ us)

/-- A place between the items of a file, or in the body of one of them. -/
inductive ItemForm.Gap : Level → List ItemForm → List Token → List Token → Prop
  | top {is is' : List ItemForm} {ts us : List Token} (his : AllWritten is ts)
      (his' : AllWritten is' us) : Gap .top (is ++ is') ts us
  | nested (labels : List String) {is is' : List ItemForm} {body : List StatementForm}
      {target : TargetForm} {t : Token} {ts before after us : List Token} (his : AllWritten is ts)
      (ht : target.Written t) (hbody : StatementForm.Gap body before after)
      (his' : AllWritten is' us) :
      Gap .nested (is ++ .statement (.block labels target body) :: is')
        (ts ++ (labels.map .label ++ [t, .leftBrace]) ++ before)
        (after ++ [.rightBrace, .semicolon] ++ us)

theorem ItemForm.AllWritten.append {is is' : List ItemForm} {ts us : List Token}
    (h : AllWritten is ts) (h' : AllWritten is' us) : AllWritten (is ++ is') (ts ++ us) := by
  induction h with
  | nil => exact h'
  | cons hi _ ih =>
      rw [List.append_assoc]
      exact .cons hi ih

/-- Around a place stand the statements. -/
theorem StatementForm.Gap.written {ss : List StatementForm} {before after : List Token}
    (h : Gap ss before after) : AllWritten ss (before ++ after) := by
  induction h with
  | here hss hss' => exact hss.append hss'
  | @inside labels ss body ss' target t ts before after us hss ht _ hss' ih =>
      have hblock : Written (.block labels target body) (labels.map .label ++ [t, .leftBrace] ++
          (before ++ after) ++ [.rightBrace, .semicolon]) := .block labels ht ih
      have hall := hss.append (AllWritten.cons hblock hss')
      simpa only [List.append_assoc] using hall

theorem ItemForm.Gap.written {level : Level} {is : List ItemForm} {before after : List Token}
    (h : Gap level is before after) : AllWritten is (before ++ after) := by
  cases h with
  | top his his' => exact his.append his'
  | @nested labels is is' body target t ts before after us his ht hbody his' =>
      have hblock : Written (.statement (.block labels target body))
          (labels.map .label ++ [t, .leftBrace] ++ (before ++ after) ++
            [.rightBrace, .semicolon]) :=
        .statement (.block labels ht hbody.written)
      have hall := his.append (AllWritten.cons hblock his')
      simpa only [List.append_assoc] using hall

/-! ### Reading past a scrap -/

/-- At a level no statement can be read from the front of some lexemes. -/
inductive Level.Refuses (last : Span) (ls : List Lexeme) : Level → Prop
  | top {failure : Failure} (h : (Item.read last ls).1 = .error failure) : Refuses last ls .top
  | nested {failure : Failure} (h : (readStatement last ls).outcome = .error failure) :
      Refuses last ls .nested

variable (last : Span)

/-- In a body a scrap is passed over with a report. -/
theorem readBody_of_scrap {scrap rest : List Lexeme} {failure : Failure}
    (hscrap : Token.Scrap 0 (scrap.map Lexeme.token))
    (hfail : (readStatement last (scrap ++ rest)).outcome = .error failure) :
    (readBody last (scrap ++ rest)).statements = (readBody last rest).statements ∧
      (readBody last (scrap ++ rest)).rest = (readBody last rest).rest ∧
      (readBody last (scrap ++ rest)).reports ≠ [] := by
  have hskip := skipStatement_scrap .nested hscrap rest
  obtain ⟨l, ls, rfl, hl⟩ := exists_of_scrap hscrap
  rw [List.cons_append] at hfail hskip ⊢
  obtain ⟨hstatements, hrest, hreports⟩ := readBody_of_error last hl hfail
  rw [hskip] at hstatements hrest hreports
  refine ⟨hstatements, hrest, ?_⟩
  rw [hreports]
  simp

/-- At the top level a scrap is passed over with a report. -/
theorem items_of_scrap {scrap rest : List Lexeme} {failure : Failure}
    (hscrap : Token.Scrap 0 (scrap.map Lexeme.token))
    (hfail : (Item.read last (scrap ++ rest)).1 = .error failure) :
    (Items.read last (scrap ++ rest)).items = (Items.read last rest).items ∧
      (Items.read last (scrap ++ rest)).reports ≠ [] := by
  have hskip := skipStatement_scrap .top hscrap rest
  obtain ⟨l, ls, rfl, -⟩ := exists_of_scrap hscrap
  rw [List.cons_append] at hfail hskip ⊢
  obtain ⟨hitems, hreports⟩ := items_of_error last (Prod.ext hfail rfl)
  rw [hskip] at hitems hreports
  refine ⟨hitems, ?_⟩
  rw [hreports]
  simp

theorem exists_of_opened {labels : List String} {target : TargetForm} {t : Token}
    (ht : target.Written t) {opened : List Lexeme}
    (hopened : opened.map Lexeme.token = labels.map .label ++ [t, .leftBrace]) :
    ∃ l ls, opened = l :: ls ∧ l.token.beginsStatement = true := by
  obtain ⟨t', us, hhead, ht'⟩ := exists_head_of_labels labels ht.beginsStatement [.leftBrace]
  obtain ⟨l, ls, rfl, rfl, -⟩ := List.map_eq_cons_iff.mp (hopened.trans hhead)
  exact ⟨l, ls, rfl, ht'⟩

section Block

variable {labels : List String} {target : TargetForm} {t : Token} (ht : target.Written t)
  {opened back inner rest : List Lexeme}
  (hopened : opened.map Lexeme.token = labels.map .label ++ [t, .leftBrace])
  (hback : back.map Lexeme.token = [.rightBrace, .semicolon])
  (hinner : (readBody last inner).rest = back ++ rest)

include ht hopened hback hinner

/-- In a body a block is read as its own body is, with what that reports. -/
theorem readBody_of_block :
    Statement.forms (readBody last (opened ++ inner)).statements =
        .block labels target (Statement.forms (readBody last inner).statements) ::
          Statement.forms (readBody last rest).statements ∧
      (readBody last (opened ++ inner)).rest = (readBody last rest).rest ∧
      (readBody last (opened ++ inner)).reports =
        (readBody last inner).reports ++ (readBody last rest).reports := by
  obtain ⟨read, hread, hform, hreports⟩ := block_complete last labels ht hopened hback hinner
  obtain ⟨l, ls, rfl, hl⟩ := exists_of_opened ht hopened
  have hbrace : l.token ≠ .rightBrace := by
    intro heq
    rw [heq] at hl
    cases hl
  rw [List.cons_append] at hread hreports ⊢
  obtain ⟨hstatements, hrest, hall⟩ := readBody_of_ok last hbrace hread
  refine ⟨?_, hrest, ?_⟩
  · rw [hstatements, Statement.forms, hform]
  · rw [hall, hreports]

/-- At the top level a block is read as its body is, with what that reports. -/
theorem items_of_block :
    (Items.read last (opened ++ inner)).items.map Item.form =
        .statement (.block labels target (Statement.forms (readBody last inner).statements)) ::
          (Items.read last rest).items.map Item.form ∧
      (Items.read last (opened ++ inner)).reports =
        (readBody last inner).reports ++ (Items.read last rest).reports := by
  obtain ⟨read, hread, hform, hreports⟩ := block_complete last labels ht hopened hback hinner
  obtain ⟨l, ls, rfl, hl⟩ := exists_of_opened ht hopened
  rw [List.cons_append] at hread hreports ⊢
  have hitem := Item.read_of_beginsStatement last hl (ls ++ inner)
  rw [hread, hreports] at hitem
  obtain ⟨hitems, hall⟩ := items_of_ok last hitem
  refine ⟨?_, hall⟩
  rw [hitems, List.map_cons, Item.form, hform]

end Block

/-- A scrap in a body, at any depth, leaves the statements of the body as they are. -/
theorem body_of_gap {ss : List StatementForm} {before after : List Token}
    (hgap : StatementForm.Gap ss before after) {front scrap back rest : List Lexeme}
    (hfront : front.map Lexeme.token = before) (hback : back.map Lexeme.token = after)
    (hrest : Phrase.Before .rightBrace (rest.map Lexeme.token))
    (hscrap : Token.Scrap 0 (scrap.map Lexeme.token)) {failure : Failure}
    (hfail : (readStatement last (scrap ++ (back ++ rest))).outcome = .error failure) :
    Statement.forms (readBody last (front ++ (scrap ++ (back ++ rest)))).statements = ss ∧
      (readBody last (front ++ (scrap ++ (back ++ rest)))).rest = rest ∧
      (readBody last (front ++ (scrap ++ (back ++ rest)))).reports ≠ [] := by
  have hstop : ∀ {rest}, Phrase.Before .rightBrace (rest.map Lexeme.token) →
      (readBody last rest).statements = [] ∧ (readBody last rest).rest = rest := by
    intro rest hrest
    obtain ⟨l, ls, rfl, hl⟩ := Phrase.exists_of_before hrest
    obtain ⟨hstatements, hleft, -⟩ := readBody_of_brace last hl ls
    exact ⟨hstatements, hleft⟩
  induction hgap generalizing front back rest with
  | @here ss ss' ts us hss hss' =>
      subst hfront hback
      obtain ⟨hforms, hleft, hreports⟩ := body_complete last hss (scrap ++ (back ++ rest))
      obtain ⟨hsame, hafter, hreported⟩ := readBody_of_scrap last hscrap hfail
      obtain ⟨hforms', hleft', -⟩ := body_complete last hss' rest
      obtain ⟨hnone, hend⟩ := hstop hrest
      refine ⟨?_, ?_, ?_⟩
      · rw [hforms, hsame, hforms', hnone, Statement.forms, List.append_nil]
      · rw [hleft, hafter, hleft', hend]
      · rw [hreports]
        exact hreported
  | @inside labels ss body ss' target t ts before after us hss ht _ hss' ih =>
      rw [List.append_assoc] at hfront hback
      obtain ⟨first, inner, rfl, rfl, hinner⟩ := List.map_eq_append_iff.mp hfront
      obtain ⟨opened, front, rfl, hopened, hbefore⟩ := List.map_eq_append_iff.mp hinner
      obtain ⟨back, outer, rfl, hafter, houter⟩ := List.map_eq_append_iff.mp hback
      obtain ⟨close, others, rfl, hclose, rfl⟩ := List.map_eq_append_iff.mp houter
      have hclosing : Phrase.Before .rightBrace ((close ++ (others ++ rest)).map Lexeme.token) := by
        rw [List.map_append, hclose]
        rfl
      rw [List.append_assoc back, List.append_assoc close] at hfail ⊢
      rw [List.append_assoc first, List.append_assoc opened]
      obtain ⟨hinside, hleft, hreported⟩ := ih hbefore hafter hclosing hfail
      obtain ⟨hblock, hpast, hreports⟩ := readBody_of_block last ht hopened hclose hleft
      obtain ⟨hforms, hrest', hfirst⟩ := body_complete last hss
        (opened ++ (front ++ (scrap ++ (back ++ (close ++ (others ++ rest))))))
      obtain ⟨hforms', hleft', -⟩ := body_complete last hss' rest
      obtain ⟨hnone, hend⟩ := hstop hrest
      refine ⟨?_, ?_, ?_⟩
      · rw [hforms, hblock, hinside, hforms', hnone, Statement.forms, List.append_nil]
      · rw [hrest', hpast, hleft', hend]
      · rw [hfirst, hreports]
        exact fun h => hreported (List.append_eq_nil_iff.mp h).1

/-- A scrap between items, or in the body of one of them, leaves the items as they are. -/
theorem items_of_gap {level : Level} {is : List ItemForm} {front scrap back : List Lexeme}
    (hgap : ItemForm.Gap level is (front.map Lexeme.token) (back.map Lexeme.token))
    (hscrap : Token.Scrap 0 (scrap.map Lexeme.token))
    (hfail : level.Refuses last (scrap ++ back)) :
    (Items.read last (front ++ (scrap ++ back))).items.map Item.form = is ∧
      (Items.read last (front ++ (scrap ++ back))).reports ≠ [] := by
  have hwhole : ∀ {is : List ItemForm} {ls : List Lexeme},
      ItemForm.AllWritten is (ls.map Lexeme.token) →
        (Items.read last ls).items.map Item.form = is := by
    intro is ls h
    obtain ⟨hitems, -⟩ := items_complete last h []
    rw [List.append_nil] at hitems
    rw [hitems, Items.read, List.map_nil, List.append_nil]
  generalize hfront : front.map Lexeme.token = before at hgap
  generalize hback : back.map Lexeme.token = after at hgap
  cases hgap with
  | @top is is' _ _ his his' =>
      subst hfront hback
      cases hfail with
      | top hfail =>
          obtain ⟨hitems, hreports⟩ := items_complete last his (scrap ++ back)
          obtain ⟨hsame, hreported⟩ := items_of_scrap last hscrap hfail
          constructor
          · rw [hitems, hsame, hwhole his']
          · rw [hreports]
            exact hreported
  | @nested labels is is' body target t ts before after us his ht hbody his' =>
      rw [List.append_assoc] at hfront hback
      obtain ⟨first, inner, rfl, rfl, hinner⟩ := List.map_eq_append_iff.mp hfront
      obtain ⟨opened, front, rfl, hopened, hbefore⟩ := List.map_eq_append_iff.mp hinner
      obtain ⟨back, outer, rfl, hafter, houter⟩ := List.map_eq_append_iff.mp hback
      obtain ⟨close, others, rfl, hclose, rfl⟩ := List.map_eq_append_iff.mp houter
      have hclosing : Phrase.Before .rightBrace ((close ++ others).map Lexeme.token) := by
        rw [List.map_append, hclose]
        rfl
      cases hfail with
      | nested hfail =>
          rw [List.append_assoc first, List.append_assoc opened]
          obtain ⟨hinside, hleft, hreported⟩ :=
            body_of_gap last hbody hbefore hafter hclosing hscrap hfail
          obtain ⟨hblock, hreports⟩ := items_of_block last ht hopened hclose hleft
          obtain ⟨hitems, hfirst⟩ := items_complete last his
            (opened ++ (front ++ (scrap ++ (back ++ (close ++ others)))))
          constructor
          · rw [hitems, hblock, hinside, hwhole his']
          · rw [hfirst, hreports]
            exact fun h => hreported (List.append_eq_nil_iff.mp h).1

/-- Where a file without reports has a place for a statement, a scrap that is none of its own is
reported, and what is read is what is read without it. -/
theorem SourceFile.form_of_scrap {level : Level} {items : List ItemForm}
    {front scrap back : List Lexeme} (file : FileId)
    (hgap : ItemForm.Gap level items (front.map Lexeme.token) (back.map Lexeme.token))
    (hscrap : Token.Scrap 0 (scrap.map Lexeme.token))
    (hfail : level.Refuses (endOf (front ++ (scrap ++ back))) (scrap ++ back)) :
    (ofLexemes file (front ++ back)).diagnostics = [] ∧
      (ofLexemes file (front ++ (scrap ++ back))).form = (ofLexemes file (front ++ back)).form ∧
      (ofLexemes file (front ++ (scrap ++ back))).diagnostics ≠ [] := by
  have hwritten : ItemForm.AllWritten items ((front ++ back).map Lexeme.token) := by
    rw [List.map_append]
    exact hgap.written
  obtain ⟨hclean, hform⟩ := ofLexemes_of_written hwritten file
  obtain ⟨hitems, hreports⟩ := items_of_gap _ hgap hscrap hfail
  refine ⟨hclean, ?_, hreports⟩
  rw [hform, form_ofLexemes, hitems]

/-- Behind a property of a nested block, a block is assigned to a name. -/
theorem SourceFile.form_of_scrap_nested :
    let lexemes := List.map fun t => Lexeme.mk t Span.origin
    let front := lexemes [.slash, .leftBrace, .word "a", .leftBrace, .word "b", .semicolon]
    let scrap := lexemes [.word "c", .equals, .leftBrace, .word "d", .semicolon, .rightBrace,
      .semicolon]
    let back := lexemes [.rightBrace, .semicolon, .rightBrace, .semicolon]
    (ofLexemes ⟨0⟩ (front ++ back)).diagnostics = [] ∧
      (ofLexemes ⟨0⟩ (front ++ (scrap ++ back))).form = (ofLexemes ⟨0⟩ (front ++ back)).form ∧
      (ofLexemes ⟨0⟩ (front ++ (scrap ++ back))).diagnostics ≠ [] := by
  intro lexemes front scrap back
  have hbody := StatementForm.AllWritten.cons (.leaf (.property [] "b" .nothing)) .nil
  have hgap := ItemForm.Gap.nested [] .nil .root
    (.inside [] .nil (.child "a") (.here hbody .nil) .nil) .nil
  have hscrap : Token.Scrap 0 (scrap.map Lexeme.token) :=
    ⟨by decide, by decide, by decide⟩
  have hopening : Phrase.opening (scrap ++ back) =
      .error ⟨.propertyValue, (scrap ++ back).drop 2⟩ := rfl
  exact form_of_scrap ⟨0⟩ hgap hscrap (.nested (readStatement_of_error _ hopening).1)

end Devicetree
