import Devicetree.Proofs.Source.Exact
import Devicetree.Proofs.Source.Reading

/-!
# Files are read by the grammar

A file is read without a report exactly if its tokens are written by the grammar, and then what is
read is what is written. Whatever is written at the front of some lexemes is read as such, and the
rest is read as if it stood alone.
-/

namespace Devicetree

/-! ### Statements -/

/-- A block that is closed without a report ends in a brace and a semicolon. -/
theorem closeBlock_sound {labels : List Label} {target : BlockTarget} {body : List Statement}
    {ls rest : List Lexeme} {s : Statement}
    (h : closeBlock labels target body ls = (.ok (s, rest), [])) :
    ∃ front, ls = front ++ rest ∧ front.map Lexeme.token = [.rightBrace, .semicolon] ∧
      s.form = .block (labels.map (·.value)) target.form (Statement.forms body) := by
  unfold closeBlock at h
  split at h
  · cases h
  · rename_i close after hclose
    split at h
    · rename_i stop left hstop
      obtain ⟨brace, rfl, hbrace⟩ := (Phrase.exact_mark _ _).sound hclose
      obtain ⟨semicolon, rfl, hsemicolon⟩ := (Phrase.exact_mark _ _).sound hstop
      cases h
      refine ⟨brace ++ semicolon, (List.append_assoc _ _ _).symm, ?_, ?_⟩
      · rw [List.map_append, hbrace, hsemicolon]
        rfl
      · rw [Statement.form]
    · cases h

theorem closeBlock_complete (labels : List Label) (target : BlockTarget) (body : List Statement)
    {front : List Lexeme} (h : front.map Lexeme.token = [.rightBrace, .semicolon])
    (rest : List Lexeme) :
    ∃ s, closeBlock labels target body (front ++ rest) = (.ok (s, rest), []) ∧
      s.form = .block (labels.map (·.value)) target.form (Statement.forms body) := by
  obtain ⟨brace, front, rfl, hbrace, hfront⟩ := List.map_eq_cons_iff.mp h
  obtain ⟨semicolon, rfl, hsemicolon⟩ := List.map_eq_singleton_iff.mp hfront
  refine ⟨.block ⟨default, labels, target,
    (Phrase.startSpan labels target.span).union semicolon.span⟩ body, ?_, by rw [Statement.form]⟩
  simp only [closeBlock, Phrase.mark, Phrase.semicolon, Phrase.one, List.cons_append, hbrace,
    hsemicolon, if_true, List.nil_append]

variable (last : Span)

theorem statement_sound_of_bodies {ls rest : List Lexeme} {s : Statement}
    (ih : ∀ inner, inner.length < ls.length → (readBody last inner).reports = [] →
      ∃ front, inner = front ++ (readBody last inner).rest ∧
        StatementForm.AllWritten (Statement.forms (readBody last inner).statements)
          (front.map Lexeme.token))
    (h : (readStatement last ls).outcome = .ok (s, rest))
    (hclean : (readStatement last ls).reports = []) :
    ∃ front, ls = front ++ rest ∧ s.form.Written (front.map Lexeme.token) := by
  cases ho : Phrase.opening ls with
  | error failure =>
      rw [(readStatement_of_error last ho).1] at h
      cases h
  | ok read =>
      obtain ⟨o, inner⟩ := read
      obtain ⟨front, rfl, hfront⟩ := Phrase.exact_opening.sound ho
      generalize hts : front.map Lexeme.token = ts at hfront
      cases o with
      | complete s' =>
          rw [(readStatement_of_complete last ho).1] at h
          cases h
          rw [Phrase.Opening.form] at hfront
          generalize s.form = form at hfront
          cases hfront with
          | statement hleaf => exact ⟨front, rfl, .leaf (hts ▸ hleaf)⟩
      | block labels target =>
          obtain ⟨houtcome, hreports⟩ := readStatement_of_block last ho
          rw [hreports] at hclean
          obtain ⟨hbody, hclosing⟩ := List.append_eq_nil_iff.mp hclean
          obtain ⟨within, hinner, hwithin⟩ := ih inner (Phrase.advances_opening ho) hbody
          obtain ⟨back, hback, htokens, hform⟩ :=
            closeBlock_sound (Prod.ext (houtcome.symm.trans h) hclosing)
          refine ⟨front ++ (within ++ back), ?_, ?_⟩
          · rw [List.append_assoc, List.append_assoc, ← hback, ← hinner]
          · rw [Phrase.Opening.form] at hfront
            rw [hform, List.map_append, List.map_append, htokens, hts]
            generalize target.form = form at hfront
            cases hfront with
            | block _ ht =>
                rw [← List.append_assoc]
                exact .block _ ht hwithin

/-- A body read without a report is written by the grammar. -/
theorem body_sound (ls : List Lexeme) (hclean : (readBody last ls).reports = []) :
    ∃ front, ls = front ++ (readBody last ls).rest ∧
      StatementForm.AllWritten (Statement.forms (readBody last ls).statements)
        (front.map Lexeme.token) := by
  induction hn : ls.length using Nat.strongRecOn generalizing ls with
  | ind n ih =>
      have shorter : ∀ inner, inner.length < ls.length → (readBody last inner).reports = [] →
          ∃ front, inner = front ++ (readBody last inner).rest ∧
            StatementForm.AllWritten (Statement.forms (readBody last inner).statements)
              (front.map Lexeme.token) :=
        fun inner hlt hclean => ih _ (hn ▸ hlt) inner hclean rfl
      cases ls with
      | nil =>
          obtain ⟨hss, hrest, -⟩ := readBody_nil last
          exact ⟨[], hrest.symm, hss ▸ .nil⟩
      | cons l ls =>
          by_cases hl : l.token = .rightBrace
          · obtain ⟨hss, hrest, -⟩ := readBody_of_brace last hl ls
            exact ⟨[], hrest.symm, hss ▸ .nil⟩
          · cases hread : (readStatement last (l :: ls)).outcome with
            | error failure =>
                rw [(readBody_of_error last hl hread).2.2] at hclean
                simp at hclean
            | ok read =>
                obtain ⟨s, rest⟩ := read
                obtain ⟨hss, hrest, hreports⟩ := readBody_of_ok last hl hread
                rw [hreports] at hclean
                obtain ⟨hfirst, hothers⟩ := List.append_eq_nil_iff.mp hclean
                obtain ⟨front, hls, hfront⟩ :=
                  statement_sound_of_bodies last shorter hread hfirst
                obtain ⟨back, hback, hbodies⟩ :=
                  shorter rest (Attempt.outcome_length_lt hread) hothers
                refine ⟨front ++ back, ?_, ?_⟩
                · rw [hrest, hls, List.append_assoc, ← hback]
                · rw [hss, List.map_append, Statement.forms]
                  exact .cons hfront hbodies

theorem statement_sound {ls rest : List Lexeme} {s : Statement}
    (h : (readStatement last ls).outcome = .ok (s, rest))
    (hclean : (readStatement last ls).reports = []) :
    ∃ front, ls = front ++ rest ∧ s.form.Written (front.map Lexeme.token) :=
  statement_sound_of_bodies last (fun inner _ => body_sound last inner) h hclean

/-! ### What is written is read -/

/-- The tokens that a statement may begin with. -/
def Token.beginsStatement : Token → Bool
  | word _ => true
  | label _ => true
  | labelRef _ => true
  | pathRef _ => true
  | slash => true
  | deleteNode => true
  | deleteProperty => true
  | _ => false

theorem TargetForm.Written.beginsStatement {target : TargetForm} {t : Token}
    (h : target.Written t) : t.beginsStatement = true := by
  cases h with
  | root => rfl
  | child text => rfl
  | reference href => cases href <;> rfl

/-- What begins a statement still does so after labels. -/
theorem exists_head_of_labels (labels : List String) {t : Token} (ht : t.beginsStatement = true)
    (us : List Token) :
    ∃ t' us', labels.map Token.label ++ t :: us = t' :: us' ∧ t'.beginsStatement = true := by
  cases labels with
  | nil => exact ⟨t, us, rfl, ht⟩
  | cons name labels => exact ⟨.label name, _, rfl, rfl⟩

theorem StatementForm.Written.exists_head {s : StatementForm} {ts : List Token} (h : s.Written ts) :
    ∃ t us, ts = t :: us ∧ t.beginsStatement = true := by
  cases h with
  | leaf h =>
      cases h with
      | property labels name _ => exact exists_head_of_labels labels rfl _
      | deleteNode _ => exact ⟨.deleteNode, _, rfl, rfl⟩
      | deleteProperty name => exact ⟨.deleteProperty, _, rfl, rfl⟩
  | block labels ht _ =>
      rw [List.append_assoc, List.append_assoc]
      exact exists_head_of_labels labels ht.beginsStatement _

theorem exists_of_written {s : StatementForm} {front : List Lexeme}
    (h : s.Written (front.map Lexeme.token)) :
    ∃ l ls, front = l :: ls ∧ l.token.beginsStatement = true := by
  obtain ⟨t, us, hts, ht⟩ := h.exists_head
  obtain ⟨l, ls, rfl, rfl, -⟩ := List.map_eq_cons_iff.mp hts
  exact ⟨l, ls, rfl, ht⟩

/-- A body ends before the brace that closes it. -/
theorem readBody_of_close {back : List Lexeme}
    (h : back.map Lexeme.token = [.rightBrace, .semicolon]) (rest : List Lexeme) :
    (readBody last (back ++ rest)).statements = [] ∧
      (readBody last (back ++ rest)).rest = back ++ rest ∧
      (readBody last (back ++ rest)).reports = [] := by
  obtain ⟨brace, back, rfl, hbrace, -⟩ := List.map_eq_cons_iff.mp h
  exact readBody_of_brace last hbrace _

/-- A block is read as its body is, if that ends before a brace and a semicolon. -/
theorem block_complete (labels : List String) {target : TargetForm} {t : Token}
    (ht : target.Written t) {opened back inner rest : List Lexeme}
    (hopened : opened.map Lexeme.token = labels.map .label ++ [t, .leftBrace])
    (hback : back.map Lexeme.token = [.rightBrace, .semicolon])
    (hinner : (readBody last inner).rest = back ++ rest) :
    ∃ read, (readStatement last (opened ++ inner)).outcome = .ok (read, rest) ∧
      read.form = .block labels target (Statement.forms (readBody last inner).statements) ∧
      (readStatement last (opened ++ inner)).reports = (readBody last inner).reports := by
  have hwritten : (Phrase.OpeningForm.block labels target).Written (opened.map Lexeme.token) :=
    hopened ▸ .block labels ht
  obtain ⟨o, ho, hform⟩ := Phrase.exact_opening.takes hwritten inner
  cases o with
  | complete read => cases hform
  | block shown shownTarget =>
      obtain ⟨hlabels, htarget⟩ := Phrase.OpeningForm.block.inj hform
      obtain ⟨houtcome, hreports⟩ := readStatement_of_block last ho
      obtain ⟨read, hclose, hread⟩ := closeBlock_complete shown shownTarget
        (readBody last inner).statements hback rest
      rw [hinner, hclose] at houtcome hreports
      refine ⟨read, houtcome, ?_, ?_⟩
      · rw [hread, hlabels, htarget]
      · rw [hreports, List.append_nil]

mutual

/-- A statement written at the front is read, and nothing after it. -/
theorem statement_complete : ∀ {s : StatementForm} {front : List Lexeme},
    s.Written (front.map Lexeme.token) → ∀ rest,
      ∃ read, (readStatement last (front ++ rest)).outcome = .ok (read, rest) ∧ read.form = s ∧
        (readStatement last (front ++ rest)).reports = []
  | .leaf leaf, front, h, rest => by
      cases h with
      | leaf h =>
          obtain ⟨o, ho, hform⟩ := Phrase.exact_opening.takes (.statement h) rest
          cases o with
          | block labels target => cases hform
          | complete read =>
              obtain ⟨houtcome, hreports⟩ := readStatement_of_complete last ho
              exact ⟨read, houtcome, Phrase.OpeningForm.statement.inj hform, hreports⟩
  | .block labels target body, front, h, rest => by
      generalize hts : front.map Lexeme.token = ts at h
      cases h with
      | @block _ _ t _ us ht hbody =>
          rw [List.append_assoc] at hts
          obtain ⟨opened, inner, rfl, hopened, hinner⟩ := List.map_eq_append_iff.mp hts
          obtain ⟨within, back, rfl, rfl, hback⟩ := List.map_eq_append_iff.mp hinner
          obtain ⟨hforms, hleft, hreports⟩ := body_complete hbody (back ++ rest)
          obtain ⟨hnone, hclose, hsilent⟩ := readBody_of_close last hback rest
          rw [hnone, Statement.forms, List.append_nil] at hforms
          obtain ⟨read, hread, hform, hall⟩ :=
            block_complete last labels ht hopened hback (hleft.trans hclose)
          rw [List.append_assoc, List.append_assoc]
          refine ⟨read, hread, ?_, ?_⟩
          · rw [hform, hforms]
          · rw [hall, hreports, hsilent]

/-- Statements written at the front of a body are read, and the rest of it as if it stood alone. -/
theorem body_complete : ∀ {ss : List StatementForm} {front : List Lexeme},
    StatementForm.AllWritten ss (front.map Lexeme.token) → ∀ rest,
      Statement.forms (readBody last (front ++ rest)).statements =
          ss ++ Statement.forms (readBody last rest).statements ∧
        (readBody last (front ++ rest)).rest = (readBody last rest).rest ∧
        (readBody last (front ++ rest)).reports = (readBody last rest).reports
  | [], front, h, rest => by
      generalize hts : front.map Lexeme.token = ts at h
      cases h with
      | nil =>
          obtain rfl := List.map_eq_nil_iff.mp hts
          exact ⟨rfl, rfl, rfl⟩
  | s :: ss, front, h, rest => by
      generalize hts : front.map Lexeme.token = ts at h
      cases h with
      | cons hs hss =>
          obtain ⟨front, back, rfl, rfl, rfl⟩ := List.map_eq_append_iff.mp hts
          obtain ⟨read, hread, hform, hreports⟩ := statement_complete hs (back ++ rest)
          obtain ⟨hforms, hrest, hothers⟩ := body_complete hss rest
          obtain ⟨l, ls, rfl, hl⟩ := exists_of_written hs
          have hbrace : l.token ≠ .rightBrace := by
            intro heq
            rw [heq] at hl
            cases hl
          rw [List.append_assoc, List.cons_append]
          rw [List.cons_append] at hread hreports
          obtain ⟨hstatements, hleft, hall⟩ := readBody_of_ok last hbrace hread
          refine ⟨?_, hleft.trans hrest, ?_⟩
          · rw [hstatements, Statement.forms, hform, hforms, List.cons_append]
          · rw [hall, hreports, hothers, List.nil_append]

end

/-! ### Items -/

def Item.form : Item → ItemForm
  | directive => .directive
  | inclusion found => .inclusion found.form
  | statement s => .statement s.form

namespace Item

theorem exact_bareDirective :
    Phrase.Exact bareDirective form Phrase.Anything fun i ts =>
      i = .directive ∧ ts = [.semicolon] := by
  refine ((Phrase.exact_mark .semicolon .semicolon).bind (fun _ i ts => i = .directive ∧ ts = [])
    (fun _ => Phrase.exact_pure Item.directive _) fun _ _ => trivial).congr fun i ts => ?_
  simp [and_comm]

theorem exact_memoryReserve :
    Phrase.Exact memoryReserve form Phrase.Anything fun i ts =>
      ∃ address length, i = .directive ∧ ts = [.word address, .word length, .semicolon] := by
  have hlength : Phrase.Exact (Phrase.word >>= fun _ => bareDirective) form Phrase.Anything
      fun i ts => ∃ length, i = .directive ∧ ts = [.word length, .semicolon] := by
    refine (Phrase.exact_word.bind (fun _ i ts => i = .directive ∧ ts = [.semicolon])
      (fun _ => exact_bareDirective) fun _ _ => trivial).congr fun i ts => ?_
    constructor
    · rintro ⟨length, _, _, rfl, rfl, rfl, rfl⟩
      exact ⟨length, rfl, rfl⟩
    · rintro ⟨length, rfl, rfl⟩
      exact ⟨length, _, _, rfl, rfl, rfl, rfl⟩
  refine (Phrase.exact_word.bind
    (fun _ i ts => ∃ length, i = .directive ∧ ts = [.word length, .semicolon])
    (fun _ => hlength) fun _ _ => trivial).congr fun i ts => ?_
  constructor
  · rintro ⟨address, _, _, rfl, rfl, length, rfl, rfl⟩
    exact ⟨address, length, rfl, rfl⟩
  · rintro ⟨address, length, rfl, rfl⟩
    exact ⟨address, _, _, rfl, rfl, length, rfl, rfl⟩

theorem exact_includePath (keyword : Span) :
    Phrase.Exact (includePath keyword) form Phrase.Anything fun i ts =>
      ∃ path, i = .inclusion ⟨path, true⟩ ∧ ts = [.string path] := by
  have hshows : Lexeme.Shows Lexeme.string? (·.value) fun path t => t = .string path := by
    intro l path
    cases h : l.token <;> simp [Lexeme.string?, h]
  have hpure : ∀ path : Spanned String, Phrase.Exact (pure (Item.inclusion
      ⟨⟨path.value, path.span.enclosed path.value⟩, true, keyword.union path.span⟩)) form
      Phrase.Anything fun i ts => i = .inclusion ⟨path.value, true⟩ ∧ ts = [] :=
    fun path => Phrase.exact_pure _ _
  refine ((Phrase.exact_one hshows .includePath).bind
    (fun path i ts => i = .inclusion ⟨path, true⟩ ∧ ts = []) hpure
    fun _ _ => trivial).congr fun i ts => ?_
  simp [and_comm]

theorem map_result {ls : List Lexeme} (a : Attempt ls) :
    (a.result.map fun read => (statement read.1.1, read.1.2)) =
      a.outcome.map fun read => (statement read.1, read.2) := by
  rw [Attempt.outcome]
  cases a.result <;> rfl

theorem read_of_beginsStatement {l : Lexeme} (h : l.token.beginsStatement = true)
    (ls : List Lexeme) :
    Item.read last (l :: ls) =
      ((readStatement last (l :: ls)).outcome.map fun read => (statement read.1, read.2),
        (readStatement last (l :: ls)).reports) := by
  rw [← map_result, Item.read]
  split <;> simp_all [Token.beginsStatement]

/-- An item read without a report is written by the grammar. -/
theorem read_sound {ls rest : List Lexeme} {item : Item}
    (h : Item.read last ls = (.ok (item, rest), [])) :
    ∃ front, ls = front ++ rest ∧ item.form.Written (front.map Lexeme.token) := by
  cases ls with
  | nil => cases h
  | cons l ls =>
      rw [Item.read] at h
      split at h <;> obtain ⟨hresult, hclean⟩ := Prod.mk.inj h
      · rename_i htoken
        refine exact_bareDirective.sound_cons ?_ hresult
        rintro _ _ ⟨rfl, rfl⟩
        exact htoken ▸ .version
      · rename_i htoken
        refine exact_bareDirective.sound_cons ?_ hresult
        rintro _ _ ⟨rfl, rfl⟩
        exact htoken ▸ .plugin
      · rename_i htoken
        refine exact_memoryReserve.sound_cons ?_ hresult
        rintro _ _ ⟨address, length, rfl, rfl⟩
        exact htoken ▸ .memoryReserve address length
      · rename_i htoken
        refine (exact_includePath _).sound_cons ?_ hresult
        rintro _ _ ⟨path, rfl, rfl⟩
        exact htoken ▸ .includeFile path
      · rename_i path quoted htoken
        cases hresult
        refine ⟨[l], rfl, ?_⟩
        rw [List.map_singleton, htoken]
        exact .hashInclude path quoted
      · rw [map_result] at hresult
        cases hread : (readStatement last (l :: ls)).outcome with
        | error failure =>
            rw [hread] at hresult
            cases hresult
        | ok read =>
            rw [hread] at hresult
            cases hresult
            obtain ⟨front, hls, hfront⟩ := statement_sound last hread hclean
            exact ⟨front, hls, .statement hfront⟩

/-- An item written at the front is read, and nothing after it. -/
theorem read_complete {i : ItemForm} {front : List Lexeme} (h : i.Written (front.map Lexeme.token))
    (rest : List Lexeme) :
    ∃ item, Item.read last (front ++ rest) = (.ok (item, rest), []) ∧ item.form = i := by
  generalize hts : front.map Lexeme.token = ts at h
  cases h with
  | version =>
      obtain ⟨l, front, rfl, hl, hfront⟩ := List.map_eq_cons_iff.mp hts
      obtain ⟨item, hitem, hform⟩ := exact_bareDirective.takes ⟨rfl, hfront⟩ rest
      exact ⟨item, by simp only [List.cons_append, Item.read, hl, hitem], hform⟩
  | plugin =>
      obtain ⟨l, front, rfl, hl, hfront⟩ := List.map_eq_cons_iff.mp hts
      obtain ⟨item, hitem, hform⟩ := exact_bareDirective.takes ⟨rfl, hfront⟩ rest
      exact ⟨item, by simp only [List.cons_append, Item.read, hl, hitem], hform⟩
  | memoryReserve address length =>
      obtain ⟨l, front, rfl, hl, hfront⟩ := List.map_eq_cons_iff.mp hts
      obtain ⟨item, hitem, hform⟩ :=
        exact_memoryReserve.takes ⟨address, length, rfl, hfront⟩ rest
      exact ⟨item, by simp only [List.cons_append, Item.read, hl, hitem], hform⟩
  | includeFile path =>
      obtain ⟨l, front, rfl, hl, hfront⟩ := List.map_eq_cons_iff.mp hts
      obtain ⟨item, hitem, hform⟩ := (exact_includePath l.span).takes ⟨path, rfl, hfront⟩ rest
      exact ⟨item, by simp only [List.cons_append, Item.read, hl, hitem], hform⟩
  | hashInclude path quoted =>
      obtain ⟨l, rfl, hl⟩ := List.map_eq_singleton_iff.mp hts
      exact ⟨.inclusion ⟨⟨path, l.span.enclosed path⟩, quoted, l.span⟩,
        by simp only [List.singleton_append, Item.read, hl], rfl⟩
  | @statement s ts hs =>
      subst hts
      obtain ⟨read, hread, hform, hreports⟩ := statement_complete last hs rest
      obtain ⟨l, ls, rfl, hl⟩ := exists_of_written hs
      refine ⟨.statement read, ?_, congrArg ItemForm.statement hform⟩
      rw [List.cons_append] at hread hreports ⊢
      rw [read_of_beginsStatement last hl, hread, hreports]
      rfl

end Item

/-- Items read without a report are written by the grammar. -/
theorem items_sound (ls : List Lexeme) (hclean : (Items.read last ls).reports = []) :
    ItemForm.AllWritten ((Items.read last ls).items.map Item.form) (ls.map Lexeme.token) := by
  induction hn : ls.length using Nat.strongRecOn generalizing ls with
  | ind n ih =>
      cases ls with
      | nil =>
          rw [Items.read]
          exact .nil
      | cons l ls =>
          cases hread : Item.read last (l :: ls) with
          | mk result reports =>
              cases result with
              | error failure =>
                  rw [(items_of_error last hread).2] at hclean
                  simp at hclean
              | ok read =>
                  obtain ⟨item, rest⟩ := read
                  obtain ⟨hitems, hreports⟩ := items_of_ok last hread
                  rw [hreports] at hclean
                  obtain ⟨rfl, hothers⟩ := List.append_eq_nil_iff.mp hclean
                  obtain ⟨front, hls, hfront⟩ := Item.read_sound last hread
                  have hrest := ih _ (hn ▸ Item.read_length_lt hread) rest hothers rfl
                  rw [hitems, hls, List.map_append]
                  exact .cons hfront hrest

/-- Items written at the front are read, and the rest as if it stood alone. -/
theorem items_complete {is : List ItemForm} {front : List Lexeme}
    (h : ItemForm.AllWritten is (front.map Lexeme.token)) (rest : List Lexeme) :
    (Items.read last (front ++ rest)).items.map Item.form =
        is ++ (Items.read last rest).items.map Item.form ∧
      (Items.read last (front ++ rest)).reports = (Items.read last rest).reports := by
  generalize hts : front.map Lexeme.token = ts at h
  induction h generalizing front with
  | nil =>
      obtain rfl := List.map_eq_nil_iff.mp hts
      exact ⟨rfl, rfl⟩
  | @cons i is ts us hi his ih =>
      obtain ⟨front, back, rfl, rfl, hback⟩ := List.map_eq_append_iff.mp hts
      obtain ⟨item, hread, hform⟩ := Item.read_complete last hi (back ++ rest)
      obtain ⟨hitems, hreports⟩ := ih hback
      have shorter := Item.read_length_lt hread
      cases front with
      | nil => simp at shorter
      | cons l ls =>
          rw [List.cons_append] at hread
          obtain ⟨hfirst, hsilent⟩ := items_of_ok last hread
          rw [List.append_assoc, List.cons_append]
          constructor
          · rw [hfirst, List.map_cons, hform, hitems, List.cons_append]
          · rw [hsilent, hreports, List.nil_append]

/-! ### Files -/

theorem Items.forms_statements (items : Items) :
    Statement.forms items.statements =
      (items.items.map Item.form).filterMap ItemForm.statement? := by
  rw [Statement.forms_eq_map, Items.statements, List.map_filterMap, List.filterMap_map]
  congr 1
  funext item
  cases item <;> rfl

theorem Items.forms_includes (items : Items) :
    items.includes.map Include.form =
      (items.items.map Item.form).filterMap ItemForm.inclusion? := by
  rw [Items.includes, List.map_filterMap, List.filterMap_map]
  congr 1
  funext item
  cases item <;> rfl

namespace SourceFile

/-- Where failures at the end of some lexemes are reported. -/
def endOf (ls : List Lexeme) : Span :=
  (ls.getLast?.map (·.span)).getD Span.origin

theorem form_ofLexemes (file : FileId) (ls : List Lexeme) :
    (ofLexemes file ls).form = .ofItems ((Items.read (endOf ls) ls).items.map Item.form) := by
  rw [FileForm.ofItems, ← Items.forms_statements, ← Items.forms_includes, form, ofLexemes,
    Statement.forms_numberAll]
  rfl

theorem diagnostics_ofLexemes (file : FileId) (ls : List Lexeme) :
    (ofLexemes file ls).diagnostics = (Items.read (endOf ls) ls).reports :=
  rfl

/-- What is written as a whole is read, and nothing is reported. -/
theorem ofLexemes_of_written {items : List ItemForm} {ls : List Lexeme}
    (h : ItemForm.AllWritten items (ls.map Lexeme.token)) (file : FileId) :
    (ofLexemes file ls).diagnostics = [] ∧ (ofLexemes file ls).form = .ofItems items := by
  obtain ⟨hitems, hreports⟩ := items_complete (endOf ls) h []
  rw [List.append_nil] at hitems hreports
  have hnone : (Items.read (endOf ls) []).items = [] ∧ (Items.read (endOf ls) []).reports = [] := by
    rw [Items.read]
    exact ⟨rfl, rfl⟩
  constructor
  · rw [diagnostics_ofLexemes, hreports, hnone.2]
  · rw [form_ofLexemes, hitems, hnone.1, List.map_nil, List.append_nil]

/-- Lexemes are read without a report exactly if the grammar writes their tokens, and what is read
is then the one form that they write. -/
theorem read_iff_written (file : FileId) (ls : List Lexeme) :
    ((ofLexemes file ls).diagnostics = [] ↔ ∃ form : FileForm, form.Written (ls.map Lexeme.token)) ∧
      ∀ form : FileForm, form.Written (ls.map Lexeme.token) ↔
        (ofLexemes file ls).diagnostics = [] ∧ (ofLexemes file ls).form = form := by
  have hsound : (ofLexemes file ls).diagnostics = [] →
      (ofLexemes file ls).form.Written (ls.map Lexeme.token) := fun hclean =>
    ⟨_, items_sound (endOf ls) ls hclean, (form_ofLexemes file ls).symm⟩
  have hcomplete : ∀ form : FileForm, form.Written (ls.map Lexeme.token) →
      (ofLexemes file ls).diagnostics = [] ∧ (ofLexemes file ls).form = form := by
    rintro form ⟨items, hitems, rfl⟩
    exact ofLexemes_of_written hitems file
  refine ⟨⟨fun hclean => ⟨_, hsound hclean⟩, ?_⟩, fun form => ⟨hcomplete form, ?_⟩⟩
  · rintro ⟨form, hform⟩
    exact (hcomplete form hform).1
  · rintro ⟨hclean, rfl⟩
    exact hsound hclean

end SourceFile

end Devicetree
