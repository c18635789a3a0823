import Devicetree.Source.Phrase
import Devicetree.Proofs.Source.Grammar

/-!
# Phrases read what is written

A phrase is exact if the lexemes that it takes are a way to write what it shows, and if it takes
whatever is written at the front, no less and no more. The second half holds as long as the tokens
that follow could not be a part of the phrase too.
-/

namespace Devicetree

namespace Lexeme

variable {α β : Type}

/-- A class of lexemes shows what a relation gives for their tokens. -/
def Shows (f : Lexeme → Option α) (view : α → β) (R : β → Token → Prop) : Prop :=
  ∀ l b, (∃ a, f l = some a ∧ view a = b) ↔ R b l.token

end Lexeme

namespace Phrase

variable {α β γ δ : Type}

structure Exact (p : Phrase α) (view : α → β) (Follow : List Token → Prop)
    (W : β → List Token → Prop) : Prop where
  sound : ∀ {ls rest a}, p ls = .ok (a, rest) →
    ∃ front, ls = front ++ rest ∧ W (view a) (front.map Lexeme.token)
  complete : ∀ {b front rest}, W b (front.map Lexeme.token) → Follow (rest.map Lexeme.token) →
    ∃ a, p (front ++ rest) = .ok (a, rest) ∧ view a = b

/-- Any tokens may follow. -/
def Anything (_ : List Token) : Prop := True

/-- What follows does not begin with a token of a class. -/
def Ends (R : β → Token → Prop) (ts : List Token) : Prop :=
  ∀ t ∈ ts.head?, ∀ b, ¬R b t

/-! ### Combinations -/

theorem Exact.takes {p : Phrase α} {view : α → β} {W : β → List Token → Prop}
    (h : Exact p view Anything W) {b : β} {front : List Lexeme} (hw : W b (front.map Lexeme.token))
    (rest : List Lexeme) : ∃ a, p (front ++ rest) = .ok (a, rest) ∧ view a = b :=
  h.complete hw trivial

/-- A phrase after a token that was taken before it. -/
theorem Exact.sound_cons {p : Phrase α} {view : α → β} {Follow : List Token → Prop}
    {W W' : β → List Token → Prop} (h : Exact p view Follow W) {l : Lexeme}
    (hw : ∀ b ts, W b ts → W' b (l.token :: ts)) {ls rest : List Lexeme} {a : α}
    (hp : p ls = .ok (a, rest)) :
    ∃ front, l :: ls = front ++ rest ∧ W' (view a) (front.map Lexeme.token) := by
  obtain ⟨front, rfl, hfront⟩ := h.sound hp
  exact ⟨l :: front, rfl, hw _ _ hfront⟩

theorem Exact.congr {p : Phrase α} {view : α → β} {Follow : List Token → Prop}
    {W W' : β → List Token → Prop} (h : Exact p view Follow W) (hW : ∀ b ts, W b ts ↔ W' b ts) :
    Exact p view Follow W' where
  sound hp := by
    obtain ⟨front, hls, hw⟩ := h.sound hp
    exact ⟨front, hls, (hW _ _).mp hw⟩
  complete hw := h.complete ((hW _ _).mpr hw)

theorem exact_pure {Follow : List Token → Prop} (a : α) (view : α → β) :
    Exact (pure a) view Follow fun b ts => b = view a ∧ ts = [] where
  sound hp := by
    obtain ⟨rfl, rfl⟩ := pure_ok.mp hp
    exact ⟨[], rfl, rfl, rfl⟩
  complete hw _ := by
    obtain ⟨rfl, hnil⟩ := hw
    rw [List.map_eq_nil_iff.mp hnil]
    exact ⟨a, rfl, rfl⟩

theorem Exact.bind {p : Phrase α} {f : α → Phrase γ} {view : α → β} {view' : γ → δ}
    {Before Follow : List Token → Prop} {W : β → List Token → Prop} (hp : Exact p view Before W)
    (W' : β → δ → List Token → Prop) (hf : ∀ a, Exact (f a) view' Follow (W' (view a)))
    (hbefore : ∀ {b d ts us}, W' b d ts → Follow us → Before (ts ++ us)) :
    Exact (p >>= f) view' Follow fun d ts =>
      ∃ b us vs, ts = us ++ vs ∧ W b us ∧ W' b d vs where
  sound h := by
    obtain ⟨a, mid, ha, hc⟩ := bind_ok.mp h
    obtain ⟨front, rfl, hw⟩ := hp.sound ha
    obtain ⟨back, rfl, hw'⟩ := (hf a).sound hc
    exact ⟨front ++ back, (List.append_assoc _ _ _).symm, _, _, _, List.map_append, hw, hw'⟩
  complete h hfollow := by
    obtain ⟨b, us, vs, hts, hw, hw'⟩ := h
    obtain ⟨front, back, rfl, rfl, rfl⟩ := List.map_eq_append_iff.mp hts
    have hnext := hbefore hw' hfollow
    rw [← List.map_append] at hnext
    obtain ⟨a, ha, rfl⟩ := hp.complete hw hnext
    obtain ⟨c, hc, hview⟩ := (hf a).complete hw' hfollow
    exact ⟨c, bind_ok.mpr ⟨a, _, List.append_assoc _ _ _ ▸ ha, hc⟩, hview⟩

/-! ### Single lexemes -/

theorem one_of_some {f : Lexeme → Option α} {l : Lexeme} {a : α} (h : f l = some a)
    (expected : Expected) (ls : List Lexeme) : one expected f (l :: ls) = .ok (a, ls) := by
  simp only [one, h]

theorem exact_one {f : Lexeme → Option α} {view : α → β} {R : β → Token → Prop}
    (hf : Lexeme.Shows f view R) (expected : Expected) :
    Exact (one expected f) view Anything fun b ts => ∃ t, ts = [t] ∧ R b t where
  sound {ls rest a} h := by
    cases ls with
    | nil => simp [one] at h
    | cons l ls =>
        cases hl : f l with
        | none => simp [one, hl] at h
        | some b =>
            rw [one_of_some hl] at h
            cases h
            exact ⟨[l], rfl, _, rfl, (hf l _).mp ⟨_, hl, rfl⟩⟩
  complete {b front rest} h _ := by
    obtain ⟨t, hts, ht⟩ := h
    obtain ⟨l, rfl, rfl⟩ := List.map_eq_singleton_iff.mp hts
    obtain ⟨a, ha, hview⟩ := (hf l b).mpr ht
    exact ⟨a, one_of_some ha expected rest, hview⟩

theorem exact_mark (token : Token) (expected : Expected) :
    Exact (mark token expected) (fun _ => ()) Anything fun _ ts => ts = [token] := by
  have hshows : Lexeme.Shows (fun l => if l.token = token then some l.span else none)
      (fun _ => ()) fun _ t => t = token := by
    intro l b
    simp
  refine (exact_one hshows expected).congr fun _ ts => ?_
  simp

theorem exact_word : Exact word (·.value) Anything fun name ts => ts = [.word name] := by
  have hshows : Lexeme.Shows Lexeme.word? (·.value) fun name t => t = .word name := by
    intro l name
    cases h : l.token <;> simp [Lexeme.word?, h]
  refine (exact_one hshows .name).congr fun name ts => ?_
  simp

theorem splitMany_of_none {f : Lexeme → Option α} {ls : List Lexeme}
    (h : ∀ l ∈ ls.head?, f l = none) : splitMany f ls = ([], ls) := by
  cases ls with
  | nil => rfl
  | cons l ls => simp only [splitMany, h l rfl]

theorem splitMany_cons {f : Lexeme → Option α} {l : Lexeme} {a : α} (h : f l = some a)
    (ls : List Lexeme) :
    splitMany f (l :: ls) = (a :: (splitMany f ls).1, (splitMany f ls).2) := by
  simp only [splitMany, h]

theorem exact_many {f : Lexeme → Option α} {view : α → β} {R : β → Token → Prop}
    (hf : Lexeme.Shows f view R) :
    Exact (many f) (List.map view) (Ends R) (List.Forall₂ R) where
  sound {ls rest as} h := by
    have hsplit : splitMany f ls = (as, rest) := Except.ok.inj h
    clear h
    induction ls generalizing as with
    | nil =>
        cases hsplit
        exact ⟨[], rfl, .nil⟩
    | cons l ls ih =>
        cases hl : f l with
        | none =>
            simp only [splitMany, hl] at hsplit
            cases hsplit
            exact ⟨[], rfl, .nil⟩
        | some a =>
            rw [splitMany_cons hl] at hsplit
            obtain ⟨rfl, hrest⟩ := Prod.mk.inj hsplit
            obtain ⟨front, rfl, hfront⟩ := ih (Prod.ext rfl hrest)
            exact ⟨l :: front, rfl, .cons ((hf l _).mp ⟨a, hl, rfl⟩) hfront⟩
  complete {bs front rest} h hends := by
    have hsplit : ∃ as, splitMany f (front ++ rest) = (as, rest) ∧ as.map view = bs := by
      induction front generalizing bs with
      | nil =>
          rw [List.map_nil, List.forall₂_nil_right_iff] at h
          refine ⟨[], splitMany_of_none fun l hl => ?_, h.symm⟩
          refine Option.eq_none_iff_forall_not_mem.mpr fun a ha => ?_
          refine hends l.token ?_ _ ((hf l _).mp ⟨a, ha, rfl⟩)
          rw [List.head?_map]
          exact Option.mem_map_of_mem _ hl
      | cons l front ih =>
          rw [List.map_cons, List.forall₂_cons_right_iff] at h
          obtain ⟨b, bs', hb, hbs, rfl⟩ := h
          obtain ⟨a, ha, rfl⟩ := (hf l b).mpr hb
          obtain ⟨as, has, rfl⟩ := ih hbs
          refine ⟨a :: as, ?_, rfl⟩
          rw [List.cons_append, splitMany_cons ha, has]
    obtain ⟨as, has, hview⟩ := hsplit
    exact ⟨as, congrArg Except.ok has, hview⟩

/-! ### References and cells -/

theorem values_segmentsFrom (span : Span) (text : Text) (offset : Nat) (segments : List Text) :
    (PathRef.segmentsFrom span text offset segments).map (·.value) =
      (segments.filter (!·.isEmpty)).map fun segment => UnitName.read (String.ofList segment) := by
  induction segments generalizing offset with
  | nil => rfl
  | cons segment segments ih =>
      cases segment with
      | nil => simp [PathRef.segmentsFrom, ih]
      | cons c cs => simp [PathRef.segmentsFrom, ih]

theorem shows_reference : Lexeme.Shows Lexeme.reference? Reference.form ReferenceForm.Written := by
  intro l b
  constructor
  · rintro ⟨ref, href, rfl⟩
    unfold Lexeme.reference? at href
    split at href
    · rename_i name hname
      cases href
      rw [hname]
      exact .label name
    · rename_i path hpath
      cases href
      rw [hpath, Reference.form, PathRef.read, values_segmentsFrom]
      exact .path path
    · cases href
  · intro h
    generalize ht : l.token = t at h
    cases h with
    | label name => exact ⟨_, by simp only [Lexeme.reference?, ht]; rfl, rfl⟩
    | path path =>
        refine ⟨.path (PathRef.read path l.span), by simp only [Lexeme.reference?, ht], ?_⟩
        rw [Reference.form, PathRef.read, values_segmentsFrom]
        rfl

theorem shows_cell : Lexeme.Shows Lexeme.cell? Cell.form CellForm.Written := by
  intro l b
  constructor
  · rintro ⟨cell, hcell, rfl⟩
    unfold Lexeme.cell? at hcell
    split at hcell
    · rename_i text htext
      rw [htext]
      split at hcell
      · cases hcell
        exact .number ‹_›
      · cases hcell
        exact .symbol ‹_›
    · obtain ⟨ref, href, rfl⟩ := Option.map_eq_some_iff.mp hcell
      exact .reference ((shows_reference l _).mp ⟨ref, href, rfl⟩)
  · intro h
    generalize ht : l.token = t at h
    cases h with
    | @number text n hn => exact ⟨.number ⟨n, l.span⟩, by simp only [Lexeme.cell?, ht, hn], rfl⟩
    | @symbol text hn => exact ⟨.symbol ⟨text, l.span⟩, by simp only [Lexeme.cell?, ht, hn], rfl⟩
    | reference href =>
        obtain ⟨ref, hl, hform⟩ := (shows_reference l _).mpr (ht ▸ href)
        refine ⟨.reference ref, ?_, congrArg CellForm.reference hform⟩
        cases href <;> simp only [Lexeme.cell?, ht, hl, Option.map_some]

theorem shows_bytes : Lexeme.Shows Lexeme.bytes? id BytesWritten := by
  intro l bytes
  constructor
  · rintro ⟨found, hfound, rfl⟩
    unfold Lexeme.bytes? at hfound
    split at hfound
    · rename_i text htext
      rw [htext]
      exact .word hfound
    · cases hfound
  · intro h
    generalize ht : l.token = t at h
    cases h with
    | word htext => exact ⟨bytes, by simp only [Lexeme.bytes?, ht, htext], rfl⟩

/-! ### Values -/

/-- Lexemes of a class up to a closing mark, which is not of the class itself. -/
theorem exact_enclosed {f : Lexeme → Option α} {view : α → β} {R : β → Token → Prop}
    (hf : Lexeme.Shows f view R) {close : Token} (hclose : ∀ b, ¬R b close) (expected : Expected)
    (start : Span) (build : List α → Span → Value) {shape : List β → ValueForm}
    (hbuild : ∀ as span, (build as span).form = shape (as.map view)) :
    Exact (many f >>= fun as => mark close expected >>= fun stop =>
      pure (build as (start.union stop))) Value.form Anything fun v ts =>
        ∃ bs us, v = shape bs ∧ ts = us ++ [close] ∧ List.Forall₂ R bs us := by
  have hend : ∀ as : List α, Exact
      (mark close expected >>= fun stop => pure (build as (start.union stop))) Value.form Anything
      fun v ts => v = shape (as.map view) ∧ ts = [close] := by
    intro as
    have hpure : ∀ stop, Exact (pure (build as (start.union stop))) Value.form Anything
        fun v ts => v = shape (as.map view) ∧ ts = [] := by
      intro stop
      rw [← hbuild as (start.union stop)]
      exact exact_pure _ _
    refine ((exact_mark close expected).bind (fun _ v ts => v = shape (as.map view) ∧ ts = [])
      hpure fun _ _ => trivial).congr fun v ts => ?_
    simp [and_comm]
  refine ((exact_many hf).bind (fun bs v ts => v = shape bs ∧ ts = [close]) hend ?_).congr
    fun v ts => ?_
  · rintro bs v ts us ⟨-, rfl⟩ - t ht b hb
    cases ht
    exact hclose b hb
  · constructor
    · rintro ⟨bs, us, vs, rfl, hbs, rfl, rfl⟩
      exact ⟨bs, us, rfl, rfl, hbs⟩
    · rintro ⟨bs, us, rfl, rfl, hbs⟩
      exact ⟨bs, us, _, rfl, hbs, rfl, rfl⟩

theorem exact_cells (start : Span) :
    Exact (cells start) Value.form Anything fun v ts =>
      ∃ cs us, v = .cells cs ∧ ts = us ++ [.rightAngle] ∧ List.Forall₂ CellForm.Written cs us := by
  refine exact_enclosed shows_cell (fun b hb => ?_) .rightAngle start .cells fun _ _ => rfl
  cases hb with
  | reference h => cases h

theorem exact_bytes (start : Span) :
    Exact (bytes start) Value.form Anything fun v ts =>
      ∃ words us, v = .bytes words.flatten ∧ ts = us ++ [.rightBracket] ∧
        List.Forall₂ BytesWritten words us := by
  refine exact_enclosed shows_bytes (fun b hb => ?_) .rightBracket start
    (fun words span => .bytes ⟨words.flatten, span⟩) fun words _ => ?_
  · cases hb
  · rw [Value.form, List.map_id]

theorem exact_value : Exact value Value.form Anything ValueForm.Written where
  sound {ls rest v} h := by
    cases ls with
    | nil => cases h
    | cons l ls =>
        rw [value] at h
        split at h
        · rename_i content htoken
          cases h
          refine ⟨[l], rfl, ?_⟩
          rw [List.map_singleton, htoken]
          exact .string content
        · rename_i htoken
          refine (exact_cells _).sound_cons ?_ h
          rintro _ _ ⟨cs, us, rfl, rfl, hcs⟩
          exact htoken ▸ .cells hcs
        · rename_i htoken
          refine (exact_bytes _).sound_cons ?_ h
          rintro _ _ ⟨words, us, rfl, rfl, hwords⟩
          exact htoken ▸ .bytes hwords
        · split at h
          · rename_i ref href
            cases h
            exact ⟨[l], rfl, .reference ((shows_reference l _).mp ⟨ref, href, rfl⟩)⟩
          · cases h
  complete {v front rest} h _ := by
    generalize hts : front.map Lexeme.token = ts at h
    cases h with
    | string content =>
        obtain ⟨l, rfl, hl⟩ := List.map_eq_singleton_iff.mp hts
        exact ⟨.string ⟨content, l.span⟩, by simp only [List.singleton_append, value, hl], rfl⟩
    | @cells cs us hcs =>
        obtain ⟨l, front, rfl, hl, hfront⟩ := List.map_eq_cons_iff.mp hts
        obtain ⟨v, hv, hform⟩ :=
          (exact_cells l.span).takes ⟨cs, us, rfl, hfront, hcs⟩ rest
        exact ⟨v, by simp only [List.cons_append, value, hl, hv], hform⟩
    | @bytes words us hwords =>
        obtain ⟨l, front, rfl, hl, hfront⟩ := List.map_eq_cons_iff.mp hts
        obtain ⟨v, hv, hform⟩ :=
          (exact_bytes l.span).takes ⟨words, us, rfl, hfront, hwords⟩ rest
        exact ⟨v, by simp only [List.cons_append, value, hl, hv], hform⟩
    | @reference form t href =>
        obtain ⟨l, rfl, rfl⟩ := List.map_eq_singleton_iff.mp hts
        obtain ⟨ref, hl, hform⟩ := (shows_reference l _).mpr href
        refine ⟨.reference ref, ?_, congrArg ValueForm.reference hform⟩
        generalize ht : l.token = t at href
        cases href <;> simp only [List.singleton_append, value, ht, hl]

/-! ### Properties and deletes -/

/-- What follows begins with a given token. -/
def Before (token : Token) (ts : List Token) : Prop :=
  ts.head? = some token

theorem exists_of_before {token : Token} {ls : List Lexeme}
    (h : Before token (ls.map Lexeme.token)) : ∃ l rest, ls = l :: rest ∧ l.token = token := by
  rw [Before, List.head?_map] at h
  obtain ⟨l, hl, rfl⟩ := Option.map_eq_some_iff.mp h
  obtain ⟨rest, rfl⟩ := List.head?_eq_some_iff.mp hl
  exact ⟨l, rest, rfl, rfl⟩

theorem exact_moreValues :
    Exact moreValues (List.map Value.form) (Before .semicolon) ValueForm.MoreWritten where
  sound {ls rest vs} h := by
    induction hn : ls.length using Nat.strongRecOn generalizing ls vs with
    | ind n ih =>
        rw [moreValues.eq_def] at h
        split at h
        · cases h
          exact ⟨[], rfl, .nil⟩
        · rename_i l ls
          split at h
          · rename_i hcomma
            split at h
            · cases h
            · rename_i v after hv
              split at h
              · cases h
              · rename_i ws last hm
                cases h
                have shorter : after.length < n := by
                  have := advances_value hv
                  rw [← hn, List.length_cons]
                  omega
                obtain ⟨front, rfl, hfront⟩ := exact_value.sound hv
                obtain ⟨back, rfl, hback⟩ := ih _ shorter hm rfl
                refine ⟨l :: (front ++ back), ?_, ?_⟩
                · rw [List.cons_append, List.append_assoc]
                · rw [List.map_cons, List.map_cons, hcomma, List.map_append]
                  exact .cons hfront hback
          · cases h
            exact ⟨[], rfl, .nil⟩
  complete {bs front rest} h hends := by
    generalize hts : front.map Lexeme.token = ts at h
    induction h generalizing front with
    | nil =>
        obtain rfl := List.map_eq_nil_iff.mp hts
        obtain ⟨l, rest, rfl, hl⟩ := exists_of_before hends
        refine ⟨[], ?_, rfl⟩
        rw [List.nil_append, moreValues, if_neg (by simp [hl])]
    | @cons v vs ts us hv hvs ih =>
        obtain ⟨l, front, rfl, hl, hfront⟩ := List.map_eq_cons_iff.mp hts
        obtain ⟨front, back, rfl, rfl, hback⟩ := List.map_eq_append_iff.mp hfront
        obtain ⟨ws, hws, hmore⟩ := ih hback
        obtain ⟨w, hw, hvalue⟩ := exact_value.takes hv (back ++ rest)
        refine ⟨w :: ws, ?_, by rw [List.map_cons, hvalue, hmore]⟩
        rw [List.cons_append, List.append_assoc, moreValues, if_pos hl]
        split
        · rename_i hfail
          rw [hw] at hfail
          cases hfail
        · rename_i w' after hfound
          rw [hw] at hfound
          cases hfound
          rw [hws]

theorem exact_values :
    Exact values (List.map Value.form) (Before .semicolon) fun vs ts =>
      ∃ v ws us ws', vs = v :: ws ∧ ts = us ++ ws' ∧ v.Written us ∧
        ValueForm.MoreWritten ws ws' := by
  have hmore : ∀ v : Value, Exact (moreValues >>= fun vs => pure (v :: vs)) (List.map Value.form)
      (Before .semicolon) fun vs ts => ∃ ws, vs = v.form :: ws ∧ ValueForm.MoreWritten ws ts := by
    intro v
    refine (exact_moreValues.bind (fun ws vs ts => vs = v.form :: ws ∧ ts = [])
      (fun ws => exact_pure (v :: ws) _) ?_).congr fun vs ts => ?_
    · rintro ws vs ts us ⟨-, rfl⟩ hfollow
      exact hfollow
    · constructor
      · rintro ⟨ws, us, _, rfl, hws, rfl, rfl⟩
        rw [List.append_nil]
        exact ⟨ws, rfl, hws⟩
      · rintro ⟨ws, rfl, hws⟩
        exact ⟨ws, ts, [], (List.append_nil ts).symm, hws, rfl, rfl⟩
  refine (exact_value.bind (fun v vs ts => ∃ ws, vs = v :: ws ∧ ValueForm.MoreWritten ws ts)
    hmore fun _ _ => trivial).congr fun vs ts => ?_
  constructor
  · rintro ⟨v, us, ws', rfl, hv, ws, rfl, hws⟩
    exact ⟨v, ws, us, ws', rfl, rfl, hv, hws⟩
  · rintro ⟨v, ws, us, ws', rfl, rfl, hv, hws⟩
    exact ⟨v, us, ws', rfl, hv, ws, rfl, hws⟩

theorem exact_assigned :
    Exact assigned (List.map Value.form) (Before .semicolon) ValueForm.Assigned where
  sound {ls rest vs} h := by
    rw [assigned.eq_def] at h
    split at h
    · cases h
      exact ⟨[], rfl, .nothing⟩
    · rename_i l ls
      split at h
      · rename_i hequals
        refine exact_values.sound_cons ?_ h
        rintro _ _ ⟨v, ws, us, ws', rfl, rfl, hv, hws⟩
        exact hequals ▸ .values hv hws
      · cases h
        exact ⟨[], rfl, .nothing⟩
  complete {bs front rest} h hends := by
    generalize hts : front.map Lexeme.token = ts at h
    cases h with
    | nothing =>
        obtain rfl := List.map_eq_nil_iff.mp hts
        obtain ⟨l, rest, rfl, hl⟩ := exists_of_before hends
        exact ⟨[], by rw [List.nil_append, assigned, if_neg (by simp [hl])], rfl⟩
    | @values v ws us ws' hv hws =>
        obtain ⟨l, front, rfl, hl, hfront⟩ := List.map_eq_cons_iff.mp hts
        obtain ⟨vs, hvs, hform⟩ :=
          exact_values.complete ⟨v, ws, us, ws', rfl, hfront, hv, hws⟩ hends
        exact ⟨vs, by rw [List.cons_append, assigned, if_pos hl, hvs], hform⟩

/-- A phrase that closes with a semicolon. -/
theorem exact_ended {build : Span → Statement} {s : StatementForm}
    (hbuild : ∀ stop, (build stop).form = s) {Follow : List Token → Prop} :
    Exact (semicolon >>= fun stop => pure (build stop)) Statement.form Follow fun s' ts =>
      s' = s ∧ ts = [.semicolon] := by
  have hpure : ∀ stop, Exact (pure (build stop)) Statement.form Follow
      fun s' ts => s' = s ∧ ts = [] := by
    intro stop
    rw [← hbuild stop]
    exact exact_pure _ _
  refine ((exact_mark .semicolon .semicolon).bind (fun _ s' ts => s' = s ∧ ts = []) hpure
    fun _ _ => trivial).congr fun s' ts => ?_
  simp [and_comm]

theorem exact_property (labels : List Label) :
    Exact (property labels) Statement.form Anything fun s ts =>
      ∃ name vs us, s = .leaf (.property ⟨labels.map (·.value), name, vs⟩) ∧
        ts = .word name :: (us ++ [.semicolon]) ∧ ValueForm.Assigned vs us := by
  have hend : ∀ (name : Spanned String) (values : List Value), Exact
      (semicolon >>= fun stop => pure (Statement.property
        ⟨default, labels, name, values, (startSpan labels name.span).union stop⟩))
      Statement.form Anything fun s ts =>
        s = .leaf (.property ⟨labels.map (·.value), name.value, values.map Value.form⟩) ∧
          ts = [.semicolon] := by
    intro name values
    refine exact_ended ?_
    exact fun _ => rfl
  have hassigned : ∀ name : Spanned String, Exact
      (assigned >>= fun values => semicolon >>= fun stop => pure (Statement.property
        ⟨default, labels, name, values, (startSpan labels name.span).union stop⟩))
      Statement.form Anything fun s ts =>
        ∃ vs us, s = .leaf (.property ⟨labels.map (·.value), name.value, vs⟩) ∧
          ts = us ++ [.semicolon] ∧ ValueForm.Assigned vs us := by
    intro name
    refine (exact_assigned.bind
      (fun vs s ts => s = .leaf (.property ⟨labels.map (·.value), name.value, vs⟩) ∧
        ts = [.semicolon]) (hend name) ?_).congr fun s ts => ?_
    · rintro vs s ts us ⟨-, rfl⟩ -
      rfl
    · constructor
      · rintro ⟨vs, us, _, rfl, hvs, rfl, rfl⟩
        exact ⟨vs, us, rfl, rfl, hvs⟩
      · rintro ⟨vs, us, rfl, rfl, hvs⟩
        exact ⟨vs, us, _, rfl, hvs, rfl, rfl⟩
  refine (exact_word.bind (fun name s ts => ∃ vs us,
    s = .leaf (.property ⟨labels.map (·.value), name, vs⟩) ∧ ts = us ++ [.semicolon] ∧
      ValueForm.Assigned vs us) hassigned fun _ _ => trivial).congr fun s ts => ?_
  constructor
  · rintro ⟨name, _, _, rfl, rfl, vs, us, rfl, rfl, hvs⟩
    exact ⟨name, vs, us, rfl, rfl, hvs⟩
  · rintro ⟨name, vs, us, rfl, rfl, hvs⟩
    exact ⟨name, _, _, rfl, rfl, vs, us, rfl, rfl, hvs⟩

theorem exact_deleteTarget :
    Exact deleteTarget DeleteTarget.form Anything fun d ts => ∃ t, ts = [t] ∧ d.Written t := by
  refine exact_one (fun l d => ?_) .deleteTarget
  constructor
  · rintro ⟨target, htarget, rfl⟩
    split at htarget
    · rename_i name hname
      cases htarget
      unfold Lexeme.word? at hname
      split at hname
      · rename_i text htext
        cases hname
        rw [htext]
        exact .name text
      · cases hname
    · obtain ⟨ref, href, rfl⟩ := Option.map_eq_some_iff.mp htarget
      exact .reference ((shows_reference l _).mp ⟨ref, href, rfl⟩)
  · intro h
    generalize ht : l.token = t at h
    cases h with
    | name text =>
        exact ⟨.name ⟨UnitName.read text, l.span⟩, by simp only [Lexeme.word?, ht], rfl⟩
    | reference href =>
        obtain ⟨ref, hl, hform⟩ := (shows_reference l _).mpr (ht ▸ href)
        refine ⟨.reference ref, ?_, congrArg DeleteForm.reference hform⟩
        cases href <;> simp only [Lexeme.word?, ht, hl, Option.map_some]

theorem exact_deleteNode (keyword : Span) :
    Exact (deleteNode keyword) Statement.form Anything fun s ts =>
      ∃ d t, s = .leaf (.deleteNode d) ∧ ts = [t, .semicolon] ∧ d.Written t := by
  have hend : ∀ target : DeleteTarget, Exact (semicolon >>= fun stop => pure
      (Statement.deleteNode ⟨default, keyword, target, keyword.union stop⟩)) Statement.form Anything
      fun s ts => s = .leaf (.deleteNode target.form) ∧ ts = [.semicolon] := by
    intro target
    refine exact_ended ?_
    exact fun _ => rfl
  refine (exact_deleteTarget.bind (fun d s ts => s = .leaf (.deleteNode d) ∧ ts = [.semicolon])
    hend fun _ _ => trivial).congr fun s ts => ?_
  constructor
  · rintro ⟨d, _, _, rfl, ⟨t, rfl, ht⟩, rfl, rfl⟩
    exact ⟨d, t, rfl, rfl, ht⟩
  · rintro ⟨d, t, rfl, rfl, ht⟩
    exact ⟨d, [t], _, rfl, ⟨t, rfl, ht⟩, rfl, rfl⟩

theorem exact_deleteProperty (keyword : Span) :
    Exact (deleteProperty keyword) Statement.form Anything fun s ts =>
      ∃ name, s = .leaf (.deleteProperty name) ∧ ts = [.word name, .semicolon] := by
  have hend : ∀ name : Spanned String, Exact (semicolon >>= fun stop => pure
      (Statement.deleteProperty ⟨default, keyword, name, keyword.union stop⟩)) Statement.form
      Anything fun s ts => s = .leaf (.deleteProperty name.value) ∧ ts = [.semicolon] := by
    intro name
    refine exact_ended ?_
    exact fun _ => rfl
  refine (exact_word.bind (fun name s ts => s = .leaf (.deleteProperty name) ∧ ts = [.semicolon])
    hend fun _ _ => trivial).congr fun s ts => ?_
  constructor
  · rintro ⟨name, _, _, rfl, rfl, rfl, rfl⟩
    exact ⟨name, rfl, rfl⟩
  · rintro ⟨name, rfl, rfl⟩
    exact ⟨name, _, _, rfl, rfl, rfl, rfl⟩

/-! ### Openings -/

/-- A statement without a body, or a block up to its body. -/
inductive OpeningForm
  | statement (s : StatementForm)
  | block (labels : List String) (target : TargetForm)

def Opening.form : Opening → OpeningForm
  | complete s => .statement s.form
  | block labels target => .block (labels.map (·.value)) target.form

/-- What may stand after labels. -/
inductive LabelledWritten (labels : List String) : OpeningForm → List Token → Prop
  | property {name : String} {vs : List ValueForm} {ts : List Token}
      (h : ValueForm.Assigned vs ts) :
      LabelledWritten labels (.statement (.leaf (.property ⟨labels, name, vs⟩)))
        (.word name :: (ts ++ [.semicolon]))
  | block {target : TargetForm} {t : Token} (h : target.Written t) :
      LabelledWritten labels (.block labels target) [t, .leftBrace]

inductive OpeningForm.Written : OpeningForm → List Token → Prop
  | statement {leaf : LeafForm} {ts : List Token} (h : leaf.Written ts) :
      Written (.statement (.leaf leaf)) ts
  | block (labels : List String) {target : TargetForm} {t : Token} (h : target.Written t) :
      Written (.block labels target) (labels.map .label ++ [t, .leftBrace])

theorem exact_complete {p : Phrase Statement} {W : StatementForm → List Token → Prop}
    (hp : Exact p Statement.form Anything W) :
    Exact (complete p) Opening.form Anything fun o ts => ∃ s, o = .statement s ∧ W s ts := by
  refine (hp.bind (fun s o ts => o = .statement s ∧ ts = [])
    (fun s => exact_pure (Opening.complete s) _) fun _ _ => trivial).congr fun o ts => ?_
  constructor
  · rintro ⟨s, us, _, rfl, hs, rfl, rfl⟩
    exact ⟨s, rfl, (List.append_nil us).symm ▸ hs⟩
  · rintro ⟨s, rfl, hs⟩
    exact ⟨s, ts, [], (List.append_nil ts).symm, hs, rfl, rfl⟩

theorem exact_braced (labels : List Label) (target : BlockTarget) :
    Exact (braced labels target) Opening.form Anything fun o ts =>
      o = .block (labels.map (·.value)) target.form ∧ ts = [.leftBrace] := by
  refine ((exact_mark .leftBrace .leftBrace).bind
    (fun _ o ts => o = .block (labels.map (·.value)) target.form ∧ ts = [])
    (fun _ => exact_pure (Opening.block labels target) _) fun _ _ => trivial).congr fun o ts => ?_
  simp [and_comm]

theorem nextIs_iff {token : Token} {ls : List Lexeme} :
    nextIs token ls = true ↔ Before token (ls.map Lexeme.token) := by
  cases ls <;> simp [nextIs, Before]

theorem exact_labelled (labels : List Label) :
    Exact (labelled labels) Opening.form Anything
      (LabelledWritten (labels.map (·.value))) where
  sound {ls rest o} h := by
    rw [labelled.eq_def] at h
    split at h
    · cases h
    · rename_i l ls
      -- The brace after a token that names a target.
      have hblock : ∀ {target : BlockTarget}, target.form.Written l.token →
          braced labels target ls = .ok (o, rest) →
          ∃ front, l :: ls = front ++ rest ∧
            LabelledWritten (labels.map (·.value)) o.form (front.map Lexeme.token) := by
        intro target htarget hbraced
        refine (exact_braced _ _).sound_cons ?_ hbraced
        rintro _ _ ⟨rfl, rfl⟩
        exact .block htarget
      split at h
      · rename_i htoken
        exact hblock (by exact htoken ▸ .root) h
      · rename_i text htoken
        split at h
        · exact hblock (by exact htoken ▸ .child text) h
        · obtain ⟨front, hls, s, ho, name, vs, us, hs, hfront, hvs⟩ :=
            (exact_complete (exact_property labels)).sound h
          refine ⟨front, hls, ?_⟩
          rw [ho, hs, hfront]
          exact .property hvs
      · split at h
        · rename_i ref href
          exact hblock (by exact .reference ((shows_reference l _).mp ⟨ref, href, rfl⟩)) h
        · cases h
  complete {o front rest} h _ := by
    generalize hts : front.map Lexeme.token = ts at h
    cases h with
    | @property name vs us hvs =>
        obtain ⟨o, ho, hform⟩ := (exact_complete (exact_property labels)).takes
          ⟨_, rfl, name, vs, us, rfl, hts, hvs⟩ rest
        refine ⟨o, ?_, hform⟩
        obtain ⟨l, front, rfl, hl, hfront⟩ := List.map_eq_cons_iff.mp hts
        have hnext : nextIs .leftBrace (front ++ rest) ≠ true := by
          rw [ne_eq, nextIs_iff, List.map_append, hfront]
          cases hvs <;> simp [Before]
        simp only [List.cons_append, labelled, hl, if_neg hnext]
        exact ho
    | @block target t ht =>
        obtain ⟨l, front, rfl, rfl, hfront⟩ := List.map_eq_cons_iff.mp hts
        have hnext : nextIs .leftBrace (front ++ rest) = true := by
          rw [nextIs_iff, List.map_append, hfront]
          rfl
        have hbraced : ∃ shown : BlockTarget, shown.form = target ∧
            labelled labels (l :: (front ++ rest)) = braced labels shown (front ++ rest) := by
          generalize htoken : l.token = token at ht
          cases ht with
          | root => exact ⟨.root l.span, rfl, by simp only [labelled, htoken]⟩
          | child text =>
              refine ⟨.child ⟨UnitName.read text, l.span⟩, rfl, ?_⟩
              simp only [labelled, htoken, if_pos hnext]
          | reference href =>
              obtain ⟨ref, hl, hform⟩ := (shows_reference l _).mpr (htoken ▸ href)
              refine ⟨.reference ref, congrArg TargetForm.reference hform, ?_⟩
              cases href <;> simp only [labelled, htoken, hl]
        obtain ⟨shown, rfl, hlabelled⟩ := hbraced
        obtain ⟨o, ho, hform⟩ :=
          (exact_braced labels shown).takes ⟨rfl, hfront⟩ rest
        exact ⟨o, hlabelled.trans ho, hform⟩

theorem shows_label : Lexeme.Shows Lexeme.label? (·.value) fun name t => .label name = t := by
  intro l name
  cases h : l.token <;> simp [Lexeme.label?, h, eq_comm]

theorem exact_past_labels :
    Exact (many Lexeme.label? >>= labelled) Opening.form Anything fun o ts =>
      ∃ labels us, ts = labels.map .label ++ us ∧ LabelledWritten labels o us := by
  refine ((exact_many shows_label).bind LabelledWritten exact_labelled ?_).congr fun o ts => ?_
  · intro labels o ts us h _ t ht name hname
    subst hname
    cases h with
    | property h => simp at ht
    | block h =>
        cases ht
        cases h with
        | reference h => cases h
  · have hlabels : ∀ (labels : List String) (us : List Token),
        List.Forall₂ (fun name t => Token.label name = t) labels us ↔
          labels.map Token.label = us := by
      intro labels us
      rw [← List.forall₂_eq_eq_eq, List.forall₂_map_left_iff]
    simp only [hlabels]
    constructor
    · rintro ⟨labels, _, us, rfl, rfl, h⟩
      exact ⟨labels, us, rfl, h⟩
    · rintro ⟨labels, us, rfl, h⟩
      exact ⟨labels, _, us, rfl, rfl, h⟩

/-- A statement that begins with no keyword begins with its labels. -/
theorem opening_of_labelled {labels : List String} {o : OpeningForm} {us : List Token}
    {front : List Lexeme} (h : LabelledWritten labels o us)
    (hfront : front.map Lexeme.token = labels.map .label ++ us) (rest : List Lexeme) :
    opening (front ++ rest) = (many Lexeme.label? >>= labelled) (front ++ rest) := by
  have hhead : ∃ l ls, front = l :: ls ∧ l.token ≠ .deleteNode ∧ l.token ≠ .deleteProperty := by
    cases labels with
    | cons name labels =>
        obtain ⟨l, ls, rfl, hl, -⟩ := List.map_eq_cons_iff.mp hfront
        exact ⟨l, ls, rfl, by simp [hl]⟩
    | nil =>
        cases h with
        | property h =>
            obtain ⟨l, ls, rfl, hl, -⟩ := List.map_eq_cons_iff.mp hfront
            exact ⟨l, ls, rfl, by simp [hl]⟩
        | block h =>
            obtain ⟨l, ls, rfl, rfl, -⟩ := List.map_eq_cons_iff.mp hfront
            refine ⟨l, ls, rfl, ?_⟩
            generalize l.token = token at h
            cases h with
            | root => simp
            | child text => simp
            | reference h => cases h <;> simp
  obtain ⟨l, ls, rfl, hnode, hproperty⟩ := hhead
  rw [List.cons_append, opening]
  split
  · exact absurd ‹_› hnode
  · exact absurd ‹_› hproperty
  · rfl

theorem exact_opening : Exact opening Opening.form Anything OpeningForm.Written where
  sound {ls rest o} h := by
    rw [opening.eq_def] at h
    split at h
    · cases h
    · rename_i l ls
      split at h
      · rename_i htoken
        refine (exact_complete (exact_deleteNode _)).sound_cons ?_ h
        rintro _ _ ⟨_, rfl, d, t, rfl, rfl, ht⟩
        exact htoken ▸ .statement (.deleteNode ht)
      · rename_i htoken
        refine (exact_complete (exact_deleteProperty _)).sound_cons ?_ h
        rintro _ _ ⟨_, rfl, name, rfl, rfl⟩
        exact htoken ▸ .statement (.deleteProperty name)
      · obtain ⟨front, hls, labels, us, hfront, hus⟩ := exact_past_labels.sound h
        refine ⟨front, hls, ?_⟩
        rw [hfront]
        generalize o.form = form at hus
        cases hus with
        | property hvs => exact .statement (.property labels _ hvs)
        | block ht => exact .block labels ht
  complete {o front rest} h _ := by
    have hpast : ∀ {labels us}, front.map Lexeme.token = labels.map .label ++ us →
        LabelledWritten labels o us →
        ∃ a, opening (front ++ rest) = .ok (a, rest) ∧ a.form = o := by
      intro labels us hfront hus
      rw [opening_of_labelled hus hfront]
      exact exact_past_labels.complete ⟨labels, us, hfront, hus⟩ trivial
    generalize hts : front.map Lexeme.token = ts at h
    cases h with
    | block labels ht => exact hpast hts (.block ht)
    | statement h =>
        cases h with
        | property labels name hvs => exact hpast hts (.property hvs)
        | @deleteNode d t ht =>
            obtain ⟨l, front, rfl, hl, hfront⟩ := List.map_eq_cons_iff.mp hts
            obtain ⟨a, ha, hform⟩ := (exact_complete (exact_deleteNode l.span)).takes
              ⟨_, rfl, d, t, rfl, hfront, ht⟩ rest
            exact ⟨a, by simp only [List.cons_append, opening, hl, ha], hform⟩
        | deleteProperty name =>
            obtain ⟨l, front, rfl, hl, hfront⟩ := List.map_eq_cons_iff.mp hts
            obtain ⟨a, ha, hform⟩ := (exact_complete (exact_deleteProperty l.span)).takes
              ⟨_, rfl, name, rfl, hfront⟩ rest
            exact ⟨a, by simp only [List.cons_append, opening, hl, ha], hform⟩

end Phrase

end Devicetree
