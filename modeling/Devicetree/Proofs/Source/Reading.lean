import Devicetree.Source.Parser

/-!
# How a file is read

Whatever is read, the lexemes left over are the end of those there were. A property of statements
as they are read can be shown by following the reader: from the opening of a statement over its
body to its end, and from statement to statement, past those that cannot be read.
-/

namespace Devicetree

namespace Phrase

variable {α β : Type}

/-- A phrase that leaves the end of what there was. -/
def Trims (p : Phrase α) : Prop :=
  ∀ ⦃ls rest a⦄, p ls = .ok (a, rest) → rest <:+ ls

theorem trims_pure (a : α) : Trims (pure a : Phrase α) := by
  intro ls rest b h
  obtain ⟨-, rfl⟩ := pure_ok.mp h
  exact List.suffix_rfl

theorem Trims.bind {p : Phrase α} {f : α → Phrase β} (hp : Trims p) (hf : ∀ a, Trims (f a)) :
    Trims (p >>= f) := by
  intro ls rest b h
  obtain ⟨a, mid, ha, hb⟩ := bind_ok.mp h
  exact (hf a hb).trans (hp ha)

theorem one_ok {expected : Expected} {f : Lexeme → Option α} {ls rest : List Lexeme} {a : α}
    (h : one expected f ls = .ok (a, rest)) : ∃ l, ls = l :: rest ∧ f l = some a := by
  unfold one at h
  split at h
  · cases h
  · rename_i l ls
    split at h
    · rename_i hl
      cases h
      exact ⟨l, rfl, hl⟩
    · cases h

theorem trims_one (expected : Expected) (f : Lexeme → Option α) : Trims (one expected f) := by
  intro ls rest a h
  obtain ⟨l, rfl, -⟩ := one_ok h
  exact List.suffix_cons _ _

theorem trims_many (f : Lexeme → Option α) : Trims (many f) := by
  intro ls rest as h
  simp only [many, Except.ok.injEq] at h
  induction ls generalizing as rest with
  | nil =>
      cases h
      exact List.suffix_rfl
  | cons l ls ih =>
      unfold splitMany at h
      split at h
      · cases h
        exact (ih rfl).trans (List.suffix_cons _ _)
      · cases h
        exact List.suffix_rfl

/-- What one lexeme decides, and then leaves the end of the others. -/
theorem Trims.cons {p : Phrase α} (hp : Trims p) {l : Lexeme} {ls rest : List Lexeme} {a : α}
    (h : p ls = .ok (a, rest)) : rest <:+ l :: ls :=
  (hp h).trans (List.suffix_cons _ _)

theorem trims_cells (start : Span) : Trims (cells start) :=
  (trims_many _).bind fun _ => (trims_one _ _).bind fun _ => trims_pure _

theorem trims_bytes (start : Span) : Trims (bytes start) :=
  (trims_many _).bind fun _ => (trims_one _ _).bind fun _ => trims_pure _

theorem trims_value : Trims value := by
  intro ls rest v h
  unfold value at h
  split at h
  · cases h
  · split at h
    · cases h
      exact List.suffix_cons _ _
    · exact (trims_cells _).cons h
    · exact (trims_bytes _).cons h
    · split at h <;> cases h
      exact List.suffix_cons _ _

theorem trims_moreValues : Trims moreValues := by
  intro ls rest vs h
  induction hn : ls.length using Nat.strongRecOn generalizing ls rest vs with
  | ind n ih =>
      unfold moreValues at h
      split at h
      · cases h
        exact List.suffix_rfl
      · split at h
        · split at h
          · cases h
          · rename_i v after hv
            split at h
            · cases h
            · rename_i ws last hm
              cases h
              have shorter : after.length < n := by
                have := advances_value hv
                rw [← hn, List.length_cons]
                omega
              exact ((ih _ shorter hm rfl).trans (trims_value hv)).trans (List.suffix_cons _ _)
        · cases h
          exact List.suffix_rfl

theorem trims_assigned : Trims assigned := by
  have hvalues : Trims values :=
    trims_value.bind fun _ => trims_moreValues.bind fun _ => trims_pure _
  intro ls rest vs h
  unfold assigned at h
  split at h
  · cases h
    exact List.suffix_rfl
  · split at h
    · exact hvalues.cons h
    · cases h
      exact List.suffix_rfl

theorem trims_property (labels : List Label) : Trims (property labels) :=
  (trims_one _ _).bind fun _ => trims_assigned.bind fun _ =>
    (trims_one _ _).bind fun _ => trims_pure _

theorem trims_deleteNode (keyword : Span) : Trims (deleteNode keyword) :=
  (trims_one _ _).bind fun _ => (trims_one _ _).bind fun _ => trims_pure _

theorem trims_deleteProperty (keyword : Span) : Trims (deleteProperty keyword) :=
  (trims_one _ _).bind fun _ => (trims_one _ _).bind fun _ => trims_pure _

theorem trims_braced (labels : List Label) (target : BlockTarget) : Trims (braced labels target) :=
  (trims_one _ _).bind fun _ => trims_pure _

theorem trims_complete {p : Phrase Statement} (hp : Trims p) : Trims (complete p) :=
  hp.bind fun _ => trims_pure _

theorem trims_labelled (labels : List Label) : Trims (labelled labels) := by
  intro ls rest o h
  unfold labelled at h
  split at h
  · cases h
  · split at h
    · exact (trims_braced _ _).cons h
    · split at h
      · exact (trims_braced _ _).cons h
      · exact trims_complete (trims_property labels) h
    · split at h
      · exact (trims_braced _ _).cons h
      · cases h

theorem trims_opening : Trims opening := by
  intro ls rest o h
  unfold opening at h
  split at h
  · cases h
  · split at h
    · exact (trims_complete (trims_deleteNode _)).cons h
    · exact (trims_complete (trims_deleteProperty _)).cons h
    · exact (trims_many _).bind trims_labelled h

end Phrase

theorem skipStatement_suffix (level : Level) (depth : Nat) (ls : List Lexeme) :
    skipStatement level depth ls <:+ ls := by
  induction ls generalizing depth with
  | nil => exact List.suffix_rfl
  | cons l ls ih =>
      have past : ∀ depth, skipStatement level depth ls <:+ l :: ls :=
        fun depth => (ih depth).trans (List.suffix_cons _ _)
      unfold skipStatement
      split
      · exact past _
      · exact past _
      · split
        · exact past _
        · exact List.suffix_rfl
      · exact List.suffix_cons _ _
      · exact past _

/-- A block as it is closed: with its labels, its target and its body, and some lexemes after
it. -/
theorem closeBlock_cases {labels : List Label} {target : BlockTarget} {body : List Statement}
    {ls rest : List Lexeme} {s : Statement} {reports : List Diagnostic}
    (h : closeBlock labels target body ls = (.ok (s, rest), reports)) :
    (∃ span, s = .block ⟨default, labels, target, span⟩ body) ∧ rest <:+ ls := by
  unfold closeBlock at h
  split at h
  · cases h
  · rename_i close after hclose
    have hafter := Phrase.trims_one _ _ hclose
    split at h
    · rename_i stop left hstop
      cases h
      exact ⟨⟨_, rfl⟩, (Phrase.trims_one _ _ hstop).trans hafter⟩
    · cases h
      exact ⟨⟨_, rfl⟩, hafter⟩

section Induction

variable {P : List Lexeme → Statement → List Lexeme → Prop}
  {Q : List Lexeme → List Statement → List Lexeme → Prop}

/-- The steps by which statements and bodies are read: what holds of a statement and the lexemes
around it, and what holds of a body. -/
structure ReadingSteps (P : List Lexeme → Statement → List Lexeme → Prop)
    (Q : List Lexeme → List Statement → List Lexeme → Prop) : Prop where
  complete : ∀ {ls s rest}, Phrase.opening ls = .ok (.complete s, rest) → P ls s rest
  block : ∀ {ls labels target inner body outer s rest reports},
    Phrase.opening ls = .ok (.block labels target, inner) → Q inner body outer →
    closeBlock labels target body outer = (.ok (s, rest), reports) → P ls s rest
  stop : ∀ ls, Q ls [] ls
  next : ∀ {ls s mid body rest}, P ls s mid → Q mid body rest → Q ls (s :: body) rest
  pass : ∀ {ls mid body rest}, mid <:+ ls → Q mid body rest → Q ls body rest

namespace ReadingSteps

variable (h : ReadingSteps P Q) (last : Span)
include h

theorem statement_of_bodies {ls : List Lexeme}
    (ih : ∀ rest, rest.length < ls.length →
      Q rest (readBody last rest).statements (readBody last rest).rest)
    {read : { read : Statement × List Lexeme // read.2.length < ls.length }}
    (hread : (readStatement last ls).result = .ok read) : P ls read.1.1 read.1.2 := by
  unfold readStatement at hread
  split at hread
  · cases hread
  · rename_i s rest ho
    cases hread
    exact h.complete ho
  · rename_i labels target rest ho
    have hbody := ih rest (Phrase.advances_opening ho)
    dsimp only at hread
    split at hread
    · cases hread
    · rename_i s after reports hclose
      cases hread
      exact h.block ho hbody hclose

/-- What the steps say holds of a body as read. -/
theorem body (ls : List Lexeme) : Q ls (readBody last ls).statements (readBody last ls).rest := by
  induction hn : ls.length using Nat.strongRecOn generalizing ls with
  | ind n ih =>
      have shorter : ∀ rest, rest.length < ls.length →
          Q rest (readBody last rest).statements (readBody last rest).rest :=
        fun rest hlt => ih _ (hn ▸ hlt) rest rfl
      cases ls with
      | nil =>
          rw [readBody]
          exact h.stop []
      | cons l rest =>
          rw [readBody]
          split
          · exact h.stop _
          · rename_i hl
            dsimp only
            split
            · rename_i s after hlt hread
              exact h.next (h.statement_of_bodies last shorter hread) (shorter after hlt)
            · have hlt := skipStatement_length_lt .nested l rest (.inr hl)
              exact h.pass (skipStatement_suffix .nested 0 _) (shorter _ hlt)

/-- What the steps say holds of a statement as read. -/
theorem statement {ls : List Lexeme}
    {read : { read : Statement × List Lexeme // read.2.length < ls.length }}
    (hread : (readStatement last ls).result = .ok read) : P ls read.1.1 read.1.2 :=
  h.statement_of_bodies last (fun rest _ => h.body last rest) hread

end ReadingSteps

/-- Whatever is read, the lexemes left over are the end of those there were. -/
theorem trims_reading :
    ReadingSteps (fun ls _ rest => rest <:+ ls) (fun ls _ rest => rest <:+ ls) where
  complete hopening := Phrase.trims_opening hopening
  block hopening hbody hclose :=
    ((closeBlock_cases hclose).2.trans hbody).trans (Phrase.trims_opening hopening)
  stop _ := List.suffix_rfl
  next hstatement hbody := hbody.trans hstatement
  pass hmid hbody := hbody.trans hmid

end Induction

namespace Item

/-- A phrase that leaves the end of what there was, and no statement. -/
def IsDirective (p : Phrase Item) : Prop :=
  Phrase.Trims p ∧ ∀ ⦃ls rest s⦄, p ls ≠ .ok (.statement s, rest)

theorem IsDirective.bind {α : Type} {p : Phrase α} {f : α → Phrase Item} (hp : Phrase.Trims p)
    (hf : ∀ a, IsDirective (f a)) : IsDirective (p >>= f) := by
  refine ⟨hp.bind fun a => (hf a).1, fun ls rest s h => ?_⟩
  obtain ⟨a, mid, -, h⟩ := Phrase.bind_ok.mp h
  exact (hf a).2 h

theorem isDirective_pure {item : Item} (h : ∀ s, item ≠ .statement s) : IsDirective (pure item) :=
  ⟨Phrase.trims_pure item, fun _ _ s hs => h s (Phrase.pure_ok.mp hs).1⟩

theorem isDirective_bareDirective : IsDirective bareDirective :=
  .bind (Phrase.trims_one _ _) fun _ => isDirective_pure fun _ h => by cases h

theorem isDirective_memoryReserve : IsDirective memoryReserve :=
  .bind (Phrase.trims_one _ _) fun _ => .bind (Phrase.trims_one _ _) fun _ =>
    isDirective_bareDirective

theorem isDirective_includePath (keyword : Span) : IsDirective (includePath keyword) :=
  .bind (Phrase.trims_one _ _) fun _ => isDirective_pure fun _ h => by cases h

/-- What is read is a directive, which leaves no statement, or a statement read as such. -/
theorem read_cases {last : Span} {ls rest : List Lexeme} {item : Item} {reports : List Diagnostic}
    (h : Item.read last ls = (.ok (item, rest), reports)) :
    (rest <:+ ls ∧ ∀ s, item ≠ .statement s) ∨
      ∃ read, (readStatement last ls).result = .ok read ∧ item = .statement read.1.1 ∧
        rest = read.1.2 := by
  cases ls with
  | nil => cases h
  | cons l ls =>
      have past : ∀ {p : Phrase Item}, IsDirective p → p ls = .ok (item, rest) →
          rest <:+ l :: ls ∧ ∀ s, item ≠ .statement s :=
        fun hp h => ⟨hp.1.cons h, fun s hs => hp.2 (hs ▸ h)⟩
      simp only [Item.read] at h
      split at h
      · exact .inl (past isDirective_bareDirective (Prod.mk.inj h).1)
      · exact .inl (past isDirective_bareDirective (Prod.mk.inj h).1)
      · exact .inl (past isDirective_memoryReserve (Prod.mk.inj h).1)
      · exact .inl (past (isDirective_includePath _) (Prod.mk.inj h).1)
      · cases h
        exact .inl ⟨List.suffix_cons _ _, fun s hs => by cases hs⟩
      · obtain ⟨hresult, -⟩ := Prod.mk.inj h
        cases hr : (readStatement last (l :: ls)).result with
        | error failure =>
            rw [hr] at hresult
            cases hresult
        | ok read =>
            rw [hr] at hresult
            cases hresult
            exact .inr ⟨read, rfl, rfl, rfl⟩

theorem read_suffix {last : Span} {ls rest : List Lexeme} {item : Item} {reports : List Diagnostic}
    (h : Item.read last ls = (.ok (item, rest), reports)) : rest <:+ ls := by
  rcases read_cases h with ⟨hsuffix, -⟩ | ⟨read, hread, -, rfl⟩
  · exact hsuffix
  · exact trims_reading.statement last hread

end Item

/-- What holds at the end of a file, and goes back over each item read and each statement skipped,
holds of all that is read of a file. -/
theorem Items.read_induction {R : List Lexeme → Items → Prop} (last : Span) (stop : R [] ⟨[], []⟩)
    (next : ∀ {ls item rest reports items}, Item.read last ls = (.ok (item, rest), reports) →
      R rest items → R ls ⟨item :: items.items, reports ++ items.reports⟩)
    (skip : ∀ {ls failure reports items}, Item.read last ls = (.error failure, reports) →
      R (skipStatement .top 0 ls) items →
      R ls ⟨items.items, reports ++ failure.diagnostic last :: items.reports⟩)
    (ls : List Lexeme) : R ls (Items.read last ls) := by
  induction hn : ls.length using Nat.strongRecOn generalizing ls with
  | ind n ih =>
      cases ls with
      | nil =>
          rw [Items.read]
          exact stop
      | cons l rest =>
          rw [Items.read]
          split
          · rename_i item after reports h
            exact next h (ih _ (hn ▸ Item.read_length_lt h) after rfl)
          · rename_i failure reports h
            have hlt := skipStatement_length_lt .top l rest (.inl rfl)
            exact skip h (ih _ (hn ▸ hlt) _ rfl)

/-- What holds at the end of a file, goes back over lexemes passed by, and goes back over each
statement read, holds of all the statements of a file. -/
theorem items_induction {R : List Lexeme → List Statement → Prop} (last : Span) (stop : R [] [])
    (pass : ∀ {ls mid ss}, mid <:+ ls → R mid ss → R ls ss)
    (next : ∀ {ls read ss}, (readStatement last ls).result = .ok read → R read.1.2 ss →
      R ls (read.1.1 :: ss))
    (ls : List Lexeme) : R ls (Items.read last ls).statements := by
  refine Items.read_induction (R := fun ls items => R ls items.statements) last stop ?_ ?_ ls
  · intro ls item rest reports items h hrest
    rcases Item.read_cases h with ⟨hsuffix, hno⟩ | ⟨read, hr, rfl, rfl⟩
    · cases item with
      | directive => exact pass hsuffix hrest
      | inclusion found => exact pass hsuffix hrest
      | statement s => exact absurd rfl (hno s)
    · exact next hr hrest
  · intro ls failure reports items _ hskipped
    exact pass (skipStatement_suffix .top 0 _) hskipped

/-! ### One step at a time -/

/-- What an attempt came to, without the bound on what it left. -/
def Attempt.outcome {ls : List Lexeme} (a : Attempt ls) :
    Except Failure (Statement × List Lexeme) :=
  a.result.map (·.1)

theorem Attempt.outcome_length_lt {ls rest : List Lexeme} {a : Attempt ls} {s : Statement}
    (h : a.outcome = .ok (s, rest)) : rest.length < ls.length := by
  rw [outcome] at h
  cases hresult : a.result with
  | error failure =>
      rw [hresult] at h
      cases h
  | ok read =>
      obtain ⟨⟨s', rest'⟩, shorter⟩ := read
      rw [hresult] at h
      cases h
      exact shorter

section Steps

variable (last : Span) {ls rest : List Lexeme} {l : Lexeme}

theorem readStatement_of_error {failure : Failure} (h : Phrase.opening ls = .error failure) :
    (readStatement last ls).outcome = .error failure ∧ (readStatement last ls).reports = [] := by
  rw [readStatement]
  split <;> rename_i ho
  · rw [h] at ho
    cases ho
    exact ⟨rfl, rfl⟩
  · rw [h] at ho
    cases ho
  · rw [h] at ho
    cases ho

theorem readStatement_of_complete {s : Statement}
    (h : Phrase.opening ls = .ok (.complete s, rest)) :
    (readStatement last ls).outcome = .ok (s, rest) ∧ (readStatement last ls).reports = [] := by
  rw [readStatement]
  split <;> rename_i ho
  · rw [h] at ho
    cases ho
  · rw [h] at ho
    cases ho
    exact ⟨rfl, rfl⟩
  · rw [h] at ho
    cases ho

theorem readStatement_of_block {labels : List Label} {target : BlockTarget}
    (h : Phrase.opening ls = .ok (.block labels target, rest)) :
    let body := readBody last rest
    let closing := closeBlock labels target body.statements body.rest
    (readStatement last ls).outcome = closing.1 ∧
      (readStatement last ls).reports = body.reports ++ closing.2 := by
  intro body closing
  rw [readStatement]
  split <;> rename_i ho
  · rw [h] at ho
    cases ho
  · rw [h] at ho
    cases ho
  · rw [h] at ho
    cases ho
    dsimp only
    split <;> rename_i hclose
    · rw [show closing = _ from hclose]
      exact ⟨rfl, rfl⟩
    · rw [show closing = _ from hclose]
      exact ⟨rfl, rfl⟩

theorem readBody_nil :
    (readBody last []).statements = [] ∧ (readBody last []).rest = [] ∧
      (readBody last []).reports = [] := by
  rw [readBody]
  exact ⟨rfl, rfl, rfl⟩

theorem readBody_of_brace (h : l.token = .rightBrace) (ls : List Lexeme) :
    (readBody last (l :: ls)).statements = [] ∧ (readBody last (l :: ls)).rest = l :: ls ∧
      (readBody last (l :: ls)).reports = [] := by
  rw [readBody, dif_pos h]
  exact ⟨rfl, rfl, rfl⟩

theorem readBody_of_ok (hl : l.token ≠ .rightBrace) {s : Statement}
    (h : (readStatement last (l :: ls)).outcome = .ok (s, rest)) :
    (readBody last (l :: ls)).statements = s :: (readBody last rest).statements ∧
      (readBody last (l :: ls)).rest = (readBody last rest).rest ∧
      (readBody last (l :: ls)).reports =
        (readStatement last (l :: ls)).reports ++ (readBody last rest).reports := by
  rw [readBody, dif_neg hl]
  dsimp only
  rw [Attempt.outcome] at h
  split <;> rename_i hread
  · rw [hread] at h
    cases h
    exact ⟨rfl, rfl, rfl⟩
  · rw [hread] at h
    cases h

theorem readBody_of_error (hl : l.token ≠ .rightBrace) {failure : Failure}
    (h : (readStatement last (l :: ls)).outcome = .error failure) :
    let body := readBody last (skipStatement .nested 0 (l :: ls))
    (readBody last (l :: ls)).statements = body.statements ∧
      (readBody last (l :: ls)).rest = body.rest ∧
      (readBody last (l :: ls)).reports =
        (readStatement last (l :: ls)).reports ++ failure.diagnostic last :: body.reports := by
  intro body
  rw [readBody, dif_neg hl]
  dsimp only
  rw [Attempt.outcome] at h
  split <;> rename_i hread
  · rw [hread] at h
    cases h
  · rw [hread] at h
    cases h
    exact ⟨rfl, rfl, rfl⟩

theorem items_of_ok {item : Item} {reports : List Diagnostic}
    (h : Item.read last (l :: ls) = (.ok (item, rest), reports)) :
    (Items.read last (l :: ls)).items = item :: (Items.read last rest).items ∧
      (Items.read last (l :: ls)).reports = reports ++ (Items.read last rest).reports := by
  rw [Items.read]
  split <;> rename_i hread
  · rw [h] at hread
    cases hread
    exact ⟨rfl, rfl⟩
  · rw [h] at hread
    cases hread

theorem items_of_error {failure : Failure} {reports : List Diagnostic}
    (h : Item.read last (l :: ls) = (.error failure, reports)) :
    let items := Items.read last (skipStatement .top 0 (l :: ls))
    (Items.read last (l :: ls)).items = items.items ∧
      (Items.read last (l :: ls)).reports =
        reports ++ failure.diagnostic last :: items.reports := by
  intro items
  rw [Items.read]
  split <;> rename_i hread
  · rw [h] at hread
    cases hread
  · rw [h] at hread
    cases hread
    exact ⟨rfl, rfl⟩

end Steps

/-- A file as it is read from some text. -/
def SourceFile.Parsed (f : SourceFile) : Prop :=
  ∃ text, f = .read f.file text

end Devicetree
