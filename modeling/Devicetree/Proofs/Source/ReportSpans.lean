import Devicetree.Proofs.Source.Reading
import Devicetree.Proofs.Token.Tiling

/-!
# Where reports point

The report of a fault of the grammar points at a token, and that of a lexical fault at the text
from the beginning of a token to where the fault was noticed. Such spans can be cut out of the text
and end on a line of it. A character that begins no token is the exception: its report points at
one byte, and a longer character is cut in two. The main result says that there are no other
exceptions.
-/

namespace Devicetree

namespace Text

/-! ### Offsets that cut no character -/

theorem isBoundary_iff {text : Text} {offset : Nat} :
    text.IsBoundary offset ↔ (text.dropBytes? offset).isSome = true := by
  constructor
  · rintro ⟨before, after, rfl, rfl⟩
    rw [dropBytes?_append]
    rfl
  · intro h
    fun_induction dropBytes? text offset with
    | case1 text => exact ⟨[], text, rfl, rfl⟩
    | case2 => cases h
    | case3 c rest n hle ih =>
        obtain ⟨before, after, rfl, hsize⟩ := ih h
        refine ⟨c :: before, after, rfl, ?_⟩
        rw [size_cons, hsize]
        omega
    | case4 => cases h

instance (text : Text) (offset : Nat) : Decidable (text.IsBoundary offset) :=
  decidable_of_iff _ isBoundary_iff.symm

/-- One byte on from a boundary is another one exactly if the next character is one byte long. -/
theorem isBoundary_succ_iff (before : Text) (c : Char) (rest : Text) :
    (before ++ c :: rest).IsBoundary (before.size + 1) ↔ c.utf8Size = 1 := by
  constructor
  · rintro ⟨longer, after, hsplit, hsize⟩
    rcases List.append_eq_append_iff.mp hsplit with ⟨cs, rfl, hcs⟩ | ⟨cs, rfl, -⟩
    · rw [size_append] at hsize
      cases cs with
      | nil => simp at hsize
      | cons d cs =>
          cases hcs
          have := c.utf8Size_pos
          rw [size_cons] at hsize
          omega
    · rw [size_append] at hsize
      omega
  · intro hc
    refine ⟨before ++ [c], rest, by simp, ?_⟩
    rw [size_append, size_cons, hc]
    rfl

/-! ### Positions on lines -/

/-- A position on a line of a text, at most at its end. -/
def HasPosition (text : Text) (p : Position) : Prop :=
  ∃ line ∈ (text.splitOn '\n')[p.line]?, p.column ≤ line.length

instance (text : Text) (p : Position) : Decidable (text.HasPosition p) :=
  decidable_of_iff (((text.splitOn '\n')[p.line]?.any fun line => p.column ≤ line.length) = true)
    (by simp [HasPosition, Option.any_eq_true])

end Text

/-- A walk ends on one of the lines that it has entered. On the first of them it has the columns
that it began with behind it. -/
theorem Place.walk_hasLine (p : Place) (cs rest : Text) :
    ∃ count line, (p.walk cs).position.line = p.position.line + count ∧
      ((cs ++ rest).splitOn '\n')[count]? = some line ∧
      (p.walk cs).position.column ≤ line.length + if count = 0 then p.position.column else 0 := by
  induction cs generalizing p with
  | nil =>
      obtain ⟨line, lines, hsplit⟩ := List.exists_cons_of_ne_nil (List.splitOn_ne_nil '\n' rest)
      refine ⟨0, line, rfl, by rw [List.nil_append, hsplit]; rfl, ?_⟩
      rw [if_pos rfl, walk_nil]
      exact Nat.le_add_left _ _
  | cons c cs ih =>
      obtain ⟨count, line, hline, hget, hcolumn⟩ := ih (p.step c)
      rw [List.cons_append, List.splitOn_cons_eq_if_modifyHead, walk_cons]
      by_cases hc : c = '\n'
      · -- The line that is left is empty, and the count goes on from the next one.
        have hstep : (p.step c).position = ⟨p.position.line + 1, 0⟩ := by
          rw [step, if_pos hc]
        rw [hstep] at hline hcolumn
        refine ⟨count + 1, line, ?_, ?_, ?_⟩
        · rw [hline, Nat.add_assoc, Nat.add_comm 1]
        · rw [if_pos (by simpa using hc)]
          exact hget
        · simpa using hcolumn
      · -- Only the first line gets longer.
        have hstep : (p.step c).position = ⟨p.position.line, p.position.column + 1⟩ := by
          rw [step, if_neg hc]
        rw [hstep] at hline hcolumn
        rw [if_neg (by simpa using hc)]
        cases count with
        | zero =>
            refine ⟨0, c :: line, hline, ?_, ?_⟩
            · rw [List.getElem?_modifyHead, hget]
              rfl
            · simp at hcolumn ⊢
              omega
        | succ count =>
            refine ⟨count + 1, line, hline, ?_, hcolumn⟩
            rw [List.getElem?_modifyHead, hget]
            rfl

namespace Text

theorem hasPosition_position {text : Text} {offset : Nat} (h : text.IsBoundary offset) :
    text.HasPosition (text.position offset) := by
  obtain ⟨before, after, rfl, rfl⟩ := h
  obtain ⟨count, line, hline, hget, hcolumn⟩ := Place.origin.walk_hasLine before after
  rw [position_append]
  have hfirst : Place.origin.position = ⟨0, 0⟩ := rfl
  rw [hfirst] at hline hcolumn
  refine ⟨line, ?_, by simpa using hcolumn⟩
  rw [hline, Nat.zero_add]
  exact hget

end Text

/-! ### Spans that can be sliced -/

/-- A span of a file that can be cut out of its text, and ends on a line of it. -/
structure Span.Sliceable (file : FileId) (text : Text) (s : Span) : Prop where
  file_eq : s.file = file
  start_le : s.start ≤ s.stop
  stop_le : s.stop ≤ text.size
  start_boundary : text.IsBoundary s.start
  stop_boundary : text.IsBoundary s.stop
  stopPos_on_line : text.HasPosition s.stopPos

theorem Span.Faithful.sliceable {file : FileId} {text : Text} {s : Span}
    (h : s.Faithful file text) : s.Sliceable file text where
  file_eq := h.file_eq
  start_le := Nat.le_of_lt h.start_lt
  stop_le := h.stop_le
  start_boundary := h.start_boundary
  stop_boundary := h.stop_boundary
  stopPos_on_line := by
    rw [h.stopPos_eq]
    exact Text.hasPosition_position h.stop_boundary

/-- The span of a byte range can be sliced if no character is cut at its ends. -/
theorem Text.sliceable_span {text : Text} (file : FileId) {start stop : Nat} (hle : start ≤ stop)
    (hstart : text.IsBoundary start) (hstop : text.IsBoundary stop) :
    (text.span file start stop).Sliceable file text :=
  ⟨rfl, hle, hstop.le_size, hstart, hstop, hasPosition_position hstop⟩

/-- The report of a character that is longer than the byte at which it points. -/
def Diagnostic.CutsCharacter (text : Text) (d : Diagnostic) (s : Span) : Prop :=
  d.code = some .unexpectedCharacter ∧
    ∃ c ∈ (text.dropBytes? s.start).bind List.head?, 1 < c.utf8Size

instance (text : Text) (d : Diagnostic) (s : Span) : Decidable (d.CutsCharacter text s) :=
  decidable_of_iff (d.code = some .unexpectedCharacter ∧
    (((text.dropBytes? s.start).bind List.head?).any fun c => 1 < c.utf8Size) = true)
    (by simp [Diagnostic.CutsCharacter, Option.any_eq_true])

/-- A report points at a span in its text that begins with a character. It can be sliced unless the
report cuts that character. -/
structure Diagnostic.Points (file : FileId) (text : Text) (d : Diagnostic) (s : Span) : Prop where
  file_eq : s.file = file
  start_le : s.start ≤ s.stop
  stop_le : s.stop ≤ text.size
  start_boundary : text.IsBoundary s.start
  sliceable_iff : s.Sliceable file text ↔ ¬ d.CutsCharacter text s

theorem Diagnostic.points_of_sliceable {file : FileId} {text : Text} {d : Diagnostic} {s : Span}
    (h : s.Sliceable file text) (hd : d.code ≠ some .unexpectedCharacter) :
    d.Points file text s :=
  ⟨h.file_eq, h.start_le, h.stop_le, h.start_boundary, fun _ hcut => hd hcut.1, fun _ => h⟩

/-- Where the report of a fault points. -/
theorem Diagnostic.Found.points {file : FileId} {text : Text} {d : Diagnostic}
    (h : d.Found file text) : ∀ r ∈ d.labels, d.Points file text r.span := by
  obtain ⟨before, c, rest, fault, reach, rfl, -, rfl⟩ := h
  intro r hr
  obtain rfl := List.mem_singleton.mp hr
  dsimp only
  rw [Fault.span_eq]
  have hstart : (before ++ c :: rest).IsBoundary before.size := ⟨before, _, rfl, rfl⟩
  by_cases hfault : fault = .unexpectedCharacter
  · subst hfault
    rw [if_pos rfl]
    have hsize := c.utf8Size_pos
    have hnext := Text.isBoundary_succ_iff before c rest
    have hhead : ((before ++ c :: rest).dropBytes? before.size).bind List.head? = some c := by
      rw [Text.dropBytes?_append]
      rfl
    refine ⟨rfl, Nat.le_succ _, ?_, hstart, ?_, ?_⟩
    · change before.size + 1 ≤ _
      rw [Text.size_append, Text.size_cons]
      omega
    · rintro hslice ⟨-, d, hd, hlong⟩
      have hone := hnext.mp hslice.stop_boundary
      obtain rfl := Option.some_inj.mp (hhead.symm.trans hd)
      omega
    · intro hshort
      refine Text.sliceable_span file (Nat.le_succ _) hstart (hnext.mpr ?_)
      by_contra hlong
      exact hshort ⟨rfl, c, hhead, by omega⟩
  · rw [if_neg hfault]
    have hsplit := Text.append_split before (c :: rest) reach
    refine points_of_sliceable (Text.sliceable_span file ?_ hstart ⟨_, _, hsplit, rfl⟩) ?_
    · rw [Text.size_append]
      exact Nat.le_add_right _ _
    · exact fun hcode => hfault (Fault.code_eq_iff.mp hcode)

/-! ### Where phrases fail -/

namespace Phrase

variable {α β : Type}

/-- A phrase that fails at the end of what there was. -/
def FailsWithin (p : Phrase α) : Prop :=
  ∀ ⦃ls failure⦄, p ls = .error failure → failure.rest <:+ ls

theorem failsWithin_pure (a : α) : FailsWithin (pure a : Phrase α) := by
  intro ls failure h
  cases h

theorem FailsWithin.bind {p : Phrase α} {f : α → Phrase β} (hp : FailsWithin p) (htrims : Trims p)
    (hf : ∀ a, FailsWithin (f a)) : FailsWithin (p >>= f) := by
  intro ls failure h
  rcases bind_error.mp h with h | ⟨a, mid, ha, h⟩
  · exact hp h
  · exact (hf a h).trans (htrims ha)

theorem FailsWithin.cons {p : Phrase α} (hp : FailsWithin p) {l : Lexeme} {ls : List Lexeme}
    {failure : Failure} (h : p ls = .error failure) : failure.rest <:+ l :: ls :=
  (hp h).trans (List.suffix_cons _ _)

theorem failsWithin_one (expected : Expected) (f : Lexeme → Option α) :
    FailsWithin (one expected f) := by
  intro ls failure h
  unfold one at h
  split at h
  · cases h
    exact List.suffix_rfl
  · split at h <;> cases h
    exact List.suffix_rfl

theorem failsWithin_many (f : Lexeme → Option α) : FailsWithin (many f) := by
  intro ls failure h
  cases h

theorem failsWithin_cells (start : Span) : FailsWithin (cells start) :=
  (failsWithin_many _).bind (trims_many _) fun _ =>
    (failsWithin_one _ _).bind (trims_one _ _) fun _ => failsWithin_pure _

theorem failsWithin_bytes (start : Span) : FailsWithin (bytes start) :=
  (failsWithin_many _).bind (trims_many _) fun _ =>
    (failsWithin_one _ _).bind (trims_one _ _) fun _ => failsWithin_pure _

theorem failsWithin_value : FailsWithin value := by
  intro ls failure h
  unfold value at h
  split at h
  · cases h
    exact List.suffix_rfl
  · split at h
    · cases h
    · exact (failsWithin_cells _).cons h
    · exact (failsWithin_bytes _).cons h
    · split at h <;> cases h
      exact List.suffix_rfl

theorem failsWithin_moreValues : FailsWithin moreValues := by
  intro ls failure h
  induction hn : ls.length using Nat.strongRecOn generalizing ls with
  | ind n ih =>
      unfold moreValues at h
      split at h
      · cases h
      · split at h
        · split at h
          · rename_i hv
            cases h
            exact failsWithin_value.cons hv
          · rename_i v after hv
            split at h
            · rename_i hm
              cases h
              have shorter : after.length < n := by
                have := advances_value hv
                rw [← hn, List.length_cons]
                omega
              exact ((ih _ shorter hm rfl).trans (trims_value hv)).trans (List.suffix_cons _ _)
            · cases h
        · cases h

theorem failsWithin_assigned : FailsWithin assigned := by
  have hvalues : FailsWithin values :=
    failsWithin_value.bind trims_value fun _ =>
      failsWithin_moreValues.bind trims_moreValues fun _ => failsWithin_pure _
  intro ls failure h
  unfold assigned at h
  split at h
  · cases h
  · split at h
    · exact hvalues.cons h
    · cases h

theorem failsWithin_property (labels : List Label) : FailsWithin (property labels) :=
  (failsWithin_one _ _).bind (trims_one _ _) fun _ =>
    failsWithin_assigned.bind trims_assigned fun _ =>
      (failsWithin_one _ _).bind (trims_one _ _) fun _ => failsWithin_pure _

theorem failsWithin_deleteNode (keyword : Span) : FailsWithin (deleteNode keyword) :=
  (failsWithin_one _ _).bind (trims_one _ _) fun _ =>
    (failsWithin_one _ _).bind (trims_one _ _) fun _ => failsWithin_pure _

theorem failsWithin_deleteProperty (keyword : Span) : FailsWithin (deleteProperty keyword) :=
  (failsWithin_one _ _).bind (trims_one _ _) fun _ =>
    (failsWithin_one _ _).bind (trims_one _ _) fun _ => failsWithin_pure _

theorem failsWithin_braced (labels : List Label) (target : BlockTarget) :
    FailsWithin (braced labels target) :=
  (failsWithin_one _ _).bind (trims_one _ _) fun _ => failsWithin_pure _

theorem failsWithin_complete {p : Phrase Statement} (hp : FailsWithin p) (htrims : Trims p) :
    FailsWithin (complete p) :=
  hp.bind htrims fun _ => failsWithin_pure _

theorem failsWithin_labelled (labels : List Label) : FailsWithin (labelled labels) := by
  intro ls failure h
  unfold labelled at h
  split at h
  · cases h
    exact List.suffix_rfl
  · split at h
    · exact (failsWithin_braced _ _).cons h
    · split at h
      · exact (failsWithin_braced _ _).cons h
      · exact failsWithin_complete (failsWithin_property labels) (trims_property labels) h
    · split at h
      · exact (failsWithin_braced _ _).cons h
      · cases h
        exact List.suffix_rfl

theorem failsWithin_opening : FailsWithin opening := by
  intro ls failure h
  unfold opening at h
  split at h
  · cases h
    exact List.suffix_rfl
  · split at h
    · exact (failsWithin_complete (failsWithin_deleteNode _) (trims_deleteNode _)).cons h
    · exact (failsWithin_complete (failsWithin_deleteProperty _) (trims_deleteProperty _)).cons h
    · exact (failsWithin_many _).bind (trims_many _) failsWithin_labelled h

end Phrase

namespace Item

theorem failsWithin_bareDirective : Phrase.FailsWithin bareDirective :=
  (Phrase.failsWithin_one _ _).bind (Phrase.trims_one _ _) fun _ => Phrase.failsWithin_pure _

theorem failsWithin_memoryReserve : Phrase.FailsWithin memoryReserve :=
  (Phrase.failsWithin_one _ _).bind (Phrase.trims_one _ _) fun _ =>
    (Phrase.failsWithin_one _ _).bind (Phrase.trims_one _ _) fun _ => failsWithin_bareDirective

theorem failsWithin_includePath (keyword : Span) : Phrase.FailsWithin (includePath keyword) :=
  (Phrase.failsWithin_one _ _).bind (Phrase.trims_one _ _) fun _ => Phrase.failsWithin_pure _

end Item

/-! ### Reports of the grammar -/

/-- The spans of some lexemes, and where the end of input is reported. -/
def Lexeme.places (last : Span) (ls : List Lexeme) : List Span :=
  last :: ls.map (·.span)

theorem Lexeme.places_subset {last : Span} {ls rest : List Lexeme} (h : rest <:+ ls) :
    places last rest ⊆ places last ls :=
  List.cons_subset_cons _ (List.map_subset _ h.subset)

/-- A report that points at some of the spans given, and not at a character. -/
def Diagnostic.PointsAt (spans : List Span) (d : Diagnostic) : Prop :=
  d.code ≠ some .unexpectedCharacter ∧ ∀ r ∈ d.labels, r.span ∈ spans

theorem Diagnostic.PointsAt.of_suffix {last : Span} {ls rest : List Lexeme} {d : Diagnostic}
    (h : d.PointsAt (Lexeme.places last rest)) (hrest : rest <:+ ls) :
    d.PointsAt (Lexeme.places last ls) :=
  ⟨h.1, fun r hr => Lexeme.places_subset hrest (h.2 r hr)⟩

theorem Diagnostic.pointsAt_errorAt {code : Code} (hcode : code ≠ .unexpectedCharacter)
    {spans : List Span} {span : Span} (hspan : span ∈ spans) (message remark : String)
    (help : Option String) : (errorAt code message span remark help).PointsAt spans := by
  refine ⟨fun h => hcode (Option.some_inj.mp h), fun r hr => ?_⟩
  obtain rfl := List.mem_singleton.mp hr
  exact hspan

theorem Failure.pointsAt {failure : Failure} {ls : List Lexeme} (h : failure.rest <:+ ls)
    (last : Span) : (failure.diagnostic last).PointsAt (Lexeme.places last ls) := by
  unfold Failure.diagnostic
  split
  · rename_i l rest hrest
    have hl : l ∈ ls := h.subset (hrest ▸ List.mem_cons_self)
    exact Diagnostic.pointsAt_errorAt (by decide)
      (List.mem_cons_of_mem _ (List.mem_map_of_mem hl)) _ _ _
  · exact Diagnostic.pointsAt_errorAt (by decide) List.mem_cons_self _ _ _

/-- A failure within some lexemes, if there is one, and reports that point at them. -/
structure Accounts (last : Span) (ls : List Lexeme) {α : Type} (outcome : Except Failure α)
    (reports : List Diagnostic) : Prop where
  failure : ∀ failure, outcome = .error failure → failure.rest <:+ ls
  reports : ∀ d ∈ reports, d.PointsAt (Lexeme.places last ls)

theorem Accounts.of_suffix {last : Span} {ls rest : List Lexeme} {α : Type}
    {outcome : Except Failure α} {reports : List Diagnostic}
    (h : Accounts last rest outcome reports) (hrest : rest <:+ ls) :
    Accounts last ls outcome reports where
  failure failure houtcome := (h.failure failure houtcome).trans hrest
  reports d hd := (h.reports d hd).of_suffix hrest

section Accounting

variable (last : Span)

theorem accounts_ok (ls : List Lexeme) {α : Type} (a : α) : Accounts last ls (.ok a) [] := by
  refine ⟨?_, List.forall_mem_nil _⟩
  intro failure h
  cases h

theorem Phrase.FailsWithin.accounts {α : Type} {p : Phrase α} (hp : FailsWithin p)
    (ls : List Lexeme) : Accounts last ls (p ls) [] :=
  ⟨fun _ h => hp h, List.forall_mem_nil _⟩

theorem accounts_closeBlock (labels : List Label) (target : BlockTarget) (body : List Statement)
    (ls : List Lexeme) :
    Accounts last ls (closeBlock labels target body ls).1 (closeBlock labels target body ls).2 := by
  unfold closeBlock
  dsimp only
  split
  · rename_i failure hmark
    refine ⟨?_, List.forall_mem_nil _⟩
    rintro _ ⟨⟩
    exact Phrase.failsWithin_one _ _ hmark
  · rename_i close rest hmark
    split
    · exact accounts_ok last ls _
    · refine ⟨(accounts_ok last ls _).failure, fun d hd => ?_⟩
      obtain rfl := List.mem_singleton.mp hd
      obtain ⟨l, rfl, hl⟩ := Phrase.one_ok hmark
      have hclose : l.span = close := by
        split at hl
        · exact Option.some_inj.mp hl
        · cases hl
      rw [← hclose]
      exact Diagnostic.pointsAt_errorAt (by decide)
        (List.mem_cons_of_mem _ List.mem_cons_self) _ _ _

theorem accounts_of_bodies {ls : List Lexeme}
    (ih : ∀ rest, rest.length < ls.length →
      ∀ d ∈ (readBody last rest).reports, d.PointsAt (Lexeme.places last rest)) :
    Accounts last ls (readStatement last ls).outcome (readStatement last ls).reports := by
  cases hopening : Phrase.opening ls with
  | error failure =>
      obtain ⟨houtcome, hreports⟩ := readStatement_of_error last hopening
      rw [houtcome, hreports]
      refine ⟨?_, List.forall_mem_nil _⟩
      rintro _ ⟨⟩
      exact Phrase.failsWithin_opening hopening
  | ok read =>
      obtain ⟨opened, rest⟩ := read
      have hrest := Phrase.trims_opening hopening
      cases opened with
      | complete s =>
          obtain ⟨houtcome, hreports⟩ := readStatement_of_complete last hopening
          rw [houtcome, hreports]
          exact accounts_ok last ls _
      | block labels target =>
          obtain ⟨houtcome, hreports⟩ := readStatement_of_block last hopening
          have hbody := ih rest (Phrase.advances_opening hopening)
          have hclose := (accounts_closeBlock last labels target (readBody last rest).statements
            (readBody last rest).rest).of_suffix (trims_reading.body last rest)
          rw [houtcome, hreports]
          refine Accounts.of_suffix ⟨hclose.failure, fun d hd => ?_⟩ hrest
          rcases List.mem_append.mp hd with hd | hd
          · exact hbody d hd
          · exact hclose.reports d hd

theorem readStatement_suffix {ls rest : List Lexeme} {s : Statement}
    (h : (readStatement last ls).outcome = .ok (s, rest)) : rest <:+ ls := by
  rw [Attempt.outcome] at h
  cases hresult : (readStatement last ls).result with
  | error failure =>
      rw [hresult] at h
      cases h
  | ok read =>
      have hsuffix := trims_reading.statement last hresult
      rw [hresult] at h
      obtain ⟨-, rfl⟩ := Prod.mk.inj (Except.ok.inj h)
      exact hsuffix

/-- The reports of a body point at its lexemes. -/
theorem readBody_pointsAt (ls : List Lexeme) :
    ∀ d ∈ (readBody last ls).reports, d.PointsAt (Lexeme.places last ls) := by
  induction hn : ls.length using Nat.strongRecOn generalizing ls with
  | ind n ih =>
      cases ls with
      | nil =>
          rw [(readBody_nil last).2.2]
          exact List.forall_mem_nil _
      | cons l ls =>
          by_cases hl : l.token = .rightBrace
          · rw [(readBody_of_brace last hl ls).2.2]
            exact List.forall_mem_nil _
          · have haccounts := accounts_of_bodies last fun rest hlt => ih _ (hn ▸ hlt) rest rfl
            cases houtcome : (readStatement last (l :: ls)).outcome with
            | ok read =>
                obtain ⟨s, rest⟩ := read
                rw [(readBody_of_ok last hl houtcome).2.2]
                intro d hd
                rcases List.mem_append.mp hd with hd | hd
                · exact haccounts.reports d hd
                · have hlt := Attempt.outcome_length_lt houtcome
                  exact (ih _ (hn ▸ hlt) rest rfl d hd).of_suffix
                    (readStatement_suffix last houtcome)
            | error failure =>
                rw [(readBody_of_error last hl houtcome).2.2]
                intro d hd
                rcases List.mem_append.mp hd with hd | hd
                · exact haccounts.reports d hd
                · rcases List.mem_cons.mp hd with rfl | hd
                  · exact Failure.pointsAt (haccounts.failure failure houtcome) last
                  · have hlt := skipStatement_length_lt .nested l ls (.inr hl)
                    exact (ih _ (hn ▸ hlt) _ rfl d hd).of_suffix (skipStatement_suffix .nested 0 _)

theorem accounts_readStatement (ls : List Lexeme) :
    Accounts last ls (readStatement last ls).outcome (readStatement last ls).reports :=
  accounts_of_bodies last fun rest _ => readBody_pointsAt last rest

theorem accounts_item (ls : List Lexeme) :
    Accounts last ls (Item.read last ls).1 (Item.read last ls).2 := by
  cases ls with
  | nil =>
      refine ⟨?_, List.forall_mem_nil _⟩
      rintro _ ⟨⟩
      exact List.suffix_rfl
  | cons l ls =>
      have past : ∀ {p : Phrase Item}, Phrase.FailsWithin p → Accounts last (l :: ls) (p ls) [] :=
        fun hp => (hp.accounts last ls).of_suffix (List.suffix_cons _ _)
      simp only [Item.read]
      split
      · exact past Item.failsWithin_bareDirective
      · exact past Item.failsWithin_bareDirective
      · exact past Item.failsWithin_memoryReserve
      · exact past (Item.failsWithin_includePath _)
      · exact accounts_ok last _ _
      · have haccounts := accounts_readStatement last (l :: ls)
        refine ⟨fun failure h => haccounts.failure failure ?_, haccounts.reports⟩
        rw [Attempt.outcome]
        cases hresult : (readStatement last (l :: ls)).result with
        | error other =>
            rw [hresult] at h
            cases h
            rfl
        | ok read =>
            rw [hresult] at h
            cases h

/-- The reports of a file point at its lexemes. -/
theorem items_pointsAt (ls : List Lexeme) :
    ∀ d ∈ (Items.read last ls).reports, d.PointsAt (Lexeme.places last ls) := by
  refine Items.read_induction (R := fun ls items => ∀ d ∈ items.reports,
    d.PointsAt (Lexeme.places last ls)) last ?_ ?_ ?_ ls
  · exact List.forall_mem_nil _
  · intro ls item rest reports items h ih d hd
    have haccounts := accounts_item last ls
    rw [h] at haccounts
    rcases List.mem_append.mp hd with hd | hd
    · exact haccounts.reports d hd
    · exact (ih d hd).of_suffix (Item.read_suffix h)
  · intro ls failure reports items h ih d hd
    have haccounts := accounts_item last ls
    rw [h] at haccounts
    rcases List.mem_append.mp hd with hd | hd
    · exact haccounts.reports d hd
    · rcases List.mem_cons.mp hd with rfl | hd
      · exact Failure.pointsAt (haccounts.failure failure rfl) last
      · exact (ih d hd).of_suffix (skipStatement_suffix .top 0 _)

end Accounting

namespace SourceFile

/-- The end of input is reported at the last lexeme, and not if there is none. -/
theorem ofLexemes_pointsAt (file : FileId) (ls : List Lexeme) :
    ∀ d ∈ (ofLexemes file ls).diagnostics, d.PointsAt (ls.map (·.span)) := by
  intro d hd
  obtain ⟨hcode, hspans⟩ := items_pointsAt _ ls d hd
  refine ⟨hcode, fun r hr => ?_⟩
  rcases List.mem_cons.mp (hspans r hr) with hlast | hspan
  · cases hget : ls.getLast? with
    | none =>
        obtain rfl := List.getLast?_eq_none_iff.mp hget
        rw [ofLexemes, Items.read] at hd
        cases hd
    | some l =>
        rw [hget] at hlast
        exact List.mem_map.mpr ⟨l, List.mem_of_getLast? hget, hlast.symm⟩
  · exact hspan

/-- Every report of a file points at spans in its text that begin with a character. They can be
sliced, with one exception: of a character that begins no token and is longer than one byte the
span ends inside. -/
theorem report_span_sliceable_iff (file : FileId) (text : Text) (d : Diagnostic)
    (hd : d ∈ (SourceFile.read file text).diagnostics) (r : Remark) (hr : r ∈ d.labels) :
    d.Points file text r.span := by
  obtain ⟨hlexemes, hfaults⟩ := Tokens.found_read file text
  rcases List.mem_append.mp hd with hd | hd
  · exact (hfaults d hd).points r hr
  · obtain ⟨hcode, hspans⟩ := ofLexemes_pointsAt file _ d hd
    obtain ⟨l, hl, hspan⟩ := List.mem_map.mp (hspans r hr)
    rw [← hspan]
    exact Diagnostic.points_of_sliceable
      (hlexemes l (List.mem_filter.mp hl).1).stands.faithful.sliceable hcode

/-- A string that is not closed, after a character that begins no token. -/
def openText : Text :=
  "é \"ü".toList

/-- The report about the string. -/
def openReport : Diagnostic :=
  Fault.unterminatedString.diagnostic ⟨⟨0⟩, 3, 6, ⟨0, 2⟩, ⟨0, 4⟩⟩

theorem openText_sliceable :
    openReport ∈ (SourceFile.read ⟨0⟩ openText).diagnostics ∧
      ∃ r ∈ openReport.labels, r.span.Sliceable ⟨0⟩ openText := by
  have hreport : openReport ∈ (SourceFile.read ⟨0⟩ openText).diagnostics := by
    decide +kernel
  have hpoints := report_span_sliceable_iff ⟨0⟩ openText openReport hreport _ List.mem_cons_self
  exact ⟨hreport, _, List.mem_cons_self, hpoints.sliceable_iff.mpr (by decide)⟩

/-- Two characters that begin no token, of two bytes each. -/
def accentsText : Text :=
  "éé".toList

/-- Both reports end inside their characters, and the second one past the end of the line. -/
theorem accentsText_cut :
    (SourceFile.read ⟨0⟩ accentsText).diagnostics.flatMap (·.labels.map (·.span)) =
        [⟨⟨0⟩, 0, 1, ⟨0, 0⟩, ⟨0, 1⟩⟩, ⟨⟨0⟩, 2, 3, ⟨0, 1⟩, ⟨0, 3⟩⟩] ∧
      ¬ accentsText.IsBoundary 1 ∧ ¬ accentsText.IsBoundary 3 ∧
      ¬ accentsText.HasPosition ⟨0, 3⟩ := by
  decide +kernel

end SourceFile

end Devicetree
