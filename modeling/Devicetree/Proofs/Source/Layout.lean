import Mathlib.Logic.Relation
import Devicetree.Source.Element
import Devicetree.Proofs.Source.Segments

/-!
# The layout of a source tree

Every part of a tree as read, down to the segments of its paths, has a span that is faithful to
the text, and the parts of one element stand in its span one after another. Reading a phrase lays
its parts out between the edge it began at and the edge it ended at. An element that is made of
such parts goes from the first of them to the mark that ends it.
-/

namespace Devicetree

namespace Element

/-- The parts of an element at any depth, itself included. -/
def Holds : Element → Element → Prop :=
  Relation.ReflTransGen fun e c => c ∈ e.children

/-- What a path reference reads is written where it stands. -/
def Written (text : Text) : Element → Prop
  | reference (.path ref) => ref.Written text
  | _ => True

/-- An element with a faithful span in which its direct parts follow one another. -/
structure Laid (file : FileId) (text : Text) (e : Element) : Prop where
  faithful : e.span.Faithful file text
  row : Span.Row file e.span.first e.span.last (e.children.map span)
  written : e.Written text

/-- An element that is laid out with all its parts. -/
def LaidOut (file : FileId) (text : Text) (e : Element) : Prop :=
  ∀ c, e.Holds c → c.Laid file text

theorem laidOut_iff {file : FileId} {text : Text} {e : Element} :
    e.LaidOut file text ↔ e.Laid file text ∧ ∀ c ∈ e.children, c.LaidOut file text := by
  constructor
  · intro h
    exact ⟨h e .refl, fun c hc d hd => h d (.head hc hd)⟩
  · rintro ⟨he, hchildren⟩ d hd
    rcases Relation.ReflTransGen.cases_head hd with rfl | ⟨c, hc, hd⟩
    · exact he
    · exact hchildren c hc d hd

/-- Elements that are laid out one after another between two edges. -/
structure Row (file : FileId) (text : Text) (lo hi : Edge) (es : List Element) : Prop where
  row : Span.Row file lo hi (es.map span)
  laidOut : ∀ e ∈ es, e.LaidOut file text

namespace Row

variable {file : FileId} {text : Text} {lo lo' low mid hi hi' : Edge} {e c : Element}
  {es fs : List Element}

theorem nil : Row file text lo hi [] :=
  ⟨.nil, List.forall_mem_nil _⟩

theorem mono (h : Row file text lo hi es) (hlo : lo' ≤ lo) (hhi : hi ≤ hi') :
    Row file text lo' hi' es :=
  ⟨h.row.mono hlo hhi, h.laidOut⟩

theorem append (h : Row file text lo mid es) (h' : Row file text mid hi fs) (hlo : lo ≤ mid)
    (hhi : mid ≤ hi) : Row file text lo hi (es ++ fs) := by
  constructor
  · rw [List.map_append]
    exact h.row.append h'.row hlo hhi
  · intro e he
    rcases List.mem_append.mp he with he | he
    · exact h.laidOut e he
    · exact h'.laidOut e he

theorem of_sublist (h : Row file text lo hi fs) (hes : es.Sublist fs) : Row file text lo hi es :=
  ⟨h.row.of_sublist (hes.map span), fun e he => h.laidOut e (hes.subset he)⟩

/-- An element is laid out if its parts are, in a faithful span. -/
theorem one (hwithin : e.span.Within file lo hi) (hfaithful : e.span.Faithful file text)
    (hparts : Row file text e.span.first e.span.last e.children) (hwritten : e.Written text) :
    Row file text lo hi [e] :=
  ⟨.one hwithin, List.forall_mem_singleton.mpr
    (laidOut_iff.mpr ⟨⟨hfaithful, hparts.row, hwritten⟩, hparts.laidOut⟩)⟩

theorem head (h : Row file text lo hi (e :: es)) : e.LaidOut file text :=
  h.laidOut e List.mem_cons_self

theorem within (h : Row file text lo hi (e :: es)) : e.span.Within file lo hi :=
  h.row.within _ List.mem_cons_self

theorem faithful (h : Row file text lo hi (e :: es)) : e.span.Faithful file text :=
  (h.head e .refl).faithful

/-- What follows the first element of a row begins where that one ends. -/
theorem tail (h : Row file text lo hi (e :: es)) : Row file text e.span.last hi es := by
  refine ⟨⟨fun s hs => ?_, (List.pairwise_cons.mp h.row.ordered).2⟩,
    fun c hc => h.laidOut c (List.mem_cons_of_mem e hc)⟩
  have hw := h.row.within s (List.mem_cons_of_mem _ hs)
  exact ⟨hw.file_eq, (List.pairwise_cons.mp h.row.ordered).1 s hs, hw.first_lt, hw.le_hi⟩

/-- A row begins where its first element does. -/
theorem tighten (h : Row file text lo hi (e :: es)) : Row file text e.span.first hi (e :: es) := by
  have hhead : Row file text e.span.first e.span.last [e] :=
    ⟨.one h.within.from_first.up_to_last, List.forall_mem_singleton.mpr h.head⟩
  exact hhead.append h.tail (Edge.le_of_lt h.within.first_lt) h.within.le_hi

/-- An element that goes from one span to another, with its parts between the ends. -/
theorem union {start stop : Span} (hstart : Row file text lo low [keyword start])
    (hstop : Row file text mid hi [keyword stop]) (hle : low ≤ mid)
    (hspan : e.span = start.union stop) (hparts : Row file text start.first mid e.children)
    (hwritten : e.Written text) : Row file text lo hi [e] := by
  have hfirst : start.Within file lo mid := hstart.within.mono (Edge.le_refl _) hle
  have hlast : stop.Within file mid hi := hstop.within
  obtain ⟨hunion, hfirst_eq, hlast_eq⟩ := hfirst.union hlast
  have hbefore : start.last ≤ stop.first := Edge.le_trans hfirst.le_hi hlast.lo_le
  have hmid : mid ≤ stop.last := hlast.lo_le_last
  apply one
  · rw [hspan]
    exact hunion.mono hfirst.lo_le hlast.le_hi
  · rw [hspan]
    exact hstart.faithful.union hstop.faithful hbefore.1
  · rw [hspan, hfirst_eq, hlast_eq]
    exact hparts.mono (Edge.le_refl _) hmid
  · exact hwritten

/-- An element that goes from its first part to a mark after its last. -/
theorem close {stop : Span} (hparts : Row file text lo mid (c :: es))
    (hstop : Row file text mid hi [keyword stop]) (hchildren : e.children = c :: es)
    (hspan : e.span = c.span.union stop) (hwritten : e.Written text) :
    Row file text lo hi [e] := by
  have hstart : Row file text lo c.span.last [keyword c.span] :=
    one hparts.within.up_to_last hparts.faithful .nil trivial
  apply hstart.union hstop hparts.within.le_hi hspan
  · rw [hchildren]
    exact hparts.tighten
  · exact hwritten

end Row

end Element

/-! ### Lexemes and what they are read as -/

/-- Lexemes that stand in a text one after another from an edge on. -/
structure Lexeme.Run (file : FileId) (text : Text) (lo : Edge) (ls : List Lexeme) : Prop where
  chain : Lexeme.Chain file lo ls
  stands : ∀ l ∈ ls, l.Stands file text

namespace Lexeme

variable {α : Type} {file : FileId} {text : Text} {lo : Edge} {l : Lexeme} {ls : List Lexeme}

theorem Run.head (h : Run file text lo (l :: ls)) : l.Stands file text :=
  h.stands l List.mem_cons_self

theorem Run.tail (h : Run file text lo (l :: ls)) : Run file text l.span.last ls :=
  ⟨h.chain.tail, fun m hm => h.stands m (List.mem_cons_of_mem l hm)⟩

theorem Run.of_suffix (h : Run file text lo ls) {rest : List Lexeme} (hrest : rest <:+ ls) :
    ∃ hi, lo ≤ hi ∧ Run file text hi rest := by
  obtain ⟨hi, hhi, hchain⟩ := h.chain.of_suffix hrest
  exact ⟨hi, hhi, hchain, fun m hm => h.stands m (hrest.subset hm)⟩

/-- What begins with the first lexeme of a run begins in the run. -/
theorem Run.widen (h : Run file text lo (l :: ls)) {rest : List Lexeme} {es : List Element}
    (hrow : ∃ hi, l.span.last ≤ hi ∧ Run file text hi rest ∧
      Element.Row file text l.span.first hi es) :
    ∃ hi, lo ≤ hi ∧ Run file text hi rest ∧ Element.Row file text lo hi es := by
  obtain ⟨hi, hhi, hrest, hrow⟩ := hrow
  exact ⟨hi, Edge.le_trans h.chain.le_last hhi, hrest, hrow.mono h.chain.2.1 (Edge.le_refl _)⟩

/-- What a lexeme is read as stands where the lexeme does. -/
def Gives (file : FileId) (text : Text) (f : Lexeme → Option α) (part : α → Element) : Prop :=
  ∀ ⦃l a⦄, l.Stands file text → f l = some a →
    Element.Row file text l.span.first l.span.last [part a]

/-- An element with the span of a lexeme. -/
theorem Stands.row {e : Element} (hl : l.Stands file text) (hspan : e.span = l.span)
    (hparts : Element.Row file text l.span.first l.span.last e.children)
    (hwritten : e.Written text) : Element.Row file text l.span.first l.span.last [e] := by
  rw [← hspan] at hparts ⊢
  exact .one (hspan ▸ hl.within) (hspan ▸ hl.faithful) hparts hwritten

/-- An element without parts that has the span of a lexeme. -/
theorem Stands.leaf {e : Element} (hl : l.Stands file text) (hspan : e.span = l.span)
    (hchildren : e.children = []) (hwritten : e.Written text) :
    Element.Row file text l.span.first l.span.last [e] :=
  hl.row hspan (hchildren ▸ .nil) hwritten

theorem Stands.keyword (hl : l.Stands file text) :
    Element.Row file text l.span.first l.span.last [.keyword l.span] :=
  hl.leaf rfl rfl trivial

theorem gives_label? : Gives file text label? .label := by
  intro l label hl h
  unfold label? at h
  split at h <;> cases h
  exact hl.leaf rfl rfl trivial

theorem gives_word? : Gives file text word? .propertyName := by
  intro l name hl h
  unfold word? at h
  split at h <;> cases h
  exact hl.leaf rfl rfl trivial

theorem reference?_span {ref : Reference} (h : l.reference? = some ref) : ref.span = l.span := by
  unfold reference? at h
  split at h <;> cases h <;> rfl

theorem gives_reference? : Gives file text reference? .reference := by
  intro l ref hl h
  unfold reference? at h
  split at h
  · cases h
    exact hl.leaf rfl rfl trivial
  · rename_i path hpath
    cases h
    obtain ⟨hwritten, hfaithful, hrow⟩ := PathRef.lined_read hl hpath
    refine hl.row rfl ⟨?_, ?_⟩ hwritten
    · rw [Element.children, List.map_map]
      exact hrow
    · intro e he
      obtain ⟨name, hname, rfl⟩ := List.mem_map.mp he
      exact Element.laidOut_iff.mpr ⟨⟨hfaithful name hname, .nil, trivial⟩, List.forall_mem_nil _⟩
  · cases h

theorem gives_cell? : Gives file text cell? .cell := by
  intro l cell hl h
  unfold cell? at h
  split at h
  · split at h <;> cases h <;> exact hl.leaf rfl rfl trivial
  · obtain ⟨ref, href, rfl⟩ := Option.map_eq_some_iff.mp h
    exact hl.row (reference?_span href) (gives_reference? hl href) trivial

end Lexeme

namespace Phrase

variable {α : Type} {file : FileId} {text : Text}

/-- A phrase whose parts are laid out between the edges at which it begins and ends. -/
def Lays (file : FileId) (text : Text) (p : Phrase α) (parts : α → List Element) : Prop :=
  ∀ ⦃ls rest a lo⦄, Lexeme.Run file text lo ls → p ls = .ok (a, rest) →
    ∃ hi, lo ≤ hi ∧ Lexeme.Run file text hi rest ∧ Element.Row file text lo hi (parts a)

theorem lays_one (expected : Expected) {f : Lexeme → Option α} {part : α → Element}
    (hf : Lexeme.Gives file text f part) : Lays file text (one expected f) fun a => [part a] := by
  intro ls rest a lo hrun h
  unfold one at h
  split at h
  · cases h
  · rename_i l ls
    split at h
    · rename_i b hb
      cases h
      exact hrun.widen ⟨l.span.last, Edge.le_refl _, hrun.tail, hf hrun.head hb⟩
    · cases h

theorem lays_many {f : Lexeme → Option α} {part : α → Element}
    (hf : Lexeme.Gives file text f part) : Lays file text (many f) (List.map part) := by
  intro ls rest as lo hrun h
  simp only [many, Except.ok.injEq] at h
  induction ls generalizing lo as rest with
  | nil =>
      cases h
      exact ⟨lo, Edge.le_refl _, hrun, .nil⟩
  | cons l ls ih =>
      rw [splitMany] at h
      split at h
      · rename_i a ha
        cases h
        obtain ⟨hi, hhi, hrest, hrow⟩ := ih hrun.tail rfl
        have hown := (hf hrun.head ha).mono hrun.chain.2.1 (Edge.le_refl _)
        refine ⟨hi, Edge.le_trans hrun.chain.le_last hhi, hrest, ?_⟩
        rw [List.map_cons]
        exact hown.append hrow hrun.chain.le_last hhi
      · cases h
        exact ⟨lo, Edge.le_refl _, hrun, .nil⟩

/-- A mark stands in the text as a keyword does. -/
theorem lays_mark (token : Token) (expected : Expected) :
    Lays file text (mark token expected) fun span => [.keyword span] := by
  apply lays_one
  intro l span hl h
  dsimp only at h
  split at h <;> cases h
  exact hl.keyword

/-! ### Values -/

theorem lays_cells {l : Lexeme} {ls rest : List Lexeme} {v : Value} (hl : l.Stands file text)
    (hrun : Lexeme.Run file text l.span.last ls) (h : cells l.span ls = .ok (v, rest)) :
    ∃ hi, l.span.last ≤ hi ∧ Lexeme.Run file text hi rest ∧
      Element.Row file text l.span.first hi [.value v] := by
  obtain ⟨cs, after, hcs, h⟩ := bind_ok.mp h
  obtain ⟨stop, left, hstop, h⟩ := bind_ok.mp h
  obtain ⟨rfl, rfl⟩ := pure_ok.mp h
  obtain ⟨mid, hmid, hafter, hcells⟩ := lays_many Lexeme.gives_cell? hrun hcs
  obtain ⟨hi, hhi, hrest, hmark⟩ := lays_mark _ _ hafter hstop
  refine ⟨hi, Edge.le_trans hmid hhi, hrest, ?_⟩
  exact hl.keyword.union hmark hmid rfl
    (hcells.mono (Edge.le_of_lt hl.within.first_lt) (Edge.le_refl _)) trivial

theorem lays_bytes {l : Lexeme} {ls rest : List Lexeme} {v : Value} (hl : l.Stands file text)
    (hrun : Lexeme.Run file text l.span.last ls) (h : bytes l.span ls = .ok (v, rest)) :
    ∃ hi, l.span.last ≤ hi ∧ Lexeme.Run file text hi rest ∧
      Element.Row file text l.span.first hi [.value v] := by
  obtain ⟨bs, after, hbs, h⟩ := bind_ok.mp h
  obtain ⟨stop, left, hstop, h⟩ := bind_ok.mp h
  obtain ⟨rfl, rfl⟩ := pure_ok.mp h
  obtain ⟨mid, hmid, hafter⟩ := hrun.of_suffix (trims_many _ hbs)
  obtain ⟨hi, hhi, hrest, hmark⟩ := lays_mark _ _ hafter hstop
  refine ⟨hi, Edge.le_trans hmid hhi, hrest, ?_⟩
  exact hl.keyword.union hmark hmid rfl .nil trivial

theorem lays_value : Lays file text value fun v => [.value v] := by
  intro ls rest v lo hrun h
  unfold value at h
  split at h
  · cases h
  · rename_i l ls
    apply hrun.widen
    split at h
    · cases h
      exact ⟨l.span.last, Edge.le_refl _, hrun.tail, hrun.head.leaf rfl rfl trivial⟩
    · exact lays_cells hrun.head hrun.tail h
    · exact lays_bytes hrun.head hrun.tail h
    · split at h
      · rename_i ref href
        cases h
        have hspan : (Element.value (.reference ref)).span = l.span := Lexeme.reference?_span href
        have hparts := Lexeme.gives_reference? hrun.head href
        exact ⟨l.span.last, Edge.le_refl _, hrun.tail, hrun.head.row hspan hparts trivial⟩
      · cases h

theorem lays_moreValues : Lays file text moreValues (List.map .value) := by
  intro ls
  induction hn : ls.length using Nat.strongRecOn generalizing ls with
  | ind n ih =>
      intro rest vs lo hrun h
      cases ls with
      | nil =>
          rw [moreValues] at h
          cases h
          exact ⟨lo, Edge.le_refl _, hrun, .nil⟩
      | cons l ls =>
          rw [moreValues] at h
          split at h
          · split at h
            · cases h
            · rename_i v after hv
              have shorter : after.length < n := by
                have := advances_value hv
                rw [← hn, List.length_cons]
                omega
              obtain ⟨mid, hmid, hafter, hvalue⟩ := lays_value hrun.tail hv
              split at h
              · cases h
              · rename_i ws last hm
                cases h
                obtain ⟨hi, hhi, hrest, hvalues⟩ := ih _ shorter rfl hafter hm
                have hlo : lo ≤ l.span.last := hrun.chain.le_last
                have hlow := Edge.le_trans hlo hmid
                refine ⟨hi, Edge.le_trans hlow hhi, hrest, ?_⟩
                exact (hvalue.mono hlo (Edge.le_refl _)).append hvalues hlow hhi
          · cases h
            exact ⟨lo, Edge.le_refl _, hrun, .nil⟩

theorem lays_values : Lays file text values (List.map .value) := by
  intro ls rest vs lo hrun h
  obtain ⟨v, after, hv, h⟩ := bind_ok.mp h
  obtain ⟨ws, left, hws, h⟩ := bind_ok.mp h
  obtain ⟨rfl, rfl⟩ := pure_ok.mp h
  obtain ⟨mid, hmid, hafter, hvalue⟩ := lays_value hrun hv
  obtain ⟨hi, hhi, hrest, hvalues⟩ := lays_moreValues hafter hws
  exact ⟨hi, Edge.le_trans hmid hhi, hrest, hvalue.append hvalues hmid hhi⟩

theorem lays_assigned : Lays file text assigned (List.map .value) := by
  intro ls rest vs lo hrun h
  unfold assigned at h
  split at h
  · cases h
    exact ⟨lo, Edge.le_refl _, hrun, .nil⟩
  · split at h
    · obtain ⟨hi, hhi, hrest, hvalues⟩ := lays_values hrun.tail h
      have hlo := hrun.chain.le_last
      exact ⟨hi, Edge.le_trans hlo hhi, hrest, hvalues.mono hlo (Edge.le_refl _)⟩
    · cases h
      exact ⟨lo, Edge.le_refl _, hrun, .nil⟩

/-! ### Statements without a body, and the openings of blocks -/

/-- A statement with labels begins where the first of its parts does. -/
theorem startSpan_eq (labels : List Label) (c : Element) (es : List Element) :
    ∃ first others, labels.map Element.label ++ c :: es = first :: others ∧
      startSpan labels c.span = first.span := by
  cases labels with
  | nil => exact ⟨c, es, rfl, rfl⟩
  | cons label labels => exact ⟨.label label, labels.map .label ++ c :: es, rfl, rfl⟩

theorem lays_property {labels : List Label} {ls rest : List Lexeme} {s : Statement} {lo low : Edge}
    (hlabels : Element.Row file text lo low (labels.map .label)) (hlow : lo ≤ low)
    (hrun : Lexeme.Run file text low ls) (h : property labels ls = .ok (s, rest)) :
    ∃ hi, low ≤ hi ∧ Lexeme.Run file text hi rest ∧
      Element.Row file text lo hi [.statement s] := by
  obtain ⟨name, after, hname, h⟩ := bind_ok.mp h
  obtain ⟨values, last, hvalues, h⟩ := bind_ok.mp h
  obtain ⟨stop, left, hstop, h⟩ := bind_ok.mp h
  obtain ⟨rfl, rfl⟩ := pure_ok.mp h
  obtain ⟨mid, hmid, hafter, hname⟩ := lays_one _ Lexeme.gives_word? hrun hname
  obtain ⟨end_, hend, hlast, hvalues⟩ := lays_assigned hafter hvalues
  obtain ⟨hi, hhi, hrest, hmark⟩ := lays_mark _ _ hlast hstop
  have hparts := hlabels.append (hname.append hvalues hmid hend) hlow (Edge.le_trans hmid hend)
  obtain ⟨first, others, hfirst, hspan⟩ :=
    startSpan_eq labels (.propertyName name) (values.map .value)
  refine ⟨hi, Edge.le_trans hmid (Edge.le_trans hend hhi), hrest, ?_⟩
  refine Element.Row.close (c := first) (hfirst ▸ hparts) hmark hfirst ?_ trivial
  exact congrArg (Span.union · stop) hspan

theorem word?_span {l : Lexeme} {name : Spanned String} (h : l.word? = some name) :
    name.span = l.span := by
  unfold Lexeme.word? at h
  split at h <;> cases h
  rfl

theorem lays_deleteTarget : Lays file text deleteTarget fun target => [.ofDeleteTarget target] := by
  apply lays_one
  intro l target hl h
  dsimp only at h
  split at h
  · rename_i name hname
    cases h
    exact hl.leaf (word?_span hname) rfl trivial
  · obtain ⟨ref, href, rfl⟩ := Option.map_eq_some_iff.mp h
    exact Lexeme.gives_reference? hl href

theorem lays_deleteNode {l : Lexeme} {ls rest : List Lexeme} {s : Statement}
    (hl : l.Stands file text) (hrun : Lexeme.Run file text l.span.last ls)
    (h : deleteNode l.span ls = .ok (s, rest)) :
    ∃ hi, l.span.last ≤ hi ∧ Lexeme.Run file text hi rest ∧
      Element.Row file text l.span.first hi [.statement s] := by
  obtain ⟨target, after, htarget, h⟩ := bind_ok.mp h
  obtain ⟨stop, left, hstop, h⟩ := bind_ok.mp h
  obtain ⟨rfl, rfl⟩ := pure_ok.mp h
  obtain ⟨mid, hmid, hafter, htarget⟩ := lays_deleteTarget hrun htarget
  obtain ⟨hi, hhi, hrest, hmark⟩ := lays_mark _ _ hafter hstop
  have hparts := hl.keyword.append htarget (Edge.le_of_lt hl.within.first_lt) hmid
  exact ⟨hi, Edge.le_trans hmid hhi, hrest, hparts.close hmark rfl rfl trivial⟩

theorem lays_deleteProperty {l : Lexeme} {ls rest : List Lexeme} {s : Statement}
    (hl : l.Stands file text) (hrun : Lexeme.Run file text l.span.last ls)
    (h : deleteProperty l.span ls = .ok (s, rest)) :
    ∃ hi, l.span.last ≤ hi ∧ Lexeme.Run file text hi rest ∧
      Element.Row file text l.span.first hi [.statement s] := by
  obtain ⟨name, after, hname, h⟩ := bind_ok.mp h
  obtain ⟨stop, left, hstop, h⟩ := bind_ok.mp h
  obtain ⟨rfl, rfl⟩ := pure_ok.mp h
  obtain ⟨mid, hmid, hafter, hname⟩ := lays_one _ Lexeme.gives_word? hrun hname
  obtain ⟨hi, hhi, hrest, hmark⟩ := lays_mark _ _ hafter hstop
  have hparts := hl.keyword.append hname (Edge.le_of_lt hl.within.first_lt) hmid
  exact ⟨hi, Edge.le_trans hmid hhi, hrest, hparts.close hmark rfl rfl trivial⟩

/-- The parts read so far. -/
def Opening.parts : Opening → List Element
  | .complete s => [.statement s]
  | .block labels target => labels.map .label ++ [.ofBlockTarget target]

theorem lays_braced {labels : List Label} {target : BlockTarget} {l : Lexeme}
    {ls rest : List Lexeme} {o : Opening} {lo low : Edge}
    (hlabels : Element.Row file text lo low (labels.map .label)) (hlow : lo ≤ low)
    (hrun : Lexeme.Run file text low (l :: ls))
    (h : braced labels target ls = .ok (o, rest))
    (htarget : Element.Row file text l.span.first l.span.last [.ofBlockTarget target]) :
    ∃ hi, low ≤ hi ∧ Lexeme.Run file text hi rest ∧ Element.Row file text lo hi o.parts := by
  obtain ⟨brace, after, hbrace, h⟩ := bind_ok.mp h
  obtain ⟨rfl, rfl⟩ := pure_ok.mp h
  obtain ⟨hi, hhi, hrest, -⟩ := lays_mark _ _ hrun.tail hbrace
  have hend : low ≤ hi := Edge.le_trans hrun.chain.le_last hhi
  exact ⟨hi, hend, hrest, hlabels.append (htarget.mono hrun.chain.2.1 hhi) hlow hend⟩

theorem lays_labelled {labels : List Label} {ls rest : List Lexeme} {o : Opening} {lo low : Edge}
    (hlabels : Element.Row file text lo low (labels.map .label)) (hlow : lo ≤ low)
    (hrun : Lexeme.Run file text low ls) (h : labelled labels ls = .ok (o, rest)) :
    ∃ hi, low ≤ hi ∧ Lexeme.Run file text hi rest ∧ Element.Row file text lo hi o.parts := by
  unfold labelled at h
  split at h
  · cases h
  · rename_i l ls
    have hl := hrun.head
    split at h
    · exact lays_braced hlabels hlow hrun h hl.keyword
    · split at h
      · exact lays_braced hlabels hlow hrun h (hl.leaf rfl rfl trivial)
      · obtain ⟨s, after, hs, h⟩ := bind_ok.mp h
        obtain ⟨rfl, rfl⟩ := pure_ok.mp h
        exact lays_property hlabels hlow hrun hs
    · split at h
      · rename_i ref href
        exact lays_braced hlabels hlow hrun h (Lexeme.gives_reference? hl href)
      · cases h

theorem lays_opening : Lays file text opening Opening.parts := by
  intro ls rest o lo hrun h
  unfold opening at h
  split at h
  · cases h
  · rename_i l ls
    split at h
    · obtain ⟨s, after, hs, h⟩ := bind_ok.mp h
      obtain ⟨rfl, rfl⟩ := pure_ok.mp h
      exact hrun.widen (lays_deleteNode hrun.head hrun.tail hs)
    · obtain ⟨s, after, hs, h⟩ := bind_ok.mp h
      obtain ⟨rfl, rfl⟩ := pure_ok.mp h
      exact hrun.widen (lays_deleteProperty hrun.head hrun.tail hs)
    · obtain ⟨labels, after, hlabels, h⟩ := bind_ok.mp h
      obtain ⟨low, hlow, hafter, hlabels⟩ := lays_many Lexeme.gives_label? hrun hlabels
      obtain ⟨hi, hhi, hrest, hrow⟩ := lays_labelled hlabels hlow hafter h
      exact ⟨hi, Edge.le_trans hlow hhi, hrest, hrow⟩

end Phrase

/-! ### Blocks and files -/

section Reading

variable {file : FileId} {text : Text}

/-- A block goes from its first part to its semicolon, or to its closing brace where the semicolon
is missing. -/
theorem lays_closeBlock {labels : List Label} {target : BlockTarget} {body : List Statement}
    {ls rest : List Lexeme} {s : Statement} {reports : List Diagnostic} {lo mid : Edge}
    (hparts : Element.Row file text lo mid
      ((Phrase.Opening.block labels target).parts ++ body.map .statement))
    (hrun : Lexeme.Run file text mid ls)
    (h : closeBlock labels target body ls = (.ok (s, rest), reports)) :
    ∃ hi, mid ≤ hi ∧ Lexeme.Run file text hi rest ∧
      Element.Row file text lo hi [.statement s] := by
  rw [Phrase.Opening.parts, List.append_assoc, List.singleton_append] at hparts
  obtain ⟨first, others, hfirst, hspan⟩ :=
    Phrase.startSpan_eq labels (.ofBlockTarget target) (body.map .statement)
  have htarget : (Element.ofBlockTarget target).span = target.span := by
    cases target <;> rfl
  have closed : ∀ {stop : Span} {from_ hi : Edge}, mid ≤ from_ →
      Element.Row file text from_ hi [.keyword stop] →
      Element.Row file text lo hi [.statement (.block ⟨default, labels, target,
        (Phrase.startSpan labels target.span).union stop⟩ body)] := by
    intro stop from_ hi hmid hmark
    have hend := hparts.mono (Edge.le_refl _) hmid
    rw [hfirst] at hend
    refine hend.close hmark hfirst ?_ trivial
    rw [← hspan, htarget]
    rfl
  unfold closeBlock at h
  split at h
  · cases h
  · rename_i close after hclose
    obtain ⟨low, hlow, hafter, hbrace⟩ := Phrase.lays_mark _ _ hrun hclose
    split at h
    · rename_i stop left hstop
      cases h
      obtain ⟨hi, hhi, hrest, hmark⟩ := Phrase.lays_mark _ _ hafter hstop
      exact ⟨hi, Edge.le_trans hlow hhi, hrest, closed hlow hmark⟩
    · cases h
      exact ⟨low, hlow, hafter, closed (Edge.le_refl _) hbrace⟩

/-- A statement, and the statements of a body, are laid out as they are read. -/
theorem lays_reading (file : FileId) (text : Text) : ReadingSteps
    (fun ls s rest => ∀ ⦃lo⦄, Lexeme.Run file text lo ls →
      ∃ hi, lo ≤ hi ∧ Lexeme.Run file text hi rest ∧
        Element.Row file text lo hi [.statement s])
    (fun ls body rest => ∀ ⦃lo⦄, Lexeme.Run file text lo ls →
      ∃ hi, lo ≤ hi ∧ Lexeme.Run file text hi rest ∧
        Element.Row file text lo hi (body.map .statement)) where
  complete := by
    intro ls s rest ho lo hrun
    exact Phrase.lays_opening hrun ho
  block := by
    intro ls labels target inner body outer s rest reports ho hbody hclose lo hrun
    obtain ⟨low, hlow, hinner, hopening⟩ := Phrase.lays_opening hrun ho
    obtain ⟨mid, hmid, houter, hstatements⟩ := hbody hinner
    have hparts := hopening.append hstatements hlow hmid
    obtain ⟨hi, hhi, hrest, hrow⟩ := lays_closeBlock hparts houter hclose
    exact ⟨hi, Edge.le_trans hlow (Edge.le_trans hmid hhi), hrest, hrow⟩
  stop := by
    intro ls lo hrun
    exact ⟨lo, Edge.le_refl _, hrun, .nil⟩
  next := by
    intro ls s mid body rest hs hbody lo hrun
    obtain ⟨low, hlow, hmid, hrow⟩ := hs hrun
    obtain ⟨hi, hhi, hrest, hrows⟩ := hbody hmid
    exact ⟨hi, Edge.le_trans hlow hhi, hrest, hrow.append hrows hlow hhi⟩
  pass := by
    intro ls mid body rest hmid hbody lo hrun
    obtain ⟨low, hlow, hskipped⟩ := hrun.of_suffix hmid
    obtain ⟨hi, hhi, hrest, hrows⟩ := hbody hskipped
    exact ⟨hi, Edge.le_trans hlow hhi, hrest, hrows.mono hlow (Edge.le_refl _)⟩

/-- The statements of a file are laid out one after another. -/
theorem lays_items (last : Span) {ls : List Lexeme} {lo : Edge}
    (hrun : Lexeme.Run file text lo ls) :
    ∃ hi, lo ≤ hi ∧
      Element.Row file text lo hi ((Items.read last ls).statements.map .statement) := by
  refine items_induction (R := fun ls ss => ∀ ⦃lo⦄, Lexeme.Run file text lo ls →
      ∃ hi, lo ≤ hi ∧ Element.Row file text lo hi (ss.map .statement))
    last (fun lo _ => ⟨lo, Edge.le_refl _, .nil⟩) ?_ ?_ ls hrun
  · intro ls mid ss hmid hss lo hrun
    obtain ⟨low, hlow, hskipped⟩ := hrun.of_suffix hmid
    obtain ⟨hi, hhi, hrow⟩ := hss hskipped
    exact ⟨hi, Edge.le_trans hlow hhi, hrow.mono hlow (Edge.le_refl _)⟩
  · intro ls read ss hread hss lo hrun
    obtain ⟨mid, hmid, hrest, hrow⟩ := (lays_reading file text).statement last hread hrun
    obtain ⟨hi, hhi, hrows⟩ := hss hrest
    exact ⟨hi, Edge.le_trans hmid hhi, hrow.append hrows hmid hhi⟩

end Reading

end Devicetree
