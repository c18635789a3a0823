import Devicetree.Token.Lexer

/-!
# The order of lexemes

Lexemes follow one another in their file: none is empty, and none begins before the one before
it has ended, neither by bytes nor by positions. This is what lets positions stand for the
order of reading. Spans that follow one another in this way make up a row.
-/

namespace Devicetree

namespace Position

theorem lt_of_le_of_lt {p q r : Position} (hpq : p ≤ q) (hqr : q < r) : p < r := by
  rw [le_def] at hpq
  rw [lt_def] at *
  omega

theorem lt_of_lt_of_le {p q r : Position} (hpq : p < q) (hqr : q ≤ r) : p < r := by
  rw [le_def] at hqr
  rw [lt_def] at *
  omega

theorem le_of_lt {p q : Position} (h : p < q) : p ≤ q := by
  rw [lt_def] at h
  rw [le_def]
  omega

end Position

/-- An end of a span. -/
structure Edge where
  offset : Nat
  position : Position

namespace Edge

instance : LE Edge where
  le a b := a.offset ≤ b.offset ∧ a.position ≤ b.position

instance : LT Edge where
  lt a b := a.offset < b.offset ∧ a.position < b.position

theorem le_refl (a : Edge) : a ≤ a :=
  ⟨Nat.le_refl _, Position.le_refl _⟩

theorem le_trans {a b c : Edge} (hab : a ≤ b) (hbc : b ≤ c) : a ≤ c :=
  ⟨Nat.le_trans hab.1 hbc.1, Position.le_trans hab.2 hbc.2⟩

theorem le_of_lt {a b : Edge} (h : a < b) : a ≤ b :=
  ⟨Nat.le_of_lt h.1, Position.le_of_lt h.2⟩

theorem lt_of_le_of_lt {a b c : Edge} (hab : a ≤ b) (hbc : b < c) : a < c :=
  ⟨Nat.lt_of_le_of_lt hab.1 hbc.1, Position.lt_of_le_of_lt hab.2 hbc.2⟩

theorem lt_of_lt_of_le {a b c : Edge} (hab : a < b) (hbc : b ≤ c) : a < c :=
  ⟨Nat.lt_of_lt_of_le hab.1 hbc.1, Position.lt_of_lt_of_le hab.2 hbc.2⟩

end Edge

namespace Span

def first (s : Span) : Edge := ⟨s.start, s.startPos⟩

def last (s : Span) : Edge := ⟨s.stop, s.stopPos⟩

/-- A span of a file that is not empty and lies between two edges. -/
structure Within (file : FileId) (lo hi : Edge) (s : Span) : Prop where
  file_eq : s.file = file
  lo_le : lo ≤ s.first
  first_lt : s.first < s.last
  le_hi : s.last ≤ hi

namespace Within

variable {file : FileId} {lo lo' hi hi' : Edge} {s t : Span}

theorem mono (h : s.Within file lo hi) (hlo : lo' ≤ lo) (hhi : hi ≤ hi') :
    s.Within file lo' hi' :=
  ⟨h.file_eq, Edge.le_trans hlo h.lo_le, h.first_lt, Edge.le_trans h.le_hi hhi⟩

theorem lo_lt (h : s.Within file lo hi) : lo < hi :=
  Edge.lt_of_lt_of_le (Edge.lt_of_le_of_lt h.lo_le h.first_lt) h.le_hi

theorem lo_le_last (h : s.Within file lo hi) : lo ≤ s.last :=
  Edge.le_trans h.lo_le (Edge.le_of_lt h.first_lt)

theorem up_to_last (h : s.Within file lo hi) : s.Within file lo s.last :=
  ⟨h.file_eq, h.lo_le, h.first_lt, Edge.le_refl _⟩

theorem from_first (h : s.Within file lo hi) : s.Within file s.first hi :=
  ⟨h.file_eq, Edge.le_refl _, h.first_lt, h.le_hi⟩

/-- The union of a span with a later one goes from the first to the last edge. -/
theorem union_eq (hs : s.first < s.last) (hst : s.last ≤ t.first) (ht : t.first < t.last) :
    (s.union t).file = s.file ∧ (s.union t).first = s.first ∧ (s.union t).last = t.last := by
  have hstart : ¬ t.start < s.start :=
    Nat.not_lt_of_le (Nat.le_trans (Nat.le_of_lt hs.1) hst.1)
  have hstop : s.stop < t.stop := Nat.lt_of_le_of_lt hst.1 ht.1
  simp [union, first, last, hstart, hstop]

/-- Two spans, one after the other, make up one. -/
theorem union {mid : Edge} (hs : s.Within file lo mid) (ht : t.Within file mid hi) :
    (s.union t).Within file s.first t.last ∧ (s.union t).first = s.first ∧
      (s.union t).last = t.last := by
  obtain ⟨hfile, hfirst, hlast⟩ :=
    union_eq hs.first_lt (Edge.le_trans hs.le_hi ht.lo_le) ht.first_lt
  refine ⟨⟨hfile.trans hs.file_eq, ?_, ?_, ?_⟩, hfirst, hlast⟩
  · rw [hfirst]
    exact Edge.le_refl _
  · rw [hfirst, hlast]
    exact Edge.lt_of_lt_of_le hs.first_lt
      (Edge.le_trans hs.le_hi (Edge.le_trans ht.lo_le (Edge.le_of_lt ht.first_lt)))
  · rw [hlast]
    exact Edge.le_refl _

end Within

end Span

/-- Spans of a file that follow one another between two edges. -/
structure Span.Row (file : FileId) (lo hi : Edge) (ss : List Span) : Prop where
  within : ∀ s ∈ ss, s.Within file lo hi
  ordered : ss.Pairwise fun s t => s.last ≤ t.first

namespace Span.Row

variable {file : FileId} {lo lo' mid hi hi' : Edge} {ss ts : List Span}

theorem nil : Row file lo hi [] :=
  ⟨fun _ h => (List.not_mem_nil h).elim, .nil⟩

theorem one {s : Span} (h : s.Within file lo hi) : Row file lo hi [s] :=
  ⟨fun _ ht => List.mem_singleton.mp ht ▸ h, List.pairwise_singleton _ _⟩

theorem mono (h : Row file lo hi ss) (hlo : lo' ≤ lo) (hhi : hi ≤ hi') : Row file lo' hi' ss :=
  ⟨fun s hs => (h.within s hs).mono hlo hhi, h.ordered⟩

theorem append (h : Row file lo mid ss) (h' : Row file mid hi ts) (hlo : lo ≤ mid)
    (hhi : mid ≤ hi) : Row file lo hi (ss ++ ts) := by
  constructor
  · intro s hs
    rcases List.mem_append.mp hs with hs | hs
    · exact (h.within s hs).mono (Edge.le_refl _) hhi
    · exact (h'.within s hs).mono hlo (Edge.le_refl _)
  · refine List.pairwise_append.mpr ⟨h.ordered, h'.ordered, fun s hs t ht => ?_⟩
    exact Edge.le_trans (h.within s hs).le_hi (h'.within t ht).lo_le

theorem of_sublist (h : Row file lo hi ts) (hss : ss.Sublist ts) : Row file lo hi ss :=
  ⟨fun s hs => h.within s (hss.subset hs), h.ordered.sublist hss⟩

end Span.Row

/-- Lexemes of a file that follow one another from an edge on. -/
def Lexeme.Chain (file : FileId) : Edge → List Lexeme → Prop
  | _, [] => True
  | lo, l :: ls =>
    l.span.file = file ∧ lo ≤ l.span.first ∧ l.span.first < l.span.last ∧
      Chain file l.span.last ls

namespace Lexeme.Chain

variable {file : FileId} {lo lo' : Edge} {l : Lexeme} {ls : List Lexeme}

theorem mono (h : Chain file lo ls) (hlo : lo' ≤ lo) : Chain file lo' ls := by
  cases ls with
  | nil => trivial
  | cons l ls => exact ⟨h.1, Edge.le_trans hlo h.2.1, h.2.2⟩

theorem tail (h : Chain file lo (l :: ls)) : Chain file l.span.last ls :=
  h.2.2.2

theorem within (h : Chain file lo (l :: ls)) : l.span.Within file lo l.span.last :=
  ⟨h.1, h.2.1, h.2.2.1, Edge.le_refl _⟩

theorem le_last (h : Chain file lo (l :: ls)) : lo ≤ l.span.last :=
  Edge.le_of_lt h.within.lo_lt

/-- The end of a chain is a chain from some later edge on. -/
theorem of_suffix (h : Chain file lo ls) {rest : List Lexeme} (hrest : rest <:+ ls) :
    ∃ hi, lo ≤ hi ∧ Chain file hi rest := by
  induction ls generalizing lo with
  | nil => exact ⟨lo, Edge.le_refl _, List.suffix_nil.mp hrest ▸ h⟩
  | cons l ls ih =>
      rcases List.suffix_cons_iff.mp hrest with rfl | hrest
      · exact ⟨lo, Edge.le_refl _, h⟩
      · obtain ⟨hi, hhi, hchain⟩ := ih h.tail hrest
        exact ⟨hi, Edge.le_trans h.le_last hhi, hchain⟩

theorem filter (h : Chain file lo ls) (keep : Lexeme → Bool) : Chain file lo (ls.filter keep) := by
  induction ls generalizing lo with
  | nil => exact h
  | cons l ls ih =>
      rw [List.filter_cons]
      split
      · exact ⟨h.1, h.2.1, h.2.2.1, ih h.tail⟩
      · exact (ih h.tail).mono h.le_last

end Lexeme.Chain

namespace Place

def edge (p : Place) : Edge := ⟨p.offset, p.position⟩

theorem lt_step (p : Place) (c : Char) : p.edge < (p.step c).edge := by
  constructor
  · change p.offset < (p.step c).offset
    rw [step_offset]
    exact Nat.lt_add_of_pos_right c.utf8Size_pos
  · change p.position < (p.step c).position
    unfold step
    split
    · exact Position.lt_def.mpr (.inl (Nat.lt_succ_self _))
    · exact Position.lt_def.mpr (.inr ⟨rfl, Nat.lt_succ_self _⟩)

theorem le_walk (p : Place) (cs : Text) : p.edge ≤ (p.walk cs).edge := by
  induction cs generalizing p with
  | nil => exact Edge.le_refl _
  | cons c cs ih => exact Edge.le_trans (Edge.le_of_lt (p.lt_step c)) (ih (p.step c))

theorem lt_walk_cons (p : Place) (c : Char) (cs : Text) : p.edge < (p.walk (c :: cs)).edge :=
  Edge.lt_of_lt_of_le (p.lt_step c) ((p.step c).le_walk cs)

end Place

namespace Tokens

/-- Reading from a place gives lexemes that follow one another from there. -/
theorem chain_readFrom (file : FileId) (place : Place) (cs : Text) :
    Lexeme.Chain file place.edge (readFrom file place cs).lexemes := by
  induction hn : cs.length using Nat.strongRecOn generalizing place cs with
  | ind n ih =>
      cases cs with
      | nil =>
          rw [readFrom]
          trivial
      | cons c rest =>
          have shorter : ∀ more, (rest.drop more).length < n := by
            intro more
            rw [← hn, List.length_drop, List.length_cons]
            omega
          rw [readFrom]
          split
          · rename_i token more _
            refine ⟨rfl, Edge.le_refl _, place.lt_walk_cons c _, ?_⟩
            exact ih _ (shorter more) _ _ rfl
          · rename_i fault reach _
            exact (ih _ (shorter reach) _ _ rfl).mono
              (Edge.le_of_lt (place.lt_walk_cons c _))

theorem chain_read (file : FileId) (text : Text) :
    Lexeme.Chain file Place.origin.edge (read file text).lexemes :=
  chain_readFrom file Place.origin text

end Tokens

end Devicetree
