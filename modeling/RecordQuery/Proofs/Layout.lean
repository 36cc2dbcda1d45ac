import Mathlib
import RecordQuery.Proofs.Separation
import RecordQuery.Proofs.Unplaced

namespace RecordQuery

/-- A token with the characters in front of it that belong to no token. -/
structure Spacing where
  gap : List Char
  kind : TokenKind

/-- The tokens of a text with what stands in front of each, and what stands behind the last. -/
structure Layout where
  parts : List Spacing
  ending : List Char

namespace Layout

def textOf (parts : List Spacing) : List Char :=
  parts.flatMap fun part => part.gap ++ part.kind.spelling.toList

/-- The tokens of parts that stand behind a text. The column of a token is one more than the
number of characters before it. -/
def tokensAfter (before : List Char) : List Spacing → List Token
  | [] => []
  | part :: rest =>
    ⟨part.kind, (before ++ part.gap).length + 1⟩ ::
      tokensAfter (before ++ part.gap ++ part.kind.spelling.toList) rest

def text (layout : Layout) : List Char :=
  textOf layout.parts ++ layout.ending

def kinds (layout : Layout) : List TokenKind :=
  layout.parts.map Spacing.kind

def tokens (layout : Layout) : List Token :=
  tokensAfter [] layout.parts

/-- Whether nothing but blanks stands between tokens each of which can be read back by itself. -/
structure Proper (layout : Layout) : Prop where
  gaps : ∀ part ∈ layout.parts, ∀ c ∈ part.gap, Text.isBlank c = true
  ending : ∀ c ∈ layout.ending, Text.isBlank c = true
  wellFormed : ∀ part ∈ layout.parts, part.kind.WellFormed

/-- Whether the tokens can be read back out of the text: no token goes on in what follows it. -/
structure Legible (layout : Layout) : Prop extends layout.Proper where
  stops : ∀ front part rest, layout.parts = front ++ part :: rest →
    part.kind.StopsBefore (textOf rest ++ layout.ending)

/-- Whether there is a blank between any two tokens. -/
structure Spaced (layout : Layout) : Prop extends layout.Proper where
  apart : ∀ part ∈ layout.parts.tail, part.gap ≠ []

variable {part : Spacing} {rest : List Spacing} {ending : List Char}

theorem textOf_cons (part : Spacing) (rest : List Spacing) :
    textOf (part :: rest) = part.gap ++ (part.kind.spelling.toList ++ textOf rest) := by
  rw [textOf, List.flatMap_cons, List.append_assoc]
  rfl

theorem map_kind_tokensAfter (before : List Char) (parts : List Spacing) :
    (tokensAfter before parts).map Token.kind = parts.map Spacing.kind := by
  induction parts generalizing before with
  | nil => rfl
  | cons part rest ih => rw [tokensAfter, List.map_cons, ih, List.map_cons]

theorem Legible.tail (legible : Legible ⟨part :: rest, ending⟩) : Legible ⟨rest, ending⟩ where
  gaps other member := legible.gaps other (List.mem_cons_of_mem part member)
  ending := legible.ending
  wellFormed other member := legible.wellFormed other (List.mem_cons_of_mem part member)
  stops front other behind same := legible.stops (part :: front) other behind (congrArg _ same)

/-! ### Reading a layout -/

/-- The tokens are read one after another, each behind the text of those before it. -/
theorem Legible.scanFrom_eq_ok {parts : List Spacing} (legible : Legible ⟨parts, ending⟩)
    (before : List Char) :
    Token.scanFrom (before.length + 1) (textOf parts ++ ending) =
      .ok (tokensAfter before parts) := by
  -- The column stays one ahead of the text that has been read, which grows by each part.
  induction parts generalizing before with
  | nil =>
    have blank := Token.scanFrom_gap legible.ending (before.length + 1) []
    rw [List.append_nil, Token.scanFrom_nil] at blank
    exact blank
  | cons part rest ih =>
    have gap := legible.gaps part List.mem_cons_self
    have wellFormed := legible.wellFormed part List.mem_cons_self
    have stops := legible.stops [] part rest rfl
    have behind := ih legible.tail (before ++ part.gap ++ part.kind.spelling.toList)
    have column : before.length + 1 + part.gap.length = (before ++ part.gap).length + 1 := by
      rw [List.length_append]
      omega
    have next : (before ++ part.gap).length + 1 + part.kind.width =
        (before ++ part.gap ++ part.kind.spelling.toList).length + 1 := by
      simp only [List.length_append, String.length_toList, TokenKind.width]
      omega
    rw [textOf_cons, List.append_assoc, List.append_assoc, Token.scanFrom_gap gap,
      Token.scanFrom_spelling wellFormed stops, column, next, behind]
    rfl

theorem Legible.scan_eq_ok {layout : Layout} (legible : layout.Legible) :
    Token.scan layout.text = .ok layout.tokens :=
  legible.scanFrom_eq_ok []

/-- A blank between two tokens ends the first one. -/
theorem Spaced.legible {layout : Layout} (spaced : layout.Spaced) : layout.Legible where
  toProper := spaced.toProper
  stops front part rest same := by
    refine Token.Separated.stopsBefore (fun c atHead => Or.inl ?_) part.kind
    cases rest with
    | nil => exact spaced.ending c (List.mem_of_head? atHead)
    | cons next rest =>
      have behind : next ∈ layout.parts.tail := by
        rw [same]
        cases front <;> simp
      obtain ⟨d, gap, letters⟩ := List.exists_cons_of_ne_nil (spaced.apart next behind)
      rw [textOf_cons, letters] at atHead
      obtain rfl := Option.some.inj atHead
      exact spaced.gaps next (List.mem_of_mem_tail behind) d (letters ▸ List.mem_cons_self)

/-! ### The layout of a text -/

/-- A layout behind one more character in front of its text. -/
def indented (c : Char) : Layout → Layout
  | ⟨[], ending⟩ => ⟨[], c :: ending⟩
  | ⟨part :: rest, ending⟩ => ⟨⟨c :: part.gap, part.kind⟩ :: rest, ending⟩

theorem text_indented (c : Char) (layout : Layout) :
    (layout.indented c).text = c :: layout.text := by
  obtain ⟨parts, ending⟩ := layout
  cases parts <;> rfl

theorem Legible.indented {c : Char} {layout : Layout} (blank : Text.isBlank c = true)
    (legible : layout.Legible) : (layout.indented c).Legible := by
  obtain ⟨parts, ending⟩ := layout
  cases parts with
  | nil =>
    have longer : ∀ d ∈ c :: ending, Text.isBlank d = true :=
      List.forall_mem_cons.mpr ⟨blank, legible.ending⟩
    refine ⟨⟨legible.gaps, longer, legible.wellFormed⟩, ?_⟩
    intro front part rest same
    exact absurd same.symm (List.append_ne_nil_of_right_ne_nil front (List.cons_ne_nil _ _))
  | cons part rest =>
    obtain ⟨gap, gaps⟩ := List.forall_mem_cons.mp legible.gaps
    obtain ⟨kind, kinds⟩ := List.forall_mem_cons.mp legible.wellFormed
    have longer : ∀ d ∈ c :: part.gap, Text.isBlank d = true :=
      List.forall_mem_cons.mpr ⟨blank, gap⟩
    refine ⟨⟨List.forall_mem_cons.mpr ⟨longer, gaps⟩, legible.ending,
      List.forall_mem_cons.mpr ⟨kind, kinds⟩⟩, ?_⟩
    intro front other behind same
    rcases List.cons_eq_append_iff.mp same with ⟨rfl, atHead⟩ | ⟨later, rfl, atRest⟩
    · cases atHead
      exact legible.stops [] part rest rfl
    · exact legible.stops (part :: later) other behind (congrArg _ atRest)

theorem legible_nil : Legible ⟨[], []⟩ where
  gaps _ member := nomatch member
  ending _ member := nomatch member
  wellFormed _ member := nomatch member
  stops front _ _ same :=
    absurd same.symm (List.append_ne_nil_of_right_ne_nil front (List.cons_ne_nil _ _))

theorem Legible.cons {kind : TokenKind} {layout : Layout} (wellFormed : kind.WellFormed)
    (stops : kind.StopsBefore layout.text) (legible : layout.Legible) :
    Legible ⟨⟨[], kind⟩ :: layout.parts, layout.ending⟩ where
  gaps := List.forall_mem_cons.mpr ⟨fun _ member => (nomatch member), legible.gaps⟩
  ending := legible.ending
  wellFormed := List.forall_mem_cons.mpr ⟨wellFormed, legible.wellFormed⟩
  stops front part behind same := by
    rcases List.cons_eq_append_iff.mp same with ⟨rfl, atHead⟩ | ⟨later, rfl, atRest⟩
    · cases atHead
      exact stops
    · exact legible.stops later part behind atRest

/-- A text that consists of tokens and blanks has a layout. -/
theorem exists_of_scans {written : List Char} {kinds : List TokenKind}
    (scans : Token.Scans written kinds) :
    ∃ layout : Layout, layout.Legible ∧ layout.text = written := by
  induction scans with
  | done => exact ⟨⟨[], []⟩, legible_nil, rfl⟩
  | @blank c rest kinds blank _ ih =>
    obtain ⟨layout, legible, rfl⟩ := ih
    exact ⟨layout.indented c, legible.indented blank, text_indented c layout⟩
  | @token kind rest kinds wellFormed stops _ ih =>
    obtain ⟨layout, legible, rfl⟩ := ih
    refine ⟨_, legible.cons wellFormed stops, ?_⟩
    rw [text, textOf_cons, List.nil_append, List.append_assoc]
    rfl

theorem exists_of_scan {text : List Char} {tokens : List Token}
    (scanned : Token.scan text = .ok tokens) :
    ∃ layout : Layout, layout.Legible ∧ layout.text = text ∧ layout.tokens = tokens := by
  obtain ⟨layout, legible, rfl⟩ := exists_of_scans (Token.scans_of_scanFrom scanned)
  exact ⟨layout, legible, rfl, Except.ok.inj (legible.scan_eq_ok.symm.trans scanned)⟩

theorem statement_read_of_scan {text : String} {tokens : List Token}
    (scanned : Token.scan text.toList = .ok tokens) (limit : Nat) :
    Statement.read limit text = (Statement.ofTokens limit tokens (text.length + 1)).mapError
      fun (column, error) => ⟨column, .syntactic error⟩ := by
  simp only [Statement.read, scanned, endColumn]
  cases Statement.ofTokens limit tokens (text.length + 1) <;> rfl

/-- Cutting a text into tokens loses nothing but blanks. A text with tokens consists of their
spellings and of blanks, and its end stands behind its last character. Tokens with blanks between
them are found again, and what stands between the tokens of a text has no part in how it is read. -/
theorem scan_lossless :
    (∀ (text : String) (tokens : List Token), Token.scan text.toList = .ok tokens →
      (∃ layout : Layout, layout.Legible ∧ layout.text = text.toList ∧ layout.tokens = tokens) ∧
        ∀ limit, Statement.read limit text =
          (Statement.ofTokens limit tokens (text.length + 1)).mapError
            fun (column, error) => ⟨column, .syntactic error⟩) ∧
    (∀ layout : Layout, layout.Spaced →
      Token.scan layout.text = .ok layout.tokens ∧ layout.tokens.map Token.kind = layout.kinds) ∧
    ∀ (text other : String) (tokens others : List Token), Token.scan text.toList = .ok tokens →
      Token.scan other.toList = .ok others → tokens.map Token.kind = others.map Token.kind →
        ∀ settings query, Query.parse settings text = .ok query ↔
          Query.parse settings other = .ok query := by
  refine ⟨?_, ?_, ?_⟩
  · intro text tokens scanned
    exact ⟨exists_of_scan scanned, statement_read_of_scan scanned⟩
  · intro layout spaced
    exact ⟨spaced.legible.scan_eq_ok, map_kind_tokensAfter [] layout.parts⟩
  · intro text other tokens others scanned again same settings query
    rw [Query.parse_eq_ok_iff, Query.parse_eq_ok_iff, Query.read_eq_ok_iff_ofTokens? scanned,
      Query.read_eq_ok_iff_ofTokens? again, Query.ofTokens?_eq_of_kinds same]

/-- Tokens that touch each other, and the same ones with blanks around each. -/
theorem scan_lossless_touching :
    let text := "a<=-1 AND(b='x  y')"
    let other := " a\t<= -1\n AND ( b = 'x  y' ) "
    (∃ layout : Layout, layout.Legible ∧ layout.text = text.toList ∧
      layout.tokens.map Token.column = [1, 2, 4, 7, 10, 11, 12, 13, 19]) ∧
    ∀ settings query, Query.parse settings text = .ok query ↔
      Query.parse settings other = .ok query := by
  intro text other
  obtain ⟨cut, _, same⟩ := scan_lossless
  let kinds : List TokenKind := [.identifier "a", .relation .le, .integer ⟨true, "1"⟩, .keyword .and,
    .punctuation .openGroup, .identifier "b", .relation .eq, .text ⟨.single, "x  y"⟩,
    .punctuation .closeGroup]
  obtain ⟨tokens, scanned, touching, columns⟩ :
      ∃ tokens, Token.scan text.toList = .ok tokens ∧ tokens.map Token.kind = kinds ∧
        tokens.map Token.column = [1, 2, 4, 7, 10, 11, 12, 13, 19] :=
    ⟨_, by unfold text; cbv, rfl, rfl⟩
  obtain ⟨others, again, apart⟩ :
      ∃ others, Token.scan other.toList = .ok others ∧ others.map Token.kind = kinds :=
    ⟨_, by unfold other; cbv, rfl⟩
  obtain ⟨⟨layout, legible, written, rfl⟩, _⟩ := cut text tokens scanned
  exact ⟨⟨layout, legible, written, columns⟩,
    same text other layout.tokens others scanned again (touching.trans apart.symm)⟩

end Layout

end RecordQuery
