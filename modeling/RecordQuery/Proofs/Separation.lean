import RecordQuery.Proofs.Spelling

namespace RecordQuery.Token

/-- A text that any token before it stops at: it is empty, or it begins with a blank, a comma or
a closing bracket. -/
def Separated (rest : List Char) : Prop :=
  ∀ c ∈ rest.head?, Text.isBlank c = true ∨ c = ',' ∨ c = ']'

theorem continuesName_bounds {c : Char} (continues : continuesName c = true) :
    46 ≤ c.toNat ∧ c.toNat ≤ 122 ∧ c ≠ ']' := by
  refine ⟨?_, ?_, by rintro rfl; exact absurd continues (by decide)⟩
  all_goals
    simp only [continuesName, Char.isAlphanum, Bool.or_eq_true, beq_iff_eq] at continues
    rcases continues with ((alpha | digit) | rfl) | rfl
    · have starts : startsName c = true := by simp [startsName, alpha]
      have bounds := startsName_bounds starts
      omega
    · have bounds := isDigit_bounds digit
      omega
    · decide
    · decide

theorem Separated.stopsBefore {rest : List Char} (separated : Separated rest) (kind : TokenKind) :
    kind.StopsBefore rest := by
  intro c atHead
  cases continued : kind.continuedBy c with
  | false => rfl
  | true =>
    have visible : 46 ≤ c.toNat ∧ c.toNat ≤ 122 ∧ c ≠ ']' := by
      unfold TokenKind.continuedBy at continued
      split at continued
      · exact continuesName_bounds continued
      · exact continuesName_bounds continued
      · exact continuesName_bounds continued
      · exact continuesName_bounds (by simp [continuesName, Char.isAlphanum, continued])
      · obtain rfl := eq_of_beq continued
        decide
      · obtain rfl := eq_of_beq continued
        decide
      · cases continued
    obtain ⟨lower, upper, other⟩ := visible
    rcases separated c atHead with blank | rfl | rfl
    · rw [Text.not_isBlank_of_visible (by omega) (by omega)] at blank
      cases blank
    · exact absurd lower (by decide)
    · exact absurd rfl other

theorem Separated.append {front : List Char} (separated : Separated front) {rest : List Char}
    (others : Separated rest) : Separated (front ++ rest) := by
  cases front with
  | nil => exact others
  | cons c front => exact separated

/-- A text with the given tokens, if what follows it is separated from it. -/
def Spells (text : List Char) (kinds : List TokenKind) : Prop :=
  ∀ rest more, Separated rest → Scans rest more → Scans (text ++ rest) (kinds ++ more)

/-- A text with the given tokens, whatever follows it. -/
def Leads (text : List Char) (kinds : List TokenKind) : Prop :=
  ∀ rest more, Scans rest more → Scans (text ++ rest) (kinds ++ more)

variable {kind : TokenKind} {text other : List Char} {kinds others : List TokenKind}

theorem Spells.scans (spells : Spells text kinds) : Scans text kinds := by
  have alone := spells [] [] (fun c atHead => nomatch atHead) .done
  rwa [List.append_nil, List.append_nil] at alone

theorem Spells.token (wellFormed : kind.WellFormed) : Spells kind.spelling.toList [kind] :=
  fun _ _ separated scans => .token wellFormed (separated.stopsBefore kind) scans

theorem Spells.keyword (word : Keyword) : Spells word.spelling.toList [.keyword word] :=
  have wellFormed : (TokenKind.keyword word).WellFormed := trivial
  .token wellFormed

theorem Spells.relation (operator : Relation) :
    Spells operator.spelling.toList [.relation operator] :=
  have wellFormed : (TokenKind.relation operator).WellFormed := trivial
  .token wellFormed

/-- Brackets and commas end by themselves. -/
theorem Leads.punctuation (sign : Punctuation) :
    Leads sign.spelling.toList [.punctuation sign] := by
  intro rest more scans
  have wellFormed : (TokenKind.punctuation sign).WellFormed := trivial
  exact .token wellFormed (fun c _ => rfl) scans

theorem Leads.blank : Leads [' '] [] :=
  fun _ _ scans => .blank (by decide) scans

theorem Leads.spells (leads : Leads text kinds) : Spells text kinds :=
  fun rest more _ scans => leads rest more scans

theorem Leads.append (leads : Leads text kinds) (next : Leads other others) :
    Leads (text ++ other) (kinds ++ others) := by
  intro rest more scans
  rw [List.append_assoc, List.append_assoc]
  exact leads _ _ (next rest more scans)

theorem Leads.append_spells (leads : Leads text kinds) (next : Spells other others) :
    Spells (text ++ other) (kinds ++ others) := by
  intro rest more separated scans
  rw [List.append_assoc, List.append_assoc]
  exact leads _ _ (next rest more separated scans)

theorem Spells.append (spells : Spells text kinds) (separated : Separated other)
    (next : Spells other others) : Spells (text ++ other) (kinds ++ others) := by
  intro rest more after scans
  rw [List.append_assoc, List.append_assoc]
  exact spells _ _ (separated.append after) (next rest more after scans)

theorem Spells.append_leads (spells : Spells text kinds) {c : Char} {tail : List Char}
    (separated : Separated [c]) (next : Leads (c :: tail) others) :
    Leads (text ++ c :: tail) (kinds ++ others) := by
  intro rest more scans
  rw [List.append_assoc, List.append_assoc]
  exact spells _ _ separated (next rest more scans)

/-- Texts with a separator between them have the tokens of the texts and of the separators. -/
theorem Spells.intercalate {α : Type} {c : Char} {tail : List Char} {signs : List TokenKind}
    {text : α → List Char} {kinds : α → List TokenKind} (separated : Separated [c])
    (separator : Leads (c :: tail) signs) (parts : List α)
    (spells : ∀ part ∈ parts, Spells (text part) (kinds part)) :
    Spells ((c :: tail).intercalate (parts.map text)) (signs.intercalate (parts.map kinds)) := by
  induction parts with
  | nil => exact fun rest more _ scans => scans
  | cons part parts ih =>
    have first := spells part List.mem_cons_self
    have others := ih fun other member => spells other (List.mem_cons_of_mem part member)
    cases parts with
    | nil => simpa only [List.map_cons, List.map_nil, List.intercalate_singleton] using first
    | cons next parts =>
      simp only [List.map_cons, List.intercalate_cons_cons] at others ⊢
      exact (first.append_leads separated separator).append_spells others

end RecordQuery.Token
