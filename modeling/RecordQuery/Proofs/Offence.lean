import RecordQuery.Proofs.Language
import RecordQuery.Proofs.Stopping

namespace RecordQuery

/-- Closing parentheses for all groups that are open. -/
def Levels.closing (levels : Levels) : List TokenKind :=
  List.replicate levels.depth (.punctuation .closeGroup)

namespace Place

/-- Tokens that bring a place to an end of the statement. They open no group. -/
def completion : Place → List TokenKind
  | .operand levels => .identifier "a" :: .relation .eq :: .boolean true :: levels.closing
  | .operator levels _ => .relation .eq :: .boolean true :: levels.closing
  | .related levels _ _ => .boolean true :: levels.closing
  | .pattern levels _ => .text ⟨.double, ""⟩ :: levels.closing
  | .element levels _ => .text ⟨.double, ""⟩ :: levels.closing
  | .listStart levels _ =>
    .punctuation .openList :: .boolean true :: .punctuation .closeList :: levels.closing
  | .listItem levels _ _ => .boolean true :: .punctuation .closeList :: levels.closing
  | .listNext levels _ _ => .punctuation .closeList :: levels.closing
  | .operandEnd levels => levels.closing
  | .sortedBy _ => [.keyword .sortedBy, .identifier "a"]
  | .sortField _ _ => [.identifier "a"]
  | .limit _ => [.integer ⟨false, "0"⟩]
  | .offset _ => [.text ⟨.double, ""⟩]
  | .start | .sortDirection .. | .sortKeyEnd .. | .limitEnd _ | .offsetEnd _ => []

def CanEnd (place : Place) : Prop :=
  ∃ read, place.statement? = some read

variable {limit : Nat} {place : Place}

theorem wellFormed_completion (place : Place) : ∀ kind ∈ place.completion, kind.WellFormed := by
  have closing (levels : Levels) : ∀ kind ∈ levels.closing, kind.WellFormed := by
    intro kind member
    rw [List.eq_of_mem_replicate member]
    trivial
  have name : (TokenKind.identifier "a").WellFormed :=
    ⟨⟨'a', [], rfl, by decide, fun _ => List.not_mem_nil.elim⟩, by decide⟩
  have text : (TokenKind.text ⟨.double, ""⟩).WellFormed := List.not_mem_nil
  have zero : (TokenKind.integer ⟨false, "0"⟩).WellFormed :=
    ⟨List.cons_ne_nil _ _, List.forall_mem_singleton.mpr rfl⟩
  cases place <;> simp only [completion, List.forall_mem_cons]
  case operand levels => exact ⟨name, trivial, trivial, closing levels⟩
  case operator levels _ => exact ⟨trivial, trivial, closing levels⟩
  case related levels _ _ => exact ⟨trivial, closing levels⟩
  case pattern levels _ | element levels _ => exact ⟨text, closing levels⟩
  case listStart levels _ => exact ⟨trivial, trivial, trivial, closing levels⟩
  case listItem levels _ _ => exact ⟨trivial, trivial, closing levels⟩
  case listNext levels _ _ => exact ⟨trivial, closing levels⟩
  case operandEnd levels => exact closing levels
  case sortedBy => exact ⟨trivial, name, nofun⟩
  case sortField => exact ⟨name, nofun⟩
  case limit => exact ⟨zero, nofun⟩
  case offset => exact ⟨text, nofun⟩
  all_goals exact nofun

theorem reads_closing (levels : Levels) :
    Reads limit (.operandEnd levels) levels.closing CanEnd := by
  obtain ⟨inner, outer⟩ := levels
  induction outer generalizing inner with
  | nil => exact .nil ⟨_, rfl⟩
  | cons level outer ih => exact .cons fun _ => ⟨_, rfl, ih _⟩

theorem reads_completion (place : Place) : Reads limit place place.completion CanEnd := by
  have related (levels : Levels) (name : String) (relation : Relation) :
      Reads limit (.related levels name relation) (.boolean true :: levels.closing) CanEnd :=
    .cons fun _ => ⟨_, rfl, reads_closing _⟩
  have operator (levels : Levels) (name : String) :
      Reads limit (.operator levels name) (.relation .eq :: .boolean true :: levels.closing) CanEnd :=
    .cons fun _ => ⟨_, rfl, related levels name .eq⟩
  have listNext (levels : Levels) (name : String) (items : List Literal) :
      Reads limit (.listNext levels name items) (.punctuation .closeList :: levels.closing) CanEnd :=
    .cons fun _ => ⟨_, rfl, reads_closing _⟩
  have listItem (levels : Levels) (name : String) (items : List Literal) :
      Reads limit (.listItem levels name items)
        (.boolean true :: .punctuation .closeList :: levels.closing) CanEnd :=
    .cons fun _ => ⟨_, rfl, listNext levels name _⟩
  have sortField (read : Statement) (keys : List SortKey) :
      Reads limit (.sortField read keys) [.identifier "a"] CanEnd :=
    .cons fun _ => ⟨_, rfl, .nil ⟨_, rfl⟩⟩
  cases place with
  | operand levels => exact .cons fun _ => ⟨_, rfl, operator levels "a"⟩
  | operator levels name => exact operator levels name
  | related levels name relation => exact related levels name relation
  | pattern levels name | element levels name => exact .cons fun _ => ⟨_, rfl, reads_closing _⟩
  | listStart levels name => exact .cons fun _ => ⟨_, rfl, listItem levels name []⟩
  | listItem levels name items => exact listItem levels name items
  | listNext levels name items => exact listNext levels name items
  | operandEnd levels => exact reads_closing levels
  | sortedBy read => exact .cons fun _ => ⟨_, rfl, sortField read []⟩
  | sortField read keys => exact sortField read keys
  | limit read | offset read => exact .cons fun _ => ⟨_, rfl, .nil ⟨_, rfl⟩⟩
  | start | sortDirection | sortKeyEnd | limitEnd | offsetEnd => exact .nil ⟨_, rfl⟩

/-- A run that fails has read the tokens up to one that cannot stand where it does. -/
theorem exists_of_run_error {tokens : List Token} {column : Nat} {fault : SyntaxError}
    (failed : run limit place tokens = .error (column, fault)) :
    ∃ front token back reached, tokens = front ++ token :: back ∧ column = token.column ∧
      run limit place front = .ok reached ∧ reached.next? limit token = none := by
  induction tokens generalizing place with
  | nil => cases failed
  | cons token rest ih =>
    rw [run] at failed
    split at failed
    · rename_i following next
      obtain ⟨front, bad, back, reached, rfl, atColumn, ran, refused⟩ := ih failed
      refine ⟨token :: front, bad, back, reached, rfl, atColumn, ?_, refused⟩
      rw [run, next]
      exact ran
    · rename_i refused
      cases failed
      exact ⟨[], token, rest, place, rfl, rfl, rfl, refused⟩

end Place

/-- Whether some tokens and more behind them are derived within the limit. -/
def Completable (limit : Nat) (kinds : List TokenKind) : Prop :=
  ∃ more, (∀ kind ∈ more, kind.WellFormed) ∧ Derivable limit (kinds ++ more)

/-- Whether a column is that of the first token that no tokens behind it can make up for. The end of
the text counts as the last token. -/
def Misplaced (limit : Nat) (tokens : List Token) (lastColumn column : Nat) : Prop :=
  ∃ front, Completable limit (front.map Token.kind) ∧
    ((∃ token back, tokens = front ++ token :: back ∧ column = token.column ∧
        ∀ more, ¬Derivable limit (front.map Token.kind ++ token.kind :: more)) ∨
      (tokens = front ∧ column = lastColumn ∧ ¬Derivable limit (front.map Token.kind)))

/-- Whether a column is that of the first literal without a value: an integer that no word holds, or
a pattern directly behind LIKE that cannot be read. -/
def Valueless (tokens : List Token) (column : Nat) : Prop :=
  ∃ front token back, tokens = front ++ token :: back ∧ column = token.column ∧
    ¬token.kind.HasValue (Token.behindLike false front) ∧
    ∀ earlier other between, front = earlier ++ other :: between →
      other.kind.HasValue (Token.behindLike false earlier)

/-- Tokens of some kinds that stand nowhere. -/
def Token.ofKinds (kinds : List TokenKind) : List Token :=
  kinds.map fun kind => ⟨kind, 0⟩

theorem Token.map_kind_ofKinds (kinds : List TokenKind) : (ofKinds kinds).map kind = kinds := by
  simp [ofKinds, Function.comp_def]

section Misplacement

variable {limit : Nat} {place : Place} {front tokens : List Token}

theorem completable_of_run (ran : Place.run limit .start front = .ok place) :
    Completable limit (front.map Token.kind) := by
  have same := Token.map_kind_ofKinds place.completion
  refine ⟨place.completion, place.wellFormed_completion, ?_⟩
  obtain ⟨final, finished, read, atEnd⟩ := place.reads_completion _ same
  rw [← same, ← List.map_append, derivable_iff_run]
  refine ⟨final, read, ?_, atEnd⟩
  rw [Place.run_append, ran]
  exact finished

theorem not_derivable_of_next {token : Token} (ran : Place.run limit .start front = .ok place)
    (refused : place.next? limit token = none) (more : List TokenKind) :
    ¬Derivable limit (front.map Token.kind ++ token.kind :: more) := by
  rw [← Token.map_kind_ofKinds more, ← List.map_cons, ← List.map_append, derivable_iff_run,
    Place.run_append, ran]
  rintro ⟨final, read, others, _⟩
  have stuck : Place.run limit place (token :: Token.ofKinds more) = .ok final := others
  rw [Place.run, refused] at stuck
  cases stuck

/-- The column of a syntax error is that of the first misplaced token. -/
theorem misplaced_of_ofTokens {lastColumn column : Nat} {fault : SyntaxError}
    (failed : Statement.ofTokens limit tokens lastColumn = .error (column, fault)) :
    ¬Derivable limit (tokens.map Token.kind) ∧ Misplaced limit tokens lastColumn column := by
  rw [Statement.ofTokens] at failed
  cases ran : Place.run limit .start tokens with
  | error found =>
    rw [ran] at failed
    cases failed
    obtain ⟨front, token, back, reached, rfl, rfl, before, refused⟩ := Place.exists_of_run_error ran
    have never := not_derivable_of_next before refused
    refine ⟨?_, front, completable_of_run before, Or.inl ⟨token, back, rfl, rfl, never⟩⟩
    rw [List.map_append]
    exact never (back.map Token.kind)
  | ok place =>
    have underivable (unfinished : place.statement? = none) : ¬Derivable limit (tokens.map Token.kind) := by
      rw [derivable_iff_run, ran]
      rintro ⟨_, read, same, atEnd⟩
      cases same
      rw [unfinished] at atEnd
      cases atEnd
    rw [ran] at failed
    cases atEnd : place.statement? with
    | some read =>
      simp only [bind, Except.bind, atEnd] at failed
      cases failed
    | none =>
      simp only [bind, Except.bind, atEnd] at failed
      cases failed
      exact ⟨underivable atEnd, tokens, completable_of_run ran, Or.inr ⟨rfl, rfl, underivable atEnd⟩⟩

/-- The column of a problem with a value is that of the first literal without one. -/
theorem valueless_of_ofStatement {lastColumn : Nat} {read : Statement} {problem : Problem}
    (made : Statement.ofTokens limit tokens lastColumn = .ok read)
    (failed : Query.ofStatement read = .error problem) :
    Derivable limit (tokens.map Token.kind) ∧ Valueless tokens problem.column := by
  obtain ⟨place, ran, atEnd⟩ := Query.ofTokens_eq_ok_iff.mp made
  refine ⟨derivable_iff_run.mpr ⟨place, read, ran, atEnd⟩, ?_⟩
  have start : Place.start.Owes [] := rfl
  have owed : read.problems = Token.problems false tokens := (start.run ran).statement atEnd
  have first := Query.problem?_ofStatement read
  rw [failed, owed] at first
  exact Token.exists_of_head?_problems first.symm

end Misplacement

namespace Query

/-- The error of a text that is not accepted carries the text, and its message begins with the column
of the first offence: the place where reading tokens stops, or else the first token that makes it
impossible to go on to a query, or else the first literal without a value. -/
theorem parse_error_at_first_offence (settings : Settings) (text : String) (error : Error)
    (run : parse settings text = .error error) :
    ∃ problem detail, error = .refused text problem ∧ error.isSyntax = true ∧
      error.message = "Syntax error in query '" ++ text ++ "': " ++ problem.message ∧
      problem.message = "column " ++ integerText problem.column ++ ": " ++ detail ∧
      ((∀ tokens, Token.scan text.toList ≠ .ok tokens) →
        Token.StopsAt text.toList problem.column) ∧
      ∀ tokens, Token.scan text.toList = .ok tokens →
        (¬Derivable settings.maxDepth (tokens.map Token.kind) →
          Misplaced settings.maxDepth tokens (text.length + 1) problem.column) ∧
        (Derivable settings.maxDepth (tokens.map Token.kind) → Valueless tokens problem.column) := by
  obtain ⟨problem, atText, rfl⟩ : ∃ problem, read settings.maxDepth text = .error problem ∧
      error = .refused text problem := by
    rw [parse] at run
    cases atText : read settings.maxDepth text with
    | ok query => rw [atText] at run; cases run
    | error problem =>
      rw [atText] at run
      cases run
      exact ⟨problem, rfl, rfl⟩
  refine ⟨problem, problem.flaw.message, rfl, rfl, rfl, rfl, ?_⟩
  rw [read, Statement.read] at atText
  cases scanned : Token.scan text.toList with
  | error fault =>
    obtain ⟨column, fault⟩ := fault
    rw [scanned] at atText
    cases atText
    refine ⟨fun _ => Token.stopsAt_of_scan scanned, fun tokens same => ?_⟩
    cases same
  | ok tokens =>
    refine ⟨fun none => absurd rfl (none tokens), fun others same => ?_⟩
    cases same
    rw [scanned] at atText
    cases made : Statement.ofTokens settings.maxDepth tokens (endColumn text) with
    | error fault =>
      obtain ⟨column, fault⟩ := fault
      simp only [made] at atText
      cases atText
      obtain ⟨underivable, misplaced⟩ := misplaced_of_ofTokens made
      exact ⟨fun _ => misplaced, fun derivable => absurd derivable underivable⟩
    | ok read =>
      simp only [made] at atText
      obtain ⟨derivable, valueless⟩ := valueless_of_ofStatement made atText
      exact ⟨fun underivable => absurd derivable underivable, fun _ => valueless⟩

/-- A character of no token, a group too many and a pattern that cannot be read, each at its column. -/
theorem parse_error_at_first_offence_each :
    (∃ flaw, parse ⟨0, []⟩ "a = !" = .error (.refused "a = !" ⟨5, flaw⟩) ∧
      Token.StopsAt "a = !".toList 5) ∧
    (∃ flaw tokens,
      parse ⟨0, []⟩ "a = 1 AND (b = 2)" = .error (.refused "a = 1 AND (b = 2)" ⟨11, flaw⟩) ∧
        Token.scan "a = 1 AND (b = 2)".toList = .ok tokens ∧ Misplaced 0 tokens 18 11) ∧
    ∃ flaw tokens,
      parse ⟨0, []⟩ "b = 1 OR a LIKE '*'" = .error (.refused "b = 1 OR a LIKE '*'" ⟨17, flaw⟩) ∧
        Token.scan "b = 1 OR a LIKE '*'".toList = .ok tokens ∧ Valueless tokens 17 := by
  refine ⟨⟨.lexical (.unexpectedCharacter '!'), ?_⟩, ⟨.syntactic (.nestedTooDeep 0), ?_⟩,
    ⟨.pattern "*" ⟨.nothingToRepeat, 0, 0⟩, ?_⟩⟩
  · have run : parse ⟨0, []⟩ "a = !" =
        .error (.refused "a = !" ⟨5, .lexical (.unexpectedCharacter '!')⟩) := by cbv
    have none : Token.scan "a = !".toList = .error (5, .unexpectedCharacter '!') := by cbv
    obtain ⟨problem, _, same, _, _, _, stops, _⟩ := parse_error_at_first_offence _ _ _ run
    cases same
    refine ⟨run, stops fun tokens scanned => ?_⟩
    cases none.symm.trans scanned
  · have run : parse ⟨0, []⟩ "a = 1 AND (b = 2)" =
        .error (.refused "a = 1 AND (b = 2)" ⟨11, .syntactic (.nestedTooDeep 0)⟩) := by cbv
    obtain ⟨tokens, scanned, refused⟩ :
        ∃ tokens, Token.scan "a = 1 AND (b = 2)".toList = .ok tokens ∧
          Place.run 0 .start tokens = .error (11, .nestedTooDeep 0) := ⟨_, by cbv, rfl⟩
    obtain ⟨problem, _, same, _, _, _, _, misplaced⟩ := parse_error_at_first_offence _ _ _ run
    cases same
    refine ⟨tokens, run, scanned, (misplaced tokens scanned).1 fun derivable => ?_⟩
    obtain ⟨place, read, ran, _⟩ := derivable_iff_run.mp derivable
    cases refused.symm.trans ran
  · have run : parse ⟨0, []⟩ "b = 1 OR a LIKE '*'" = .error (.refused "b = 1 OR a LIKE '*'"
        ⟨17, .pattern "*" ⟨.nothingToRepeat, 0, 0⟩⟩) := by cbv
    obtain ⟨tokens, scanned, place, read, ran, atEnd⟩ :
        ∃ tokens, Token.scan "b = 1 OR a LIKE '*'".toList = .ok tokens ∧
          ∃ place read, Place.run 0 .start tokens = .ok place ∧ place.statement? = some read :=
      ⟨_, by cbv, _, _, rfl, rfl⟩
    obtain ⟨problem, _, same, _, _, _, _, valueless⟩ := parse_error_at_first_offence _ _ _ run
    cases same
    exact ⟨tokens, run, scanned,
      (valueless tokens scanned).2 (derivable_iff_run.mpr ⟨place, read, ran, atEnd⟩)⟩

end Query

end RecordQuery
