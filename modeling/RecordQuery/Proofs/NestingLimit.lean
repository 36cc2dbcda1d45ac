import Mathlib
import RecordQuery.Proofs.Accepted
import RecordQuery.Proofs.Nesting
import RecordQuery.Proofs.Valuation

namespace RecordQuery

/-- Whether a problem is told as groups that nest deeper than a limit. -/
def Problem.IsNesting (limit : Nat) (problem : Problem) : Prop :=
  problem.flaw.message = "nesting deeper than " ++ integerText limit ++ " levels"

theorem integerText_natCast_inj {value other : Nat} (same : integerText value = integerText other) :
    value = other := by
  have natText (number : Nat) : integerText number = String.ofList (Nat.toDigits 10 number) := by
    rw [integerText, integerDigits, if_neg (Int.not_lt.mpr (Int.natCast_nonneg number)),
      Int.natAbs_natCast]
  rw [natText, natText, String.ofList_inj] at same
  rw [← Nat.ofDigitChars_ten_toDigits (n := value), same, Nat.ofDigitChars_ten_toDigits]

theorem head?_append {front : String} {c : Char} (begins : front.toList.head? = some c)
    (back : String) : (front ++ back).toList.head? = some c := by
  rw [String.toList_append, List.head?_append, begins, Option.some_or]

/-- Whether a text begins with a character other than the first one of the nesting error. -/
def BeginsOtherwise (text : String) : Prop :=
  ∃ c, text.toList.head? = some c ∧ c ≠ 'n'

theorem BeginsOtherwise.append {front : String} (begins : BeginsOtherwise front) (back : String) :
    BeginsOtherwise (front ++ back) := by
  obtain ⟨c, atFront, other⟩ := begins
  exact ⟨c, head?_append atFront back, other⟩

theorem Flaw.beginsOtherwise {flaw : Flaw} (other : ∀ limit, flaw ≠ .syntactic (.nestedTooDeep limit)) :
    BeginsOtherwise flaw.message := by
  cases flaw with
  | lexical error =>
    cases error with
    | unterminatedText => exact ⟨'u', rfl, by decide⟩
    | noDigitsAfterMinus => exact ⟨'e', rfl, by decide⟩
    | unexpectedCharacter c =>
      have begins : BeginsOtherwise "unexpected character '" := ⟨'u', rfl, by decide⟩
      exact (begins.append _).append _
  | syntactic error =>
    have expected : BeginsOtherwise "expected " := ⟨'e', rfl, by decide⟩
    cases error with
    | bareValue literal =>
      have begins : BeginsOtherwise "a bare value " := ⟨'a', rfl, by decide⟩
      exact (begins.append _).append _
    | nestedTooDeep limit => exact absurd rfl (other limit)
    | noOperator name found =>
      have begins : BeginsOtherwise "expected an operator after identifier '" := ⟨'e', rfl, by decide⟩
      exact ((begins.append _).append _).append _
    | unexpected wanted found => exact ((expected.append _).append _).append _
  | integerRange numeral =>
    have begins : BeginsOtherwise "invalid integer '" := ⟨'i', rfl, by decide⟩
    exact (((begins.append _).append _).append _).append _
  | pattern text fault =>
    have begins : BeginsOtherwise "invalid LIKE pattern: " := ⟨'i', rfl, by decide⟩
    exact begins.append _

/-- No other error has the message of the nesting error, or its number. -/
theorem Problem.isNesting_iff {limit : Nat} {problem : Problem} :
    problem.IsNesting limit ↔ problem.flaw = .syntactic (.nestedTooDeep limit) := by
  constructor
  · intro told
    by_cases nesting : ∃ bound, problem.flaw = .syntactic (.nestedTooDeep bound)
    · obtain ⟨bound, atFlaw⟩ := nesting
      rw [IsNesting, atFlaw] at told
      have letters : ("nesting deeper than " ++ integerText bound ++ " levels").toList =
          ("nesting deeper than " ++ integerText limit ++ " levels").toList :=
        congrArg String.toList told
      simp only [String.toList_append, List.append_cancel_right_eq, List.append_cancel_left_eq,
        String.toList_inj] at letters
      rw [atFlaw, integerText_natCast_inj letters]
    · obtain ⟨c, atHead, other⟩ := Flaw.beginsOtherwise fun bound same => nesting ⟨bound, same⟩
      have begins : "nesting deeper than ".toList.head? = some 'n' := rfl
      rw [told, head?_append (head?_append begins _)] at atHead
      exact absurd (Option.some.inj atHead).symm other
  · intro same
    rw [IsNesting, same]
    rfl

theorem TokenKind.flaw_of_mem_problems {kind : TokenKind} {afterLike : Bool} {column : Nat} {problem : Problem}
    (member : problem ∈ kind.problems afterLike column) (error : SyntaxError) :
    problem.flaw ≠ .syntactic error := by
  cases kind with
  | integer numeral =>
    rw [problems, Option.mem_toList, Numeral.toWord] at member
    split at member
    · cases member
    · cases member
      intro same
      cases same
  | text literal =>
    cases afterLike with
    | false => cases member
    | true =>
      rw [problems, if_pos rfl, ConditionTest.problems, Option.mem_toList, ConditionTest.toTest] at member
      split at member
      · cases member
      · cases member
        intro same
        cases same
  | _ => cases member

theorem Token.flaw_of_mem_problems {tokens : List Token} {afterLike : Bool} {problem : Problem}
    (member : problem ∈ problems afterLike tokens) (error : SyntaxError) :
    problem.flaw ≠ .syntactic error := by
  induction tokens generalizing afterLike with
  | nil => cases member
  | cons token rest ih =>
    rcases List.mem_append.mp member with own | later
    · exact TokenKind.flaw_of_mem_problems own error
    · exact ih later

namespace Query

variable {limit shallow deep : Nat} {tokens : List Token} {text : String}

theorem exists_problem_of_parse {settings : Settings} {error : Error}
    (run : parse settings text = .error error) :
    ∃ problem, read settings.maxDepth text = .error problem ∧ error = .refused text problem := by
  rw [parse] at run
  cases refused : read settings.maxDepth text with
  | ok query =>
    rw [refused] at run
    cases run
  | error problem =>
    rw [refused] at run
    cases run
    exact ⟨problem, rfl, rfl⟩

theorem read_eq_of_run_eq (scanned : Token.scan text.toList = .ok tokens)
    (same : Place.run deep .start tokens = Place.run shallow .start tokens) :
    read deep text = read shallow text := by
  have ending (place : Place) : place.refuse deep none = place.refuse shallow none := by
    obtain ⟨fault, _, said⟩ := place.refuse_of_ne none nofun
    rw [said, said]
  have whole : Statement.ofTokens deep tokens (endColumn text) =
      Statement.ofTokens shallow tokens (endColumn text) := by
    simp only [Statement.ofTokens, same, ending]
  simp only [read, Statement.read, scanned, whole]

theorem read_of_run_error {column : Nat} {fault : SyntaxError}
    (scanned : Token.scan text.toList = .ok tokens)
    (failed : Place.run limit .start tokens = .error (column, fault)) :
    read limit text = .error ⟨column, .syntactic fault⟩ := by
  simp only [read, Statement.read, scanned, Statement.ofTokens, failed, bind, Except.bind]

/-- A text reads alike under a greater limit unless groups nest too deep for the lesser one. -/
theorem read_eq_of_not_nesting (more : shallow ≤ deep)
    (other : ∀ column, read shallow text ≠ .error ⟨column, .syntactic (.nestedTooDeep shallow)⟩) :
    read deep text = read shallow text := by
  cases scanned : Token.scan text.toList with
  | error fault => simp only [read, Statement.read, scanned]
  | ok tokens =>
    refine read_eq_of_run_eq scanned (Place.run_eq_of_not_nesting more fun column failed => ?_)
    exact other column (read_of_run_error scanned failed)

/-- Only reading tokens finds that groups nest too deep. -/
theorem run_of_read_nesting {column bound : Nat}
    (failed : read limit text = .error ⟨column, .syntactic (.nestedTooDeep bound)⟩) :
    ∃ tokens, Token.scan text.toList = .ok tokens ∧
      Place.run limit .start tokens = .error (column, .nestedTooDeep bound) := by
  rw [read, Statement.read] at failed
  cases scanned : Token.scan text.toList with
  | error fault =>
    rw [scanned] at failed
    cases failed
  | ok tokens =>
    rw [scanned] at failed
    refine ⟨tokens, rfl, ?_⟩
    cases made : Statement.ofTokens limit tokens (endColumn text) with
    | error fault =>
      obtain ⟨place, fault⟩ := fault
      simp only [made] at failed
      cases failed
      rw [Statement.ofTokens] at made
      cases ran : Place.run limit .start tokens with
      | error found =>
        rw [ran] at made
        cases made
        rfl
      | ok reached =>
        obtain ⟨fault, plain, said⟩ := reached.refuse_of_ne none (Option.some_ne_none _).symm
        rw [ran] at made
        simp only [bind, Except.bind, said] at made
        split at made
        · cases made
        · cases made
          cases plain
    | ok statement =>
      simp only [made] at failed
      have failed : ofStatement statement = .error ⟨column, .syntactic (.nestedTooDeep bound)⟩ := failed
      obtain ⟨place, ran, atEnd⟩ := ofTokens_eq_ok_iff.mp made
      have start : Place.start.Owes [] := rfl
      have owed : statement.problems = Token.problems false tokens := (start.run ran).statement atEnd
      have first := problem?_ofStatement statement
      rw [failed, owed] at first
      exact absurd rfl (Token.flaw_of_mem_problems (List.mem_of_head? first.symm) (.nestedTooDeep bound))

/-- The limit on nesting bounds nesting and has no other effect. What a text is read as under one
limit, or refused for, it is under every greater one, unless groups nest too deep. They do so at the
first group that opens inside as many others as the limit allows, and then for every lesser limit
too. A text that is accepted is accepted exactly under the limits that its nesting stays within, as
the same query. -/
theorem limit_bounds_nesting_only (text : String) (settings : Settings) :
    (∀ query, parse settings text = .ok query →
      (∀ deeper : Settings, settings.maxDepth ≤ deeper.maxDepth → parse deeper text = .ok query) ∧
      ∃ tokens, Token.scan text.toList = .ok tokens ∧
        ((∀ token ∈ tokens, token.kind ≠ .punctuation .openGroup) → Token.nesting 0 tokens = 0) ∧
        ∀ other : Settings,
          (Token.nesting 0 tokens ≤ other.maxDepth → parse other text = .ok query) ∧
          ((∃ accepted, parse other text = .ok accepted) ↔ Token.nesting 0 tokens ≤ other.maxDepth)) ∧
    ∀ error, parse settings text = .error error → ∃ problem, error = .refused text problem ∧
      (¬problem.IsNesting settings.maxDepth → ∀ deeper : Settings,
        settings.maxDepth ≤ deeper.maxDepth → parse deeper text = .error error) ∧
      (problem.IsNesting settings.maxDepth →
        (∃ tokens, Token.scan text.toList = .ok tokens ∧
          Token.OpensInside 0 settings.maxDepth tokens problem.column) ∧
        ∀ shallower : Settings, shallower.maxDepth < settings.maxDepth → ∃ earlier : Problem,
          parse shallower text = .error (.refused text earlier) ∧
            earlier.IsNesting shallower.maxDepth) := by
  have start (limit : Nat) : Place.start.depth ≤ limit := Nat.zero_le limit
  refine ⟨fun query run => ?_, fun error run => ?_⟩
  · obtain ⟨tokens, place, read, scanned, ran, atEnd, built⟩ :=
      read_eq_ok_iff.mp (parse_eq_ok_iff.mp run)
    have reaches (limit : Nat) := Place.run_of_nesting ran (start limit)
    have accepts (other : Settings) (enough : Token.nesting 0 tokens ≤ other.maxDepth) :
        parse other text = .ok query := by
      refine parse_eq_ok_iff.mpr (read_eq_ok_iff.mpr ⟨tokens, place, read, scanned, ?_, atEnd, built⟩)
      exact (reaches other.maxDepth).1 enough
    have only (other : Settings) (accepted : Query) (again : parse other text = .ok accepted) :
        Token.nesting 0 tokens ≤ other.maxDepth := by
      refine Nat.le_of_not_lt fun beyond => ?_
      obtain ⟨column, failed⟩ := (reaches other.maxDepth).2 beyond
      have refused := read_of_run_error scanned failed
      rw [parse_eq_ok_iff.mp again] at refused
      cases refused
    refine ⟨fun deeper more => accepts deeper (Nat.le_trans (only settings query run) more), tokens,
      scanned, fun none => Token.nesting_eq_of_no_openGroup none 0, fun other => ⟨accepts other, ?_⟩⟩
    exact ⟨fun ⟨accepted, again⟩ => only other accepted again, fun enough => ⟨query, accepts other enough⟩⟩
  · obtain ⟨problem, refused, rfl⟩ := exists_problem_of_parse run
    refine ⟨problem, rfl, fun other deeper more => ?_, fun nesting => ?_⟩
    · have same : read deeper.maxDepth text = read settings.maxDepth text := by
        refine read_eq_of_not_nesting more fun column failed => other ?_
        cases refused.symm.trans failed
        exact Problem.isNesting_iff.mpr rfl
      rw [parse, same, refused]
      rfl
    · obtain ⟨column, flaw⟩ := problem
      obtain rfl := Problem.isNesting_iff.mp nesting
      obtain ⟨tokens, scanned, failed⟩ := run_of_read_nesting refused
      obtain ⟨_, opens⟩ := Place.opensInside_of_run failed rfl (start _)
      refine ⟨⟨tokens, scanned, opens⟩, fun shallower less => ?_⟩
      obtain ⟨earlier, again⟩ := Place.run_error_of_shallower failed (start _) less
      refine ⟨⟨earlier, .syntactic (.nestedTooDeep shallower.maxDepth)⟩, ?_, Problem.isNesting_iff.mpr rfl⟩
      rw [parse, read_of_run_error scanned again]
      rfl

/-- Groups in a string do not count. Two groups are too many for a limit of one, which a limit of
zero does not even reach, and a limit of nine gives the same query as one of two. -/
theorem limit_bounds_nesting_only_grouped :
    let text := "(a = '((') AND ((b = 1) OR c = 2)"
    (∃ tokens, Token.scan text.toList = .ok tokens ∧ Token.OpensInside 0 1 tokens 17) ∧
    (∃ earlier : Problem, parse ⟨0, []⟩ text = .error (.refused text earlier) ∧ earlier.IsNesting 0) ∧
    (∃ query, parse ⟨2, []⟩ text = .ok query ∧ parse ⟨9, []⟩ text = .ok query) ∧
    parse ⟨9, []⟩ "(a = 1" = parse ⟨1, []⟩ "(a = 1" := by
  intro text
  let nested : Problem := ⟨17, .syntactic (.nestedTooDeep 1)⟩
  let unclosed : Problem := ⟨7, .syntactic (.unexpected (.punctuation .closeGroup) none)⟩
  have refused : parse ⟨1, []⟩ text = .error (.refused text nested) := by
    unfold text nested
    cbv
  have broken : parse ⟨1, []⟩ "(a = 1" = .error (.refused "(a = 1" unclosed) := by
    unfold unclosed
    cbv
  obtain ⟨query, run⟩ : ∃ query, parse ⟨2, []⟩ text = .ok query := ⟨_, by unfold text; cbv⟩
  obtain ⟨_, same, _, nesting⟩ := (limit_bounds_nesting_only text ⟨1, []⟩).2 _ refused
  cases same
  obtain ⟨opens, shallower⟩ := nesting rfl
  obtain ⟨_, same, other, _⟩ := (limit_bounds_nesting_only "(a = 1" ⟨1, []⟩).2 _ broken
  cases same
  have onward := other (fun told => by cases Problem.isNesting_iff.mp told) ⟨9, []⟩ (by decide)
  refine ⟨opens, shallower ⟨0, []⟩ (by decide), ⟨query, run, ?_⟩, onward.trans broken.symm⟩
  exact ((limit_bounds_nesting_only text ⟨2, []⟩).1 query run).1 ⟨9, []⟩ (by decide)

end Query

end RecordQuery
