import RecordQuery.Proofs.Canonical
import RecordQuery.Proofs.NormalForm

namespace RecordQuery

/-! ### Tokens of texts in a row -/

namespace Token

/-- Texts in a row have the tokens of each of them if no token of the first one can go on into the
second. -/
theorem Scans.append {text rest : List Char} {kinds more : List TokenKind}
    (scans : Scans text kinds) (stops : ∀ kind : TokenKind, kind.StopsBefore rest)
    (others : Scans rest more) : Scans (text ++ rest) (kinds ++ more) := by
  induction scans with
  | done => exact others
  | blank blank _ ih => exact .blank blank ih
  | @token kind text kinds wellFormed ends _ ih =>
    rw [List.append_assoc, List.cons_append]
    refine .token wellFormed ?_ ih
    cases text with
    | nil => exact stops kind
    | cons c text => exact ends

theorem stopsBefore_closeGroup (rest : List Char) (kind : TokenKind) :
    kind.StopsBefore (')' :: rest) := by
  intro c atHead
  obtain rfl := Option.some.inj atHead
  unfold TokenKind.continuedBy
  split <;> decide

end Token

/-! ### Statements without clauses -/

/-- The words that begin a clause. -/
def clauseWords : List Keyword :=
  [.order, .limit, .offset]

namespace Place

variable {limit : Nat} {place reached : Place} {read : Statement} {keys : List SortKey}
  {kind : TokenKind}

/-- Whether a clause has begun before a place. -/
def Claused : Place → Prop
  | .sortedBy _ => True
  | .sortField .. => True
  | .sortDirection .. => True
  | .sortKeyEnd .. => True
  | .limit _ => True
  | .limitEnd read => read.limit? ≠ none
  | .offset _ => True
  | .offsetEnd read => read.offset? ≠ none
  | _ => False

theorem claused_of_clause? (next : clause? read kind = some reached) : reached.Claused := by
  unfold clause? at next
  split at next <;> cases next <;> trivial

theorem claused_of_afterSortKey? (next : afterSortKey? read keys kind = some reached) :
    reached.Claused := by
  unfold afterSortKey? clauseAfterOrder? at next
  split at next
  · cases next
    trivial
  · split at next <;> cases next <;> trivial

/-- Nothing leads from a clause back to the expression. -/
theorem Claused.next {token : Token} (claused : place.Claused)
    (next : place.next? limit token = some reached) : reached.Claused := by
  unfold next? at next
  split at next
  case h_12 | h_13 | h_17 =>
    cases next
    trivial
  case h_14 =>
    unfold afterSortField? at next
    split at next
    · cases next
      trivial
    · cases next
      trivial
    · exact claused_of_afterSortKey? next
  case h_15 => exact claused_of_afterSortKey? next
  case h_16 | h_18 =>
    cases next
    exact Option.some_ne_none _
  case h_19 => cases next
  all_goals exact claused.elim

/-- Behind an operand or at the start the words lead to their clauses, and elsewhere nowhere. -/
theorem claused_of_word {word : Keyword} {column : Nat} (begins : word ∈ clauseWords)
    (next : place.next? limit ⟨.keyword word, column⟩ = some reached) : reached.Claused := by
  have known : word = .order ∨ word = .limit ∨ word = .offset := by simpa [clauseWords] using begins
  rcases known with rfl | rfl | rfl
  all_goals
    cases place with
    | operandEnd levels =>
      have atEnd : (if levels.depth = 0 then clause? (ofExpression (some levels.inner.toNode)) _
          else none) = some reached := next
      split at atEnd
      · exact claused_of_clause? atEnd
      · cases atEnd
    | _ => cases next <;> trivial

theorem claused_of_run {tokens : List Token} {word : Keyword} (begins : word ∈ clauseWords)
    (cause : place.Claused ∨ .keyword word ∈ tokens.map Token.kind)
    (ran : run limit place tokens = .ok reached) : reached.Claused := by
  induction tokens generalizing place with
  | nil =>
    cases ran
    exact cause.resolve_right List.not_mem_nil
  | cons token rest ih =>
    obtain ⟨kind, column⟩ := token
    obtain ⟨following, next, onward⟩ := exists_next_of_run ran
    rw [List.map_cons, List.mem_cons] at cause
    rcases cause with claused | same | later
    · exact ih (Or.inl (claused.next next)) onward
    · obtain rfl : .keyword word = kind := same
      exact ih (Or.inl (claused_of_word begins next)) onward
    · exact ih (Or.inr later) onward

theorem Claused.statement (claused : place.Claused) (atEnd : place.statement? = some read) :
    ¬(read.order? = none ∧ read.limit? = none ∧ read.offset? = none) := by
  rintro ⟨noOrder, noLimit, noOffset⟩
  unfold statement? at atEnd
  split at atEnd
  case h_1 | h_2 => exact claused
  case h_3 | h_4 =>
    cases atEnd
    cases noOrder
  case h_5 =>
    cases atEnd
    exact claused noLimit
  case h_6 =>
    cases atEnd
    exact claused noOffset
  case h_7 => cases atEnd

end Place

theorem Statement.limit?_eq_none_of_word? {read : Statement} (noWord : read.word? = .ok none) :
    read.limit? = none := by
  unfold word? at noWord
  split at noWord
  · obtain ⟨word, _, present⟩ := exists_of_map_eq_ok noWord
    cases present
  · rename_i missing
    exact missing

/-- A derivation without the words that begin clauses has no clauses. -/
theorem Sentence.clauseKinds_eq_nil {sentence : Sentence}
    (absent : ∀ word ∈ clauseWords, .keyword word ∉ sentence.kinds) :
    sentence.clauseKinds = [] := by
  have order := absent .order (by decide)
  have limit := absent .limit (by decide)
  have offset := absent .offset (by decide)
  obtain ⟨phrase?, order?, limit?, offset?⟩ := sentence
  cases order? <;> cases limit? <;> cases offset? <;>
    simp_all [kinds, clauseKinds, orderKinds, limitKinds, offsetKinds]

/-! ### Expressions as texts -/

namespace Phrase

/-- Whether a text consists of an expression whose literals have values. -/
structure WrittenAs (phrase : Phrase) (text : List Char) : Prop where
  scans : Token.Scans text phrase.kinds
  byPrecedence : phrase.ByPrecedence
  valued : Valued phrase.numerals phrase.patterns

/-- Whether a filter has the plain meaning of an expression. -/
structure MeantBy (phrase : Phrase) (filter : Filter) : Prop where
  verdict : ∀ mode record, phrase.evaluate? mode record = some (filter.evaluate mode record)
  names : filter.paths = phrase.names

variable {phrase left right : Phrase} {text other : List Char} {filter next : Filter}

theorem WrittenAs.group (written : phrase.WrittenAs text) :
    (Phrase.group phrase).WrittenAs ('(' :: (text ++ [')'])) where
  scans := by
    have close : Token.Scans [')'] [.punctuation .closeGroup] :=
      (Token.Leads.punctuation .closeGroup).spells.scans
    have inside := written.scans.append (Token.stopsBefore_closeGroup []) close
    exact Token.Leads.punctuation .openGroup _ _ inside
  byPrecedence := written.byPrecedence
  valued := written.valued

theorem WrittenAs.pair (first : left.WrittenAs text) (second : right.WrittenAs other)
    (connective : Connective)
    (tight : connective = .and → left.isDisjunction = false ∧ right.isDisjunction = false) :
    (Phrase.pair connective left right).WrittenAs
      (text ++ ' ' :: (connective.spelling.toList ++ ' ' :: other)) where
  scans := by
    have blank (rest : List Char) : Token.Separated (' ' :: rest) := by
      intro c atHead
      obtain rfl := Option.some.inj atHead
      exact Or.inl (by decide)
    have behind : Token.Scans (' ' :: other) right.kinds := .blank (by decide) second.scans
    have word : Token.Scans (connective.spelling.toList ++ ' ' :: other)
        (.keyword connective.keyword :: right.kinds) := by
      rw [← Connective.spelling_keyword]
      exact Token.Spells.keyword connective.keyword _ _ (blank other) behind
    exact first.scans.append (blank _).stopsBefore (.blank (by decide) word)
  byPrecedence := ⟨tight, first.byPrecedence, second.byPrecedence⟩
  valued := valued_append.mpr ⟨first.valued, second.valued⟩

theorem MeantBy.group (meant : phrase.MeantBy filter) : (Phrase.group phrase).MeantBy filter :=
  ⟨meant.verdict, meant.names⟩

/-- Joining filters has the meaning of joining the expressions, whichever way the trees are
joined. -/
theorem MeantBy.pair (first : left.MeantBy filter) (second : right.MeantBy next)
    (connective : Connective) :
    (Phrase.pair connective left right).MeantBy (filter.joined connective next) where
  verdict mode record := by
    rw [evaluate?, first.verdict, second.verdict, Filter.evaluate_joined]
    rfl
  names := by
    rw [Filter.paths_eq_map, Filter.comparisons_joined, List.map_append, ← Filter.paths_eq_map,
      ← Filter.paths_eq_map, first.names, second.names]
    rfl

theorem MeantBy.agrees (one : phrase.MeantBy filter) (another : phrase.MeantBy next) :
    filter.Agrees next where
  verdict mode record := by
    have same := one.verdict mode record
    rw [another.verdict mode record] at same
    exact (Option.some.inj same).symm
  attributes := by rw [Filter.attributes, Filter.attributes, one.names, another.names]

end Phrase

namespace Query

variable {settings : Settings} {text : String} {query : Query} {phrase : Phrase}

/-- A query that is a condition and nothing else. -/
structure IsCondition (query : Query) : Prop where
  condition : query.hasCondition = true
  order : query.order? = none
  limit : query.limit? = none
  token : query.token? = none

/-- A statement is a query if the literals of its text have values. -/
theorem exists_ofStatement_iff {limit : Nat} {tokens : List Token} {place : Place}
    {read : Statement} (same : tokens.map Token.kind = phrase.kinds)
    (ran : Place.run limit .start tokens = .ok place) (atEnd : place.statement? = some read) :
    (∃ query, ofStatement read = .ok query) ↔ Valued phrase.numerals phrase.patterns := by
  have start : Place.start.Owes [] := rfl
  have owed : read.problems = Token.problems false tokens := (start.run ran).statement atEnd
  have values : TokenKind.AllHaveValue false phrase.kinds ↔
      Valued phrase.numerals phrase.patterns := by
    have alone := phrase.allHaveValue_append false []
    rw [List.append_nil] at alone
    exact alone.trans (and_iff_left trivial)
  rw [← values, ← same, ← Token.problems_eq_nil_iff, ← owed, ← List.head?_eq_none_iff,
    ← problem?_ofStatement]
  cases ofStatement read <;> simp [problem?]

/-- A query without clauses has the meaning of the expression that its text consists of. -/
theorem exists_phrase_of_parse (run : parse settings text = .ok query) (plain : query.IsCondition) :
    ∃ phrase : Phrase, phrase.nesting ≤ settings.maxDepth ∧ phrase.WrittenAs text.toList ∧
      phrase.MeantBy query.filter := by
  obtain ⟨tokens, place, read, scanned, ran, atEnd, built⟩ :=
    read_eq_ok_iff.mp (parse_eq_ok_iff.mp run)
  obtain ⟨sentence, same, byPrecedence, within⟩ := Place.follows_of_run ran atEnd
  obtain ⟨atFilter, atOrder, atWord, atToken⟩ := ofStatement_eq_ok_iff.mp built
  have bare : sentence.clauseKinds = [] := by
    have noLimit := Statement.limit?_eq_none_of_word? (plain.limit ▸ atWord)
    refine Sentence.clauseKinds_eq_nil fun word begins present => ?_
    rw [same] at present
    have claused := Place.claused_of_run begins (Or.inr present) ran
    exact claused.statement atEnd ⟨atOrder.trans plain.order, noLimit, atToken.trans plain.token⟩
  have readAs := Place.readAs_of_run same ran atEnd
  obtain ⟨node, present⟩ : ∃ node, read.expression? = some node := by
    refine Option.ne_none_iff_exists'.mp fun missing => ?_
    have all := (hasCondition_of_run scanned ran atEnd built).mpr missing
    rw [plain.condition] at all
    cases all
  obtain ⟨phrase?, order?, limit?, offset?⟩ := sentence
  rw [Sentence.ReadAs, present] at readAs
  cases readAs with
  | @some phrase _ means =>
    have tight : phrase.ByPrecedence := byPrecedence phrase rfl
    have kinds : tokens.map Token.kind = phrase.kinds := by
      rw [← same, Sentence.kinds, bare, List.append_nil, Option.elim_some]
    rw [Statement.filter, present] at atFilter
    obtain ⟨verdict, names⟩ := means tight query.filter atFilter
    refine ⟨phrase, within, ⟨?_, tight, ?_⟩, ⟨verdict, names⟩⟩
    · rw [← kinds]
      exact Token.scans_of_scanFrom scanned
    · exact (exists_ofStatement_iff kinds ran atEnd).mp ⟨query, built⟩

/-- A text that consists of an expression is a query without clauses, and has its meaning. -/
theorem parse_phrase (written : phrase.WrittenAs text.toList)
    (room : phrase.nesting ≤ settings.maxDepth) :
    ∃ query, parse settings text = .ok query ∧ query.IsCondition ∧ phrase.MeantBy query.filter := by
  obtain ⟨tokens, scanned, same⟩ := written.scans.scanFrom_eq_ok 1
  have within : phrase.nesting = 0 ∨
      ([] : List Level).length + phrase.nesting ≤ settings.maxDepth := by
    simp only [List.length_nil]
    omega
  obtain ⟨_, ran, inner, rfl, gains⟩ :=
    Place.Reads.start phrase.beginsOperand_kinds (Place.reads_phrase within) tokens same
  have atEnd : (Place.operandEnd ⟨inner, []⟩).statement? =
      some (Place.ofExpression (some inner.toNode)) := rfl
  obtain ⟨query, built⟩ := (exists_ofStatement_iff same ran atEnd).mpr written.valued
  obtain ⟨atFilter, atOrder, atWord, atToken⟩ := ofStatement_eq_ok_iff.mp built
  obtain ⟨verdict, names⟩ := (gains written.byPrecedence).toNode query.filter atFilter
  have run : parse settings text = .ok query :=
    parse_eq_ok_iff.mpr (read_eq_ok_iff.mpr ⟨tokens, _, _, scanned, ran, atEnd, built⟩)
  have condition : query.hasCondition = true := by
    refine Bool.eq_true_of_not_eq_false fun all => ?_
    cases (hasCondition_of_run scanned ran atEnd built).mp all
  exact ⟨query, run, ⟨condition, atOrder.symm, (Except.ok.inj atWord).symm, atToken.symm⟩,
    ⟨verdict, names⟩⟩

/-- A text of two joined expressions agrees with the merge of two queries that they mean. -/
theorem exists_agrees_merge {own other : Query} {left right : Phrase} {connective : Connective}
    (written : (Phrase.pair connective left right).WrittenAs text.toList)
    (leftRoom : left.nesting ≤ settings.maxDepth) (rightRoom : right.nesting ≤ settings.maxDepth)
    (leftMeant : left.MeantBy own.filter) (rightMeant : right.MeantBy other.filter)
    (condition : other.hasCondition = true) :
    ∃ composed, parse settings text = .ok composed ∧ composed.IsCondition ∧
      composed.filter.Agrees (own.merge other connective).filter := by
  have room : (Phrase.pair connective left right).nesting ≤ settings.maxDepth := by
    rw [Phrase.nesting]
    omega
  obtain ⟨composed, run, plain, meant⟩ := parse_phrase written room
  refine ⟨composed, run, plain, ?_⟩
  rw [filter_merge_of_hasCondition condition]
  exact meant.agrees (leftMeant.pair rightMeant connective)

/-- Putting texts together agrees with merging their queries. In parentheses the texts need one more
group to be open, and alternatives need no parentheses. -/
theorem composed_text_agrees_with_merge (settings others : Settings) (first second : String)
    (own other : Query) (atFirst : parse settings first = .ok own)
    (atSecond : parse others second = .ok other) (ownPlain : own.IsCondition)
    (otherPlain : other.IsCondition) :
    (∀ deeper : Settings, settings.maxDepth + 1 ≤ deeper.maxDepth →
      others.maxDepth + 1 ≤ deeper.maxDepth → ∀ connective : Connective, ∃ composed,
        parse deeper ("(" ++ first ++ ") " ++ connective.spelling ++ " (" ++ second ++ ")") =
          .ok composed ∧ composed.IsCondition ∧
          composed.filter.Agrees (own.merge other connective).filter) ∧
    ∀ enough : Settings, settings.maxDepth ≤ enough.maxDepth → others.maxDepth ≤ enough.maxDepth →
      ∃ composed, parse enough (first ++ " OR " ++ second) = .ok composed ∧ composed.IsCondition ∧
        composed.filter.Agrees (own.merge other .or).filter := by
  obtain ⟨left, leftRoom, leftWritten, leftMeant⟩ := exists_phrase_of_parse atFirst ownPlain
  obtain ⟨right, rightRoom, rightWritten, rightMeant⟩ := exists_phrase_of_parse atSecond otherPlain
  refine ⟨fun deeper more alsoMore connective => ?_, fun enough more alsoMore => ?_⟩
  · -- a group is never a disjunction, so the connective between two of them may be any
    have written := leftWritten.group.pair rightWritten.group connective fun _ => ⟨rfl, rfl⟩
    have letters : ("(" ++ first ++ ") " ++ connective.spelling ++ " (" ++ second ++ ")").toList =
        '(' :: (first.toList ++ [')']) ++ ' ' :: (connective.spelling.toList ++
          ' ' :: '(' :: (second.toList ++ [')'])) := by
      simp [String.toList_append]
    rw [← letters] at written
    refine exists_agrees_merge written ?_ ?_ leftMeant.group rightMeant.group otherPlain.condition
    · rw [Phrase.nesting]
      omega
    · rw [Phrase.nesting]
      omega
  · have loose : Connective.or ≠ .and := by decide
    have written := leftWritten.pair rightWritten .or fun same => absurd same loose
    have letters : (first ++ " OR " ++ second).toList =
        first.toList ++ ' ' :: (Connective.or.spelling.toList ++ ' ' :: second.toList) := by
      simp [String.toList_append, Connective.spelling]
    rw [← letters] at written
    have leftWithin : left.nesting ≤ enough.maxDepth := by omega
    have rightWithin : right.nesting ≤ enough.maxDepth := by omega
    exact exists_agrees_merge written leftWithin rightWithin leftMeant rightMeant otherPlain.condition

/-- The conjunction of the second text is dissolved where the texts are put together, and stays a
child where the queries are merged. -/
theorem composed_text_agrees_with_merge_mixed :
    let leaf (name : String) : Filter := .leaf ⟨[name], .relate .eq (.int 1)⟩
    let own : Query := ofFilter (.node .or [leaf "a", leaf "b"])
    let other : Query := ofFilter (.node .and [leaf "c", .node .or [leaf "a", leaf "d"]])
    let whole : Query := ofFilter
      (.node .and [.node .or [leaf "a", leaf "b"], leaf "c", .node .or [leaf "a", leaf "d"]])
    parse ⟨1, []⟩ "a = 1 OR b = 1" = .ok own ∧
      parse ⟨1, []⟩ "c = 1 AND (a = 1 OR d = 1)" = .ok other ∧
      parse ⟨2, []⟩ "(a = 1 OR b = 1) AND (c = 1 AND (a = 1 OR d = 1))" = .ok whole ∧
      whole.filter ≠ (own.merge other .and).filter ∧
      whole.filter.Agrees (own.merge other .and).filter ∧
      ∃ composed, parse ⟨1, []⟩ "a = 1 OR b = 1 OR c = 1 AND (a = 1 OR d = 1)" = .ok composed ∧
        composed.filter.Agrees (own.merge other .or).filter := by
  intro leaf own other whole
  have atFirst : parse ⟨1, []⟩ "a = 1 OR b = 1" = .ok own := by cbv
  have atSecond : parse ⟨1, []⟩ "c = 1 AND (a = 1 OR d = 1)" = .ok other := by cbv
  have atWhole :
      parse ⟨2, []⟩ "(a = 1 OR b = 1) AND (c = 1 AND (a = 1 OR d = 1))" = .ok whole := by cbv
  obtain ⟨grouped, plain⟩ := composed_text_agrees_with_merge ⟨1, []⟩ ⟨1, []⟩ _ _ own other atFirst
    atSecond ⟨rfl, rfl, rfl, rfl⟩ ⟨rfl, rfl, rfl, rfl⟩
  obtain ⟨composed, run, _, agrees⟩ := grouped ⟨2, []⟩ (by decide) (by decide) .and
  obtain rfl : composed = whole := Except.ok.inj (run.symm.trans atWhole)
  obtain ⟨alternatives, again, _, agreesToo⟩ := plain ⟨1, []⟩ (by decide) (by decide)
  exact ⟨atFirst, atSecond, atWhole, by decide, agrees, alternatives, again, agreesToo⟩

end Query

end RecordQuery
