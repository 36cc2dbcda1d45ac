import RecordQuery.Proofs.CursorRead

namespace RecordQuery.Cursor

variable {tokens rest : List Token} {token : Token} {limit lastColumn : Nat}

/-! ### Expressions -/

section Expressions

variable {levels : Levels} {outer : List Level} {inner : Level}

/-- The place behind conjuncts that are joined to a node, inside groups and behind other alternatives. -/
def ConjunctsEnd (tokens : List Token) (outer : List Level) (complete : List Node) (node : Node)
    (next : Nat) (reached : Place) : Prop :=
  ∃ inner, reached = .operandEnd ⟨inner, outer⟩ ∧ inner.closed = node :: complete ∧
    Without tokens next (.keyword .and)

/-- The place behind alternatives that are joined to a node, inside groups. -/
def AlternativesEnd (tokens : List Token) (outer : List Level) (node : Node) (next : Nat)
    (reached : Place) : Prop :=
  ∃ inner, reached = .operandEnd ⟨inner, outer⟩ ∧ inner.toNode = node ∧
    Without tokens next (.keyword .and) ∧ Without tokens next (.keyword .or)

/-- Where neither connective follows, nothing but the end of a group can. -/
theorem next?_groupEnd {level : Level} (noAnd : token.kind ≠ .keyword .and)
    (noOr : token.kind ≠ .keyword .or) (noClose : token.kind ≠ .punctuation .closeGroup) :
    (Place.operandEnd ⟨inner, level :: outer⟩).next? limit token = none := by
  obtain ⟨kind, column⟩ := token
  cases kind with
  | punctuation sign =>
    cases sign with
    | closeGroup => exact absurd rfl noClose
    | _ => rfl
  | keyword word =>
    cases word with
    | and => exact absurd rfl noAnd
    | or => exact absurd rfl noOr
    | _ => rfl
  | _ => rfl

/-- A group is closed behind its content. -/
theorem grouped_agrees {position : Nat} {content : Reading (Node × Nat)}
    (agrees : Agrees tokens limit lastColumn (.operand levels.enter) position
      (fun node next reached => position < next ∧
        AlternativesEnd tokens (levels.inner :: levels.outer) node next reached) content) :
    Agrees tokens limit lastColumn (.operand levels.enter) position
      (fun node _ reached => reached = .operandEnd (levels.push node))
      (grouped (entriesOf tokens lastColumn) content) := by
  refine agrees.bind ?_
  rintro node behind _ _ within ⟨_, inner, rfl, rfl, noAnd, noOr⟩
  have closing : Agrees tokens limit lastColumn (.operandEnd ⟨inner, levels.inner :: levels.outer⟩) behind
      (fun (_ : Unit) next reached => behind < next ∧
        reached = .operandEnd (levels.push (.group inner.toNode)))
      (expect (entriesOf tokens lastColumn) (some (.punctuation .closeGroup)) (.punctuation .closeGroup)
        behind) := by
    refine expect_agrees within (fun _ => rfl) (fun token atHead other => ⟨?_, rfl⟩) ⟨rfl, rfl⟩
    exact next?_groupEnd (noAnd token atHead) (noOr token atHead) other
  refine closing.bind ?_
  rintro ⟨⟩ closed _ _ atClosed ⟨_, rfl⟩
  exact .done (Nat.le_refl _) atClosed rfl rfl

-- The measure is that of the definitions. A group is one deeper, and one token on, than what it stands
-- in, so that no more groups are open than tokens have been read.
mutual

theorem alternatives_agrees {position : Nat} (outer : List Level) (deep : outer.length ≤ position)
    (bound : position ≤ tokens.length) :
    Agrees tokens limit lastColumn (.operand ⟨.empty, outer⟩) position
      (fun node next reached => position < next ∧ AlternativesEnd tokens outer node next reached)
      (alternatives (entriesOf tokens lastColumn) limit outer.length position) := by
  rw [alternatives]
  refine (conjuncts_agrees [] outer deep bound).consuming_bind ?_
  rintro first next ahead _ within ⟨inner, rfl, closed, noAnd⟩
  have deepAhead : outer.length ≤ next := Nat.le_trans deep (Nat.le_of_lt ahead.1)
  refine (moreAlternatives_agrees [first] outer deepAhead within closed noAnd).mono ?_
  exact fun _ _ _ onward ends => ⟨Nat.lt_of_lt_of_le ahead.1 onward, ends⟩
termination_by (tokens.length - position, 2)

theorem moreAlternatives_agrees {position : Nat} {inner : Level} (operands : List Node)
    (outer : List Level) (deep : outer.length ≤ position) (bound : position ≤ tokens.length)
    (closed : inner.closed = operands.reverse) (noAnd : Without tokens position (.keyword .and)) :
    Agrees tokens limit lastColumn (.operandEnd ⟨inner, outer⟩) position (AlternativesEnd tokens outer)
      (moreAlternatives (entriesOf tokens lastColumn) limit outer.length operands position) := by
  rw [moreAlternatives]
  rcases eat_cases lastColumn (.keyword .or) bound with
    ⟨column, rest, ahead, here, eaten⟩ | ⟨left, noOr⟩
  · have inside := lt_length_of_drop here
    rw [eaten, Outcome.done_bind]
    have another := conjuncts_agrees inner.closed outer (Nat.le_succ_of_le deep) inside
    refine .of_next here rfl (another.consuming_bind ?_)
    rintro operand behind further _ within ⟨following, rfl, closedBehind, noAndBehind⟩
    refine moreAlternatives_agrees (operands ++ [operand]) outer (by omega) within ?_ noAndBehind
    rw [closedBehind, closed, List.reverse_append, List.reverse_singleton, List.singleton_append]
  · rw [left, Outcome.done_bind]
    refine .done (Nat.le_refl _) bound ⟨inner, rfl, ?_, noAnd, noOr⟩ rfl
    rw [Level.toNode, closed, List.reverse_reverse]
termination_by (tokens.length - position, 0)

theorem conjuncts_agrees {position : Nat} (complete : List Node) (outer : List Level)
    (deep : outer.length ≤ position) (bound : position ≤ tokens.length) :
    Agrees tokens limit lastColumn (.operand ⟨⟨complete, []⟩, outer⟩) position
      (fun node next reached => position < next ∧ ConjunctsEnd tokens outer complete node next reached)
      (conjuncts (entriesOf tokens lastColumn) limit outer.length position) := by
  rw [conjuncts]
  refine (operand_agrees ⟨⟨complete, []⟩, outer⟩ deep bound).consuming_bind ?_
  rintro first next ahead _ within rfl
  have deepAhead : outer.length ≤ next := Nat.le_trans deep (Nat.le_of_lt ahead.1)
  refine (moreConjuncts_agrees complete [first] outer deepAhead within).mono ?_
  exact fun _ _ _ onward ends => ⟨Nat.lt_of_lt_of_le ahead.1 onward, ends⟩
termination_by (tokens.length - position, 1)

theorem moreConjuncts_agrees {position : Nat} (complete operands : List Node) (outer : List Level)
    (deep : outer.length ≤ position) (bound : position ≤ tokens.length) :
    Agrees tokens limit lastColumn (.operandEnd ⟨⟨complete, operands.reverse⟩, outer⟩) position
      (ConjunctsEnd tokens outer complete)
      (moreConjuncts (entriesOf tokens lastColumn) limit outer.length operands position) := by
  rw [moreConjuncts]
  rcases eat_cases lastColumn (.keyword .and) bound with
    ⟨column, rest, ahead, here, eaten⟩ | ⟨left, noAnd⟩
  · have inside := lt_length_of_drop here
    rw [eaten, Outcome.done_bind]
    have another := operand_agrees ⟨⟨complete, operands.reverse⟩, outer⟩ (Nat.le_succ_of_le deep) inside
    refine .of_next here rfl (another.consuming_bind ?_)
    rintro operand behind further _ within rfl
    have later := moreConjuncts_agrees complete (operands ++ [operand]) outer (by omega) within
    rw [List.reverse_append, List.reverse_singleton, List.singleton_append] at later
    exact later
  · rw [left, Outcome.done_bind]
    refine .done (Nat.le_refl _) bound ⟨_, rfl, ?_, noAnd⟩ rfl
    rw [Level.closed, List.reverse_reverse]
termination_by (tokens.length - position, 0)

theorem operand_agrees {position : Nat} (levels : Levels) (deep : levels.depth ≤ position)
    (bound : position ≤ tokens.length) :
    Agrees tokens limit lastColumn (.operand levels) position
      (fun node next reached => position < next ∧ reached = .operandEnd (levels.push node))
      (operand (entriesOf tokens lastColumn) limit levels.depth position) := by
  have counted : ¬(entriesOf tokens lastColumn).length ≤ levels.depth := by
    rw [length_entriesOf]
    omega
  rw [operand, if_neg counted]
  cases here : tokens.drop position with
  | nil =>
    rw [advance_end bound here]
    exact agrees_refused_end here rfl rfl
  | cons token rest =>
    have inside := lt_length_of_drop here
    obtain ⟨kind, column⟩ := token
    rw [advance_token here]
    cases kind with
    | identifier name =>
      refine .of_next here rfl ((condition_agrees inside).mono ?_)
      exact fun _ _ _ onward ends => ⟨onward, ends⟩
    | punctuation sign =>
      cases sign with
      | openGroup =>
        by_cases tooDeep : levels.depth + 1 > limit
        · simp only [Outcome.done_bind, if_pos tooDeep]
          have stays : (Place.operand levels).next? limit ⟨.punctuation .openGroup, column⟩ = none :=
            if_neg (Nat.not_le_of_gt tooDeep)
          exact agrees_refused here stays rfl
        · have ahead : position < position + 1 ∧ position + 1 < (entriesOf tokens lastColumn).length := by
            rw [length_entriesOf]
            omega
          simp only [Outcome.done_bind, if_neg tooDeep, dif_pos ahead]
          have enters : (Place.operand levels).next? limit ⟨.punctuation .openGroup, column⟩ =
              some (.operand levels.enter) := if_pos (Nat.le_of_not_gt tooDeep)
          have content := alternatives_agrees (levels.inner :: levels.outer) (Nat.succ_le_succ deep) inside
          refine .of_next here enters ((grouped_agrees content).mono ?_)
          exact fun _ _ _ onward ends => ⟨onward, ends⟩
      | _ => exact agrees_refused here rfl rfl
    | _ => exact agrees_refused here rfl rfl
termination_by (tokens.length - position, 0)

end

end Expressions

/-! ### Clauses -/

section Clauses

variable {position : Nat} {place behind : Place} {read : Statement} {words : List Keyword}

/-- A place where a statement can end. It goes on with a clause that begins with one of a few keywords,
and with nothing else. -/
structure Offers (tokens : List Token) (limit : Nat) (words : List Keyword) (read : Statement)
    (position : Nat) (place : Place) : Prop where
  ends : place.statement? = some read
  goesOn : ∀ token ∈ (tokens.drop position).head?, ∀ word ∈ words, token.kind = .keyword word →
    place.next? limit token = Place.clause? read token.kind
  stops : ∀ token ∈ (tokens.drop position).head?, (∀ word ∈ words, token.kind ≠ .keyword word) →
    place.next? limit token = none ∧
      place.refuse limit (some token.kind) = .unexpected .endOfInput (some token.kind)

/-- A clause that is there is read, and one that is not there is left out. In both cases the clauses
after it are offered. -/
theorem clause_agrees {α : Type} {word : Keyword} {content : Nat → Reading (α × Nat)}
    (write : Option α → Statement) (bound : position ≤ tokens.length)
    (offers : Offers tokens limit (word :: words) (write none) position place)
    (begins : Place.clause? (write none) (.keyword word) = some behind)
    (agrees : ∀ next ≤ tokens.length, Agrees tokens limit lastColumn behind next
      (fun value after reached => Offers tokens limit words (write (some value)) after reached)
      (content next)) :
    Agrees tokens limit lastColumn place position
      (fun value? next reached => Offers tokens limit words (write value?) next reached)
      (clause (entriesOf tokens lastColumn) word content position) := by
  rw [clause]
  rcases eat_cases lastColumn (.keyword word) bound with
    ⟨column, rest, ahead, here, eaten⟩ | ⟨left, other⟩
  · have atHead : ⟨.keyword word, column⟩ ∈ (tokens.drop position).head? := by
      rw [here, List.head?_cons, Option.mem_some]
    have step := (offers.goesOn _ atHead word List.mem_cons_self rfl).trans begins
    rw [eaten, Outcome.done_bind]
    refine .of_next here step ((agrees (position + 1) (lt_length_of_drop here)).bind ?_)
    exact fun value after reached _ within offered => .done (Nat.le_refl _) within offered rfl
  · rw [left, Outcome.done_bind]
    refine .done (Nat.le_refl _) bound ⟨offers.ends, ?_, ?_⟩ rfl
    · exact fun token atHead later among => offers.goesOn token atHead later (List.mem_cons_of_mem _ among)
    · refine fun token atHead noLater => offers.stops token atHead ?_
      exact List.forall_mem_cons.mpr ⟨other token atHead, noLater⟩

theorem finish_sortDirection {keys : List SortKey} {field : String}
    (noAsc : Without tokens position (.keyword .asc)) (noDesc : Without tokens position (.keyword .desc)) :
    (Place.sortDirection read keys field).finish limit lastColumn (tokens.drop position) =
      (Place.sortKeyEnd read (⟨field, .asc⟩ :: keys)).finish limit lastColumn (tokens.drop position) := by
  rw [Without] at noAsc noDesc
  cases here : tokens.drop position with
  | nil => rfl
  | cons token rest =>
    rw [here] at noAsc noDesc
    refine finish_cons_congr ?_ rfl
    obtain ⟨kind, column⟩ := token
    cases kind with
    | keyword word =>
      cases word with
      | asc => exact absurd rfl (noAsc _ rfl)
      | desc => exact absurd rfl (noDesc _ rfl)
      | _ => rfl
    | _ => rfl

/-- Without a direction a key ascends, and nothing is read. -/
theorem direction_agrees {keys : List SortKey} {field : String} (bound : position ≤ tokens.length) :
    Agrees tokens limit lastColumn (.sortDirection read keys field) position
      (fun order _ reached => reached = .sortKeyEnd read (⟨field, order⟩ :: keys))
      (direction (entriesOf tokens lastColumn) position) := by
  rw [direction]
  rcases eat_cases lastColumn (.keyword .asc) bound with
    ⟨column, rest, ahead, here, eaten⟩ | ⟨left, noAsc⟩
  · rw [eaten, Outcome.done_bind]
    exact .of_next here rfl (.done (Nat.le_refl _) (lt_length_of_drop here) rfl rfl)
  · rw [left, Outcome.done_bind]
    rcases eat_cases lastColumn (.keyword .desc) bound with
      ⟨column, rest, ahead, here, eaten⟩ | ⟨leftAgain, noDesc⟩
    · rw [eaten, Outcome.done_bind]
      exact .of_next here rfl (.done (Nat.le_refl _) (lt_length_of_drop here) rfl rfl)
    · rw [leftAgain, Outcome.done_bind]
      exact .done (Nat.le_refl _) bound rfl (finish_sortDirection noAsc noDesc)

theorem sortKey_agrees {keys : List SortKey} (bound : position ≤ tokens.length) :
    Agrees tokens limit lastColumn (.sortField read keys) position
      (fun key next reached => position < next ∧ reached = .sortKeyEnd read (key :: keys))
      (sortKey (entriesOf tokens lastColumn) position) := by
  rw [sortKey]
  cases here : tokens.drop position with
  | nil =>
    rw [advance_end bound here]
    exact agrees_refused_end here rfl rfl
  | cons token rest =>
    obtain ⟨kind, column⟩ := token
    rw [advance_token here]
    cases kind with
    | identifier field =>
      refine .of_next here rfl ((direction_agrees (lt_length_of_drop here)).bind ?_)
      rintro order next _ onward within rfl
      exact .done (Nat.le_refl _) within ⟨onward, rfl⟩ rfl
    | _ => exact agrees_refused here rfl rfl

/-- Behind sort keys and no comma the clauses after the order are offered. -/
theorem offers_sortKeyEnd (keys : List SortKey) (noComma : Without tokens position (.punctuation .comma)) :
    Offers tokens limit [.limit, .offset] (Place.withOrder read keys) position (.sortKeyEnd read keys) where
  ends := rfl
  goesOn := by
    rintro ⟨kind, column⟩ - word among rfl
    simp only [List.mem_cons, List.not_mem_nil, or_false] at among
    rcases among with rfl | rfl <;> rfl
  stops := by
    rintro ⟨kind, column⟩ atHead other
    refine ⟨?_, rfl⟩
    cases kind with
    | punctuation sign =>
      cases sign with
      | comma => exact absurd rfl (noComma _ atHead)
      | _ => rfl
    | keyword word =>
      cases word with
      | limit => exact absurd rfl (other .limit (by decide))
      | offset => exact absurd rfl (other .offset (by decide))
      | _ => rfl
    | _ => rfl

/-- Each round takes a sort key, and a comma if there is another one. -/
theorem sortKeys_agrees {position : Nat} (keys : List SortKey) (bound : position ≤ tokens.length) :
    Agrees tokens limit lastColumn (.sortField read keys.reverse) position
      (fun all next reached =>
        Offers tokens limit [.limit, .offset] { read with order? := some all } next reached)
      (sortKeys (entriesOf tokens lastColumn) keys position) := by
  rw [sortKeys]
  refine (sortKey_agrees bound).consuming_bind ?_
  rintro key next ahead _ within rfl
  have collected : key :: keys.reverse = (keys ++ [key]).reverse := by
    rw [List.reverse_append, List.reverse_singleton, List.singleton_append]
  simp only [collected]
  rcases eat_cases lastColumn (.punctuation .comma) within with
    ⟨column, rest, further, here, eaten⟩ | ⟨left, noComma⟩
  · rw [eaten, Outcome.done_bind]
    exact .of_next here rfl (sortKeys_agrees (keys ++ [key]) (lt_length_of_drop here))
  · rw [left, Outcome.done_bind]
    refine .done (Nat.le_refl _) within ?_ rfl
    simpa only [Place.withOrder, List.reverse_reverse] using
      offers_sortKeyEnd (keys ++ [key]).reverse noComma
termination_by tokens.length - position

theorem next?_sortedBy (other : token.kind ≠ .keyword .sortedBy) :
    (Place.sortedBy read).next? limit token = none := by
  obtain ⟨kind, column⟩ := token
  cases kind with
  | keyword word =>
    cases word with
    | sortedBy => exact absurd rfl other
    | _ => rfl
  | _ => rfl

theorem orderContent_agrees (bound : position ≤ tokens.length) :
    Agrees tokens limit lastColumn (.sortedBy read) position
      (fun keys next reached =>
        Offers tokens limit [.limit, .offset] { read with order? := some keys } next reached)
      (orderContent (entriesOf tokens lastColumn) position) := by
  have word : Agrees tokens limit lastColumn (.sortedBy read) position
      (fun (_ : Unit) next reached => position < next ∧ reached = .sortField read [])
      (expect (entriesOf tokens lastColumn) (some (.keyword .sortedBy)) .sortedBy position) :=
    expect_agrees bound (fun _ => rfl) (fun _ _ other => ⟨next?_sortedBy other, rfl⟩) ⟨rfl, rfl⟩
  refine word.bind ?_
  rintro ⟨⟩ next _ _ within ⟨_, rfl⟩
  exact sortKeys_agrees [] within

theorem offers_limitEnd : Offers tokens limit [.offset] read position (.limitEnd read) where
  ends := rfl
  goesOn := by
    rintro ⟨kind, column⟩ - word among rfl
    obtain rfl := List.mem_singleton.mp among
    rfl
  stops := by
    rintro ⟨kind, column⟩ - other
    refine ⟨?_, rfl⟩
    cases kind with
    | keyword word =>
      cases word with
      | offset => exact absurd rfl (other .offset (by decide))
      | _ => rfl
    | _ => rfl

theorem offers_offsetEnd : Offers tokens limit [] read position (.offsetEnd read) where
  ends := rfl
  goesOn := nofun
  stops := fun _ _ _ => ⟨rfl, rfl⟩

theorem limitContent_agrees (bound : position ≤ tokens.length) :
    Agrees tokens limit lastColumn (.limit read) position
      (fun value next reached =>
        Offers tokens limit [.offset] { read with limit? := some value } next reached)
      (literal (entriesOf tokens lastColumn) .integer Token.numeral? position) := by
  have integer : Agrees tokens limit lastColumn (.limit read) position
      (fun value next reached => position < next ∧ reached = .limitEnd { read with limit? := some value })
      (literal (entriesOf tokens lastColumn) .integer Token.numeral? position) :=
    literal_agrees bound (fun ⟨kind, _⟩ => by cases kind <;> rfl) (fun _ => rfl) rfl
  refine integer.mono ?_
  rintro value next _ _ ⟨_, rfl⟩
  exact offers_limitEnd

theorem offsetContent_agrees (bound : position ≤ tokens.length) :
    Agrees tokens limit lastColumn (.offset read) position
      (fun value next reached =>
        Offers tokens limit [] { read with offset? := some value.1 } next reached)
      (literal (entriesOf tokens lastColumn) .text Token.text? position) := by
  have text : Agrees tokens limit lastColumn (.offset read) position
      (fun value next reached => position < next ∧ reached = .offsetEnd { read with offset? := some value.1 })
      (literal (entriesOf tokens lastColumn) .text Token.text? position) :=
    literal_agrees bound (fun ⟨kind, _⟩ => by cases kind <;> rfl) (fun _ => rfl) rfl
  refine text.mono ?_
  rintro value next _ _ ⟨_, rfl⟩
  exact offers_offsetEnd

end Clauses

/-! ### Statements -/

section Statements

/-- Behind an expression outside all groups the clauses are offered. -/
theorem offers_operandEnd {position : Nat} {level : Level}
    (noAnd : Without tokens position (.keyword .and)) (noOr : Without tokens position (.keyword .or)) :
    Offers tokens limit [.order, .limit, .offset] (Place.ofExpression (some level.toNode)) position
      (.operandEnd ⟨level, []⟩) where
  ends := rfl
  goesOn := by
    rintro ⟨kind, column⟩ - word among rfl
    simp only [List.mem_cons, List.not_mem_nil, or_false] at among
    rcases among with rfl | rfl | rfl <;> rfl
  stops := by
    rintro ⟨kind, column⟩ atHead other
    refine ⟨?_, rfl⟩
    cases kind with
    | punctuation sign => cases sign <;> rfl
    | keyword word =>
      cases word with
      | and => exact absurd rfl (noAnd _ atHead)
      | or => exact absurd rfl (noOr _ atHead)
      | order => exact absurd rfl (other .order (by decide))
      | limit => exact absurd rfl (other .limit (by decide))
      | offset => exact absurd rfl (other .offset (by decide))
      | _ => rfl
    | _ => rfl

theorem exists_word_of_beginsClause {kind : TokenKind} (begins : beginsClause (some kind) = true) :
    ∃ word ∈ [Keyword.order, Keyword.limit, Keyword.offset], kind = .keyword word := by
  cases kind with
  | keyword word =>
    cases word with
    | order | limit | offset => exact ⟨_, by decide, rfl⟩
    | _ => cases begins
  | _ => cases begins

/-- A statement may begin with a clause, or be empty. -/
theorem offers_start {position : Nat}
    (begins : ∀ token ∈ (tokens.drop position).head?, beginsClause (some token.kind) = true) :
    Offers tokens limit [.order, .limit, .offset] (Place.ofExpression none) position .start where
  ends := rfl
  goesOn := by
    rintro ⟨kind, column⟩ - word among rfl
    simp only [List.mem_cons, List.not_mem_nil, or_false] at among
    rcases among with rfl | rfl | rfl <;> rfl
  stops := by
    intro token atHead other
    obtain ⟨word, among, same⟩ := exists_word_of_beginsClause (begins token atHead)
    exact absurd same (other word among)

theorem finish_start (other : beginsClause (some token.kind) = false) :
    Place.start.finish limit lastColumn (token :: rest) =
      (Place.operand .empty).finish limit lastColumn (token :: rest) := by
  refine finish_cons_congr ?_ rfl
  obtain ⟨kind, column⟩ := token
  cases kind with
  | keyword word =>
    cases word with
    | order | limit | offset => cases other
    | _ => rfl
  | _ => rfl

theorem expression?_agrees :
    Agrees tokens limit lastColumn .start 0
      (fun node? next reached =>
        Offers tokens limit [.order, .limit, .offset] (Place.ofExpression node?) next reached)
      (expression? (entriesOf tokens lastColumn) limit) := by
  rw [expression?]
  cases here : tokens.drop 0 with
  | nil =>
    rw [itemAt_end (Nat.zero_le _) here]
    exact .done (Nat.le_refl _) (Nat.zero_le _) (offers_start (by rw [here]; nofun)) rfl
  | cons token rest =>
    rw [itemAt_token here, Outcome.done_bind]
    cases begins : beginsClause (some token.kind) with
    | true =>
      have offers : Offers tokens limit [.order, .limit, .offset] (Place.ofExpression none) 0 .start := by
        refine offers_start fun other atHead => ?_
        rw [here] at atHead
        obtain rfl := Option.some.inj atHead
        exact begins
      exact .done (Nat.le_refl _) (Nat.zero_le _) offers rfl
    | false =>
      have same : Place.start.finish limit lastColumn (tokens.drop 0) =
          (Place.operand .empty).finish limit lastColumn (tokens.drop 0) := by
        rw [here]
        exact finish_start begins
      refine .onward (Nat.le_refl _) same ((alternatives_agrees [] (Nat.le_refl _) (Nat.zero_le _)).bind ?_)
      rintro node next _ _ within ⟨_, level, rfl, rfl, noAnd, noOr⟩
      exact .done (Nat.le_refl _) within (offers_operandEnd noAnd noOr) rfl

theorem ending_eq {position : Nat} {place : Place} {read : Statement} (bound : position ≤ tokens.length)
    (offers : Offers tokens limit [] read position place) :
    ending (entriesOf tokens lastColumn) read position =
      .ofExcept (place.finish limit lastColumn (tokens.drop position)) := by
  cases here : tokens.drop position with
  | nil =>
    rw [ending, itemAt_end bound here, finish_nil_of_statement offers.ends]
    rfl
  | cons token rest =>
    have atHead : token ∈ (tokens.drop position).head? := by rw [here, List.head?_cons, Option.mem_some]
    obtain ⟨refused, said⟩ := offers.stops token atHead nofun
    rw [ending, itemAt_token here, finish_cons_of_refused refused, said, unexpected, itemAt_token here]
    rfl

/-- Reading by positions comes to the statement that the tokens are read as, or to the same error. -/
theorem statement_eq :
    statement (entriesOf tokens lastColumn) limit =
      .ofExcept (Statement.ofTokens limit tokens lastColumn) := by
  have whole : Place.start.finish limit lastColumn tokens =
    Place.start.finish limit lastColumn (tokens.drop 0) := rfl
  rw [ofTokens_eq_finish, whole, statement]
  refine expression?_agrees.bind_eq ?_
  intro node? afterNode atNode withinNode offersOrder
  refine (clause_agrees (fun order? => ⟨node?, order?, none, none⟩) withinNode offersOrder rfl
    fun _ => orderContent_agrees).bind_eq ?_
  intro order? afterOrder atOrder withinOrder offersLimit
  refine (clause_agrees (fun limit? => ⟨node?, order?, limit?, none⟩) withinOrder offersLimit rfl
    fun _ => limitContent_agrees).bind_eq ?_
  intro limit? afterLimit atLimit withinLimit offersOffset
  refine (clause_agrees (fun offset? => ⟨node?, order?, limit?, offset?.map Prod.fst⟩) withinLimit
    offersOffset rfl fun _ => offsetContent_agrees).bind_eq ?_
  intro offset? afterOffset atOffset withinOffset offersEnd
  exact ending_eq withinOffset offersEnd

-- the moves rely on the end of input: over a list without it they would leave the list
example : statement [⟨some (.keyword .limit), 1⟩] 0 = .breached .outOfRange := rfl

theorem read_eq (limit : Nat) (text : String) :
    read limit text = .ofExcept (Statement.read limit text) := by
  have scanned : scanFrom text.toList [] 0 =
      .ofExcept ((Token.scan text.toList).map fun tokens => entriesOf tokens (endColumn text)) := by
    have whole : text.toList = [] ++ text.toList := rfl
    rw [endColumn, ← String.length_toList]
    exact scanFrom_eq_ofExcept whole []
  rw [read, scanned, Statement.read]
  cases Token.scan text.toList with
  | error error => rfl
  | ok tokens =>
    simp only [Except.map, Outcome.ofExcept, Outcome.mapError, Outcome.done_bind, statement_eq]
    cases Statement.ofTokens limit tokens (endColumn text) <;> rfl

/-- No text and no limit make a reading by positions break its rules, and what it comes to is what the
text is read as. So every index and every part that is cut out is in range, the end of input is never
passed, every round of a loop and every group takes something, fewer groups are open than there are
tokens, and quotes are only taken off where there are two of them. -/
theorem read_never_breaches (limit : Nat) (text : String) :
    (∀ breach, read limit text ≠ .breached breach) ∧
      read limit text = .ofExcept (Statement.read limit text) := by
  refine ⟨fun breach => ?_, read_eq limit text⟩
  rw [read_eq]
  exact Outcome.ofExcept_ne_breached (Statement.read limit text) breach

end Statements

end RecordQuery.Cursor
