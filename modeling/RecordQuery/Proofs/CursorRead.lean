import RecordQuery.Proofs.CursorScan

namespace RecordQuery

/-- What the reading of a statement comes to from a place on, if the text ends at a column. -/
def Place.finish (limit lastColumn : Nat) (place : Place) (tokens : List Token) :
    Except (Nat × SyntaxError) Statement := do
  let reached ← run limit place tokens
  match reached.statement? with
  | some statement => .ok statement
  | none => .error (lastColumn, reached.refuse limit none)

namespace Cursor

variable {tokens rest : List Token} {token : Token} {limit lastColumn position : Nat}
  {place reached : Place}

theorem ofTokens_eq_finish :
    Statement.ofTokens limit tokens lastColumn = Place.start.finish limit lastColumn tokens := rfl

theorem finish_cons_of_next (next : place.next? limit token = some reached) :
    place.finish limit lastColumn (token :: rest) = reached.finish limit lastColumn rest := by
  rw [Place.finish, Place.run, next, Place.finish]

theorem finish_cons_of_refused (refused : place.next? limit token = none) :
    place.finish limit lastColumn (token :: rest) =
      .error (token.column, place.refuse limit (some token.kind)) := by
  rw [Place.finish, Place.run, refused]
  rfl

theorem finish_cons_congr {other : Place} (next : place.next? limit token = other.next? limit token)
    (refuse : place.refuse limit (some token.kind) = other.refuse limit (some token.kind)) :
    place.finish limit lastColumn (token :: rest) = other.finish limit lastColumn (token :: rest) := by
  rw [Place.finish, Place.run, next, refuse, Place.finish, Place.run]

theorem finish_nil_of_statement {statement : Statement} (ends : place.statement? = some statement) :
    place.finish limit lastColumn [] = .ok statement := by
  simp only [Place.finish, Place.run, bind, Except.bind, ends]

theorem finish_nil_of_unfinished (unfinished : place.statement? = none) :
    place.finish limit lastColumn [] = .error (lastColumn, place.refuse limit none) := by
  simp only [Place.finish, Place.run, bind, Except.bind, unfinished]

/-! ### Moves over the tokens -/

theorem lt_length_of_drop (here : tokens.drop position = token :: rest) : position < tokens.length := by
  have lengths := congrArg List.length here
  simp only [List.length_drop, List.length_cons] at lengths
  omega

theorem drop_succ_of_drop (here : tokens.drop position = token :: rest) :
    tokens.drop (position + 1) = rest := by
  rw [← List.tail_drop, here, List.tail_cons]

theorem length_entriesOf : (entriesOf tokens lastColumn).length = tokens.length + 1 := by
  simp [entriesOf]

theorem itemAt_token {ε : Type} (here : tokens.drop position = token :: rest) :
    (itemAt (entriesOf tokens lastColumn) position : Outcome ε Entry) =
      .done ⟨some token.kind, token.column⟩ := by
  have inside := lt_length_of_drop here
  have found : tokens[position]? = some token := by rw [← List.head?_drop, here, List.head?_cons]
  rw [itemAt, entriesOf, List.getElem?_append_left (by simpa using inside), List.getElem?_map, found]
  rfl

theorem itemAt_end {ε : Type} (bound : position ≤ tokens.length) (here : tokens.drop position = []) :
    (itemAt (entriesOf tokens lastColumn) position : Outcome ε Entry) = .done ⟨none, lastColumn⟩ := by
  have atEnd : position = tokens.length := Nat.le_antisymm bound (List.drop_eq_nil_iff.mp here)
  rw [itemAt, entriesOf, List.getElem?_append_right (by simp [atEnd]), List.length_map, atEnd,
    Nat.sub_self]
  rfl

/-- Behind a token there is another one, or the end of input. -/
theorem pass_token (lastColumn : Nat) (here : tokens.drop position = token :: rest) :
    ∃ ahead : position < position + 1 ∧ position + 1 < (entriesOf tokens lastColumn).length,
      pass (entriesOf tokens lastColumn) position = .done ⟨position + 1, ahead⟩ := by
  have inside : position + 1 < (entriesOf tokens lastColumn).length := by
    rw [length_entriesOf]
    exact Nat.succ_lt_succ (lt_length_of_drop here)
  refine ⟨⟨Nat.lt_succ_self position, inside⟩, ?_⟩
  rw [pass, itemAt_token here, Outcome.done_bind, if_neg (Option.some_ne_none _), dif_pos inside]
  rfl

theorem advance_token (here : tokens.drop position = token :: rest) :
    advance (entriesOf tokens lastColumn) position =
      .done (⟨some token.kind, token.column⟩, position + 1) := by
  obtain ⟨ahead, passed⟩ := pass_token lastColumn here
  simp only [advance, itemAt_token here, Outcome.done_bind, passed]
  rfl

theorem advance_end (bound : position ≤ tokens.length) (here : tokens.drop position = []) :
    advance (entriesOf tokens lastColumn) position = .done (⟨none, lastColumn⟩, position) := by
  rw [advance, itemAt_end bound here]
  rfl

/-- The token at a position, if there is one, is not of a certain kind. -/
def Without (tokens : List Token) (position : Nat) (kind : TokenKind) : Prop :=
  ∀ token ∈ (tokens.drop position).head?, token.kind ≠ kind

/-- A token of a kind is passed, and anything else stays. -/
theorem eat_cases (lastColumn : Nat) (kind : TokenKind) (bound : position ≤ tokens.length) :
    (∃ (column : Nat) (rest : List Token) (ahead : position < position + 1 ∧
        position + 1 < (entriesOf tokens lastColumn).length),
      tokens.drop position = ⟨kind, column⟩ :: rest ∧
        eat (entriesOf tokens lastColumn) (some kind) position = .done (some ⟨position + 1, ahead⟩)) ∨
    eat (entriesOf tokens lastColumn) (some kind) position = .done none ∧
      Without tokens position kind := by
  rw [Without]
  cases here : tokens.drop position with
  | nil =>
    refine Or.inr ⟨?_, nofun⟩
    rw [eat, itemAt_end bound here, Outcome.done_bind, if_neg (Option.some_ne_none _).symm]
    rfl
  | cons token rest =>
    obtain ⟨own, column⟩ := token
    by_cases same : own = kind
    · subst same
      obtain ⟨ahead, passed⟩ := pass_token lastColumn here
      refine Or.inl ⟨column, rest, ahead, rfl, ?_⟩
      rw [eat, itemAt_token here, Outcome.done_bind, if_pos rfl, passed]
      rfl
    · refine Or.inr ⟨?_, fun found atHead => ?_⟩
      · rw [eat, itemAt_token here, Outcome.done_bind, if_neg fun equal => same (Option.some.inj equal)]
        rfl
      · obtain rfl := Option.some.inj atHead
        exact same

/-! ### Agreement -/

/-- A part of the reading by positions agrees with the reading of tokens from a place on. It refuses
with the same error, or it comes to a position, and to a place there, from where the same is left. It
never breaches a rule. -/
inductive Agrees {α : Type} (tokens : List Token) (limit lastColumn : Nat) (place : Place)
    (position : Nat) (goal : α → Nat → Place → Prop) : Reading (α × Nat) → Prop
  | done {value next reached} : position ≤ next → next ≤ tokens.length → goal value next reached →
      place.finish limit lastColumn (tokens.drop position) =
        reached.finish limit lastColumn (tokens.drop next) →
      Agrees tokens limit lastColumn place position goal (.done (value, next))
  | refused {error} : place.finish limit lastColumn (tokens.drop position) = .error error →
      Agrees tokens limit lastColumn place position goal (.refused error)

section Rules

variable {α β : Type} {goal : α → Nat → Place → Prop} {aim : β → Nat → Place → Prop}
  {part : Reading (α × Nat)}

/-- What is left at one place is left at another one, further on. -/
theorem Agrees.onward {behind : Nat} (further : position ≤ behind)
    (same : place.finish limit lastColumn (tokens.drop position) =
      reached.finish limit lastColumn (tokens.drop behind))
    (agrees : Agrees tokens limit lastColumn reached behind goal part) :
    Agrees tokens limit lastColumn place position goal part := by
  cases agrees with
  | done later bound holds others =>
    exact .done (Nat.le_trans further later) bound holds (same.trans others)
  | refused others => exact .refused (same.trans others)

/-- A token on, the place is the one behind the token. -/
theorem Agrees.of_next (here : tokens.drop position = token :: rest)
    (step : place.next? limit token = some reached)
    (agrees : Agrees tokens limit lastColumn reached (position + 1) goal part) :
    Agrees tokens limit lastColumn place position goal part := by
  refine .onward (Nat.le_succ position) ?_ agrees
  rw [drop_succ_of_drop here, here, finish_cons_of_next step]

theorem Agrees.mono {wider : α → Nat → Place → Prop}
    (agrees : Agrees tokens limit lastColumn place position goal part)
    (weaker : ∀ value next reached, position ≤ next → goal value next reached →
      wider value next reached) : Agrees tokens limit lastColumn place position wider part := by
  cases agrees with
  | done onward bound holds same => exact .done onward bound (weaker _ _ _ onward holds) same
  | refused same => exact .refused same

/-- One part after another. -/
theorem Agrees.bind {next : α × Nat → Reading (β × Nat)}
    (agrees : Agrees tokens limit lastColumn place position goal part)
    (later : ∀ value behind reached, position ≤ behind → behind ≤ tokens.length →
      goal value behind reached → Agrees tokens limit lastColumn reached behind aim (next (value, behind))) :
    Agrees tokens limit lastColumn place position aim (part >>= next) := by
  cases agrees with
  | done onward bound holds same => exact .onward onward same (later _ _ _ onward bound holds)
  | refused same => exact .refused same

/-- A part that has to consume something, and does. -/
theorem Agrees.consuming_bind
    {next : α × Ahead (entriesOf tokens lastColumn) position → Reading (β × Nat)}
    (agrees : Agrees tokens limit lastColumn place position
      (fun value behind reached => position < behind ∧ goal value behind reached) part)
    (later : ∀ value behind ahead reached, behind ≤ tokens.length → goal value behind reached →
      Agrees tokens limit lastColumn reached behind aim (next (value, ⟨behind, ahead⟩))) :
    Agrees tokens limit lastColumn place position aim
      (consuming (entriesOf tokens lastColumn) position part >>= next) := by
  cases agrees with
  | @done value behind reached onward bound holds same =>
    have ahead : position < behind ∧ behind < (entriesOf tokens lastColumn).length := by
      rw [length_entriesOf]
      exact ⟨holds.1, Nat.lt_succ_of_le bound⟩
    have progress : consuming (entriesOf tokens lastColumn) position (.done (value, behind)) =
        .done (value, ⟨behind, ahead⟩) := dif_pos ahead
    rw [progress]
    exact .onward onward same (later value behind ahead reached bound holds.2)
  | refused same => exact .refused same

/-- The last part settles the outcome of the whole. -/
theorem Agrees.bind_eq {next : α × Nat → Reading Statement}
    (agrees : Agrees tokens limit lastColumn place position goal part)
    (later : ∀ value behind reached, behind ≤ tokens.length → goal value behind reached →
      next (value, behind) = .ofExcept (reached.finish limit lastColumn (tokens.drop behind))) :
    part >>= next = .ofExcept (place.finish limit lastColumn (tokens.drop position)) := by
  cases agrees with
  | done onward bound holds same =>
    rw [same]
    exact later _ _ _ bound holds
  | refused same =>
    rw [same]
    rfl

theorem agrees_refused (here : tokens.drop position = token :: rest)
    (refused : place.next? limit token = none) {fault : SyntaxError}
    (said : place.refuse limit (some token.kind) = fault) :
    Agrees tokens limit lastColumn place position goal (.refused (token.column, fault)) := by
  refine .refused ?_
  rw [here, finish_cons_of_refused refused, said]

theorem agrees_refused_end (here : tokens.drop position = []) (unfinished : place.statement? = none)
    {fault : SyntaxError} (said : place.refuse limit none = fault) :
    Agrees tokens limit lastColumn place position goal (.refused (lastColumn, fault)) := by
  refine .refused ?_
  rw [here, finish_nil_of_unfinished unfinished, said]

/-- A literal is read at a place that takes the tokens with a value, and no other ones. -/
theorem literal_agrees {value? : Token → Option α} {expected : Expected} {taken : α → Place}
    (bound : position ≤ tokens.length)
    (accepts : ∀ token, place.next? limit token = (value? token).map taken)
    (refuses : ∀ found, place.refuse limit found = .unexpected expected found)
    (unfinished : place.statement? = none) :
    Agrees tokens limit lastColumn place position
      (fun value next reached => position < next ∧ reached = taken value)
      (literal (entriesOf tokens lastColumn) expected value? position) := by
  cases here : tokens.drop position with
  | nil =>
    rw [literal, advance_end bound here]
    exact agrees_refused_end here unfinished (refuses none)
  | cons token rest =>
    rw [literal, advance_token here, Outcome.done_bind]
    have step := accepts token
    cases atToken : value? token with
    | none =>
      rw [atToken] at step
      simp only [Option.bind_some, atToken]
      exact agrees_refused here step (refuses _)
    | some value =>
      rw [atToken] at step
      simp only [Option.bind_some, atToken]
      refine .of_next here step (.done (Nat.le_refl _) (lt_length_of_drop here) ⟨?_, rfl⟩ rfl)
      exact Nat.lt_succ_self position

/-- A certain token is read at a place that takes no other one. -/
theorem expect_agrees {kind : TokenKind} {expected : Expected} (bound : position ≤ tokens.length)
    (accepts : ∀ column, place.next? limit ⟨kind, column⟩ = some reached)
    (refuses : ∀ token ∈ (tokens.drop position).head?, token.kind ≠ kind →
      place.next? limit token = none ∧
        place.refuse limit (some token.kind) = .unexpected expected (some token.kind))
    (unfinished : place.statement? = none ∧ place.refuse limit none = .unexpected expected none) :
    Agrees tokens limit lastColumn place position
      (fun (_ : Unit) next behind => position < next ∧ behind = reached)
      (expect (entriesOf tokens lastColumn) (some kind) expected position) := by
  rcases eat_cases lastColumn kind bound with
    ⟨column, rest, ahead, here, eaten⟩ | ⟨left, other⟩
  · rw [expect, eaten, Outcome.done_bind]
    refine .of_next here (accepts column) (.done (Nat.le_refl _) (lt_length_of_drop here) ⟨?_, rfl⟩ rfl)
    exact Nat.lt_succ_self position
  · rw [expect, left, Outcome.done_bind]
    cases here : tokens.drop position with
    | nil =>
      simp only [unexpected, itemAt_end bound here, Outcome.done_bind]
      exact agrees_refused_end here unfinished.1 unfinished.2
    | cons token rest =>
      have atHead : token ∈ (tokens.drop position).head? := by rw [here, List.head?_cons, Option.mem_some]
      obtain ⟨refused, said⟩ := refuses token atHead (other token atHead)
      simp only [unexpected, itemAt_token here, Outcome.done_bind]
      exact agrees_refused here refused said

end Rules

/-! ### Conditions -/

section Conditions

variable {levels : Levels} {name : String}

theorem next?_listStart (other : token.kind ≠ .punctuation .openList) :
    (Place.listStart levels name).next? limit token = none := by
  obtain ⟨kind, column⟩ := token
  cases kind with
  | punctuation sign =>
    cases sign with
    | openList => exact absurd rfl other
    | _ => rfl
  | _ => rfl

theorem next?_listNext {items : List Literal} (noComma : token.kind ≠ .punctuation .comma)
    (other : token.kind ≠ .punctuation .closeList) :
    (Place.listNext levels name items).next? limit token = none := by
  obtain ⟨kind, column⟩ := token
  cases kind with
  | punctuation sign =>
    cases sign with
    | comma => exact absurd rfl noComma
    | closeList => exact absurd rfl other
    | _ => rfl
  | _ => rfl

/-- Each round of the list takes a comma and a literal. -/
theorem moreLiterals_agrees {position : Nat} (items : List Literal) (bound : position ≤ tokens.length) :
    Agrees tokens limit lastColumn (.listNext levels name items.reverse) position
      (fun values next reached => reached = .listNext levels name values.reverse ∧
        Without tokens next (.punctuation .comma))
      (moreLiterals (entriesOf tokens lastColumn) items position) := by
  rw [moreLiterals]
  rcases eat_cases lastColumn (.punctuation .comma) bound with
    ⟨column, rest, ahead, here, eaten⟩ | ⟨left, other⟩
  · have inside := lt_length_of_drop here
    have item : Agrees tokens limit lastColumn (.listItem levels name items.reverse) (position + 1)
        (fun value next reached => position + 1 < next ∧
          reached = .listNext levels name (value :: items.reverse))
        (literal (entriesOf tokens lastColumn) .value Token.literal? (position + 1)) :=
      literal_agrees inside (fun _ => rfl) (fun _ => rfl) rfl
    rw [eaten, Outcome.done_bind]
    refine .of_next here rfl (item.consuming_bind ?_)
    rintro value behind further _ within rfl
    have others := moreLiterals_agrees (items ++ [value]) within
    rw [List.reverse_append, List.reverse_singleton, List.singleton_append] at others
    exact others
  · rw [left, Outcome.done_bind]
    exact .done (Nat.le_refl _) bound ⟨rfl, other⟩ rfl
termination_by tokens.length - position

theorem literals_agrees (bound : position ≤ tokens.length) :
    Agrees tokens limit lastColumn (.listStart levels name) position
      (fun values _ reached => reached = .operandEnd (levels.pushLeaf name (.isIn values)))
      (literals (entriesOf tokens lastColumn) position) := by
  have opening : Agrees tokens limit lastColumn (.listStart levels name) position
      (fun (_ : Unit) next reached => position < next ∧ reached = .listItem levels name [])
      (expect (entriesOf tokens lastColumn) (some (.punctuation .openList)) (.punctuation .openList)
        position) :=
    expect_agrees bound (fun _ => rfl) (fun _ _ other => ⟨next?_listStart other, rfl⟩) ⟨rfl, rfl⟩
  refine opening.bind ?_
  rintro ⟨⟩ next _ _ within ⟨_, rfl⟩
  have item : Agrees tokens limit lastColumn (.listItem levels name []) next
      (fun value behind reached => next < behind ∧ reached = .listNext levels name [value])
      (literal (entriesOf tokens lastColumn) .value Token.literal? next) :=
    literal_agrees within (fun _ => rfl) (fun _ => rfl) rfl
  refine item.bind ?_
  rintro first behind _ _ inside ⟨_, rfl⟩
  refine (moreLiterals_agrees [first] inside).bind ?_
  rintro values last _ _ inTokens ⟨rfl, noComma⟩
  have closing : Agrees tokens limit lastColumn (.listNext levels name values.reverse) last
      (fun (_ : Unit) next reached => last < next ∧
        reached = .operandEnd (levels.pushLeaf name (.isIn values)))
      (expect (entriesOf tokens lastColumn) (some (.punctuation .closeList)) (.punctuation .closeList)
        last) := by
    refine expect_agrees inTokens (fun _ => ?_) (fun token atHead other => ?_) ⟨rfl, rfl⟩
    · simp only [Place.next?, List.reverse_reverse]
    · exact ⟨next?_listNext (noComma token atHead) other, rfl⟩
  refine closing.bind ?_
  rintro ⟨⟩ closed _ _ atClosed ⟨_, rfl⟩
  exact .done (Nat.le_refl _) atClosed rfl rfl

/-- A condition is read behind its name. -/
theorem condition_agrees (bound : position ≤ tokens.length) :
    Agrees tokens limit lastColumn (.operator levels name) position
      (fun node _ reached => reached = .operandEnd (levels.push node))
      (condition (entriesOf tokens lastColumn) name position) := by
  rw [condition]
  cases here : tokens.drop position with
  | nil =>
    rw [advance_end bound here, Outcome.done_bind]
    exact agrees_refused_end here rfl rfl
  | cons token rest =>
    have inside := lt_length_of_drop here
    obtain ⟨kind, column⟩ := token
    rw [advance_token here, Outcome.done_bind]
    cases kind with
    | relation relation =>
      have value : Agrees tokens limit lastColumn (.related levels name relation) (position + 1)
          (fun value next reached => position + 1 < next ∧
            reached = .operandEnd (levels.pushLeaf name (.relate relation value)))
          (literal (entriesOf tokens lastColumn) .value Token.literal? (position + 1)) :=
        literal_agrees inside (fun _ => rfl) (fun _ => rfl) rfl
      refine .of_next here rfl (value.bind ?_)
      rintro read next _ _ within ⟨_, rfl⟩
      exact .done (Nat.le_refl _) within rfl rfl
    | keyword word =>
      cases word with
      | like =>
        have pattern : Agrees tokens limit lastColumn (.pattern levels name) (position + 1)
            (fun value next reached => position + 1 < next ∧
              reached = .operandEnd (levels.pushLeaf name (.like value.1 value.2)))
            (literal (entriesOf tokens lastColumn) .text Token.text? (position + 1)) :=
          literal_agrees inside (fun ⟨kind, _⟩ => by cases kind <;> rfl) (fun _ => rfl) rfl
        refine .of_next here rfl (pattern.bind ?_)
        rintro ⟨read, place⟩ next _ _ within ⟨_, rfl⟩
        exact .done (Nat.le_refl _) within rfl rfl
      | contains =>
        have element : Agrees tokens limit lastColumn (.element levels name) (position + 1)
            (fun value next reached => position + 1 < next ∧
              reached = .operandEnd (levels.pushLeaf name (.contains value.1)))
            (literal (entriesOf tokens lastColumn) .text Token.text? (position + 1)) :=
          literal_agrees inside (fun ⟨kind, _⟩ => by cases kind <;> rfl) (fun _ => rfl) rfl
        refine .of_next here rfl (element.bind ?_)
        rintro ⟨read, place⟩ next _ _ within ⟨_, rfl⟩
        exact .done (Nat.le_refl _) within rfl rfl
      | isIn =>
        refine .of_next here rfl ((literals_agrees inside).bind ?_)
        rintro values next _ _ within rfl
        exact .done (Nat.le_refl _) within rfl rfl
      | _ => exact agrees_refused here rfl rfl
    | _ => exact agrees_refused here rfl rfl

end Conditions

end Cursor

end RecordQuery
