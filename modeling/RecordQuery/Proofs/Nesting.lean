import RecordQuery.Proofs.Derivation

/-!
What the limit on nesting does to the reading of a text: it decides about parentheses that open, and
about nothing else.
-/

namespace RecordQuery

/-- Whether an error says that groups nest too deep. -/
def SyntaxError.isNesting : SyntaxError → Bool
  | .nestedTooDeep _ => true
  | _ => false

/-! ### Groups that are open between tokens -/

/-- How many groups are open behind a token if so many are open before it. -/
def TokenKind.depthAfter (depth : Nat) : TokenKind → Nat
  | .punctuation .openGroup => depth + 1
  | .punctuation .closeGroup => depth - 1
  | _ => depth

theorem TokenKind.depthAfter_le {kind : TokenKind} (other : kind ≠ .punctuation .openGroup)
    (depth : Nat) : kind.depthAfter depth ≤ depth := by
  unfold depthAfter
  split
  · exact absurd rfl other
  · exact Nat.sub_le depth 1
  · exact Nat.le_refl depth

namespace Token

/-- How many groups are open behind some tokens. -/
def openGroups (depth : Nat) (tokens : List Token) : Nat :=
  tokens.foldl (fun depth token => token.kind.depthAfter depth) depth

/-- The greatest number of groups that are open at once. -/
def nesting (depth : Nat) : List Token → Nat
  | [] => depth
  | token :: rest => max depth (nesting (token.kind.depthAfter depth) rest)

theorem le_nesting (depth : Nat) (tokens : List Token) : depth ≤ nesting depth tokens := by
  cases tokens with
  | nil => exact Nat.le_refl depth
  | cons token rest => exact Nat.le_max_left _ _

/-- Without an opening parenthesis the nesting does not grow. -/
theorem nesting_eq_of_no_openGroup {tokens : List Token}
    (none : ∀ token ∈ tokens, token.kind ≠ .punctuation .openGroup) (depth : Nat) :
    nesting depth tokens = depth := by
  induction tokens generalizing depth with
  | nil => rfl
  | cons token rest ih =>
    obtain ⟨atToken, atRest⟩ := List.forall_mem_cons.mp none
    rw [nesting, ih atRest]
    exact Nat.max_eq_left (TokenKind.depthAfter_le atToken depth)

/-- Whether a column is that of the first opening parenthesis that stands inside so many others. -/
def OpensInside (start depth : Nat) (tokens : List Token) (column : Nat) : Prop :=
  ∃ front token back, tokens = front ++ token :: back ∧ column = token.column ∧
    token.kind = .punctuation .openGroup ∧ openGroups start front = depth ∧
    ∀ earlier other between, front = earlier ++ other :: between →
      other.kind = .punctuation .openGroup → openGroups start earlier ≠ depth

theorem OpensInside.cons {start depth column : Nat} {token : Token} {rest : List Token}
    (opens : OpensInside (token.kind.depthAfter start) depth rest column)
    (before : token.kind = .punctuation .openGroup → start ≠ depth) :
    OpensInside start depth (token :: rest) column := by
  obtain ⟨front, opening, back, rfl, atColumn, isGroup, inside, first⟩ := opens
  refine ⟨token :: front, opening, back, rfl, atColumn, isGroup, inside, ?_⟩
  intro earlier other between split otherIsGroup
  rcases List.cons_eq_append_iff.mp split with ⟨rfl, same⟩ | ⟨tail, rfl, same⟩
  · obtain ⟨rfl, _⟩ := List.cons.inj same
    exact before otherIsGroup
  · exact first tail other between same otherIsGroup

end Token

/-! ### One token under different limits -/

namespace Place

variable {place reached : Place} {token : Token} {kind : TokenKind} {levels : Levels}
  {read : Statement} {keys : List SortKey} {limit shallow deep : Nat}

/-- How many groups are open at a place. -/
def depth : Place → Nat
  | .operand levels => levels.depth
  | .operator levels _ => levels.depth
  | .related levels _ _ => levels.depth
  | .pattern levels _ => levels.depth
  | .element levels _ => levels.depth
  | .listStart levels _ => levels.depth
  | .listItem levels _ _ => levels.depth
  | .listNext levels _ _ => levels.depth
  | .operandEnd levels => levels.depth
  | _ => 0

theorem depth_of_clause? (next : clause? read kind = some reached) :
    reached.depth = kind.depthAfter 0 := by
  unfold clause? at next
  split at next <;> cases next <;> rfl

theorem depth_of_afterOperandStart? (next : afterOperandStart? limit levels kind = some reached) :
    reached.depth = kind.depthAfter levels.depth := by
  unfold afterOperandStart? at next
  split at next
  · cases next
    rfl
  · split at next
    · cases next
      rfl
    · cases next
  · cases next

theorem depth_of_afterOperator? {name : String}
    (next : afterOperator? levels name kind = some reached) :
    reached.depth = kind.depthAfter levels.depth := by
  unfold afterOperator? at next
  split at next <;> cases next <;> rfl

theorem depth_of_afterOperandEnd? (next : afterOperandEnd? levels kind = some reached) :
    reached.depth = kind.depthAfter levels.depth := by
  unfold afterOperandEnd? at next
  split at next
  · cases next
    rfl
  · cases next
    rfl
  · obtain ⟨left, atLeft, rfl⟩ := Option.map_eq_some_iff.mp next
    unfold Levels.leave? at atLeft
    split at atLeft
    · cases atLeft
    · rename_i level outer atOuter
      cases atLeft
      simp only [depth, Levels.depth, atOuter, List.length_cons, TokenKind.depthAfter,
        Nat.add_sub_cancel]
  · split at next
    · rename_i outermost
      rw [outermost]
      exact depth_of_clause? next
    · cases next

theorem depth_of_afterSortKey? (next : afterSortKey? read keys kind = some reached) :
    reached.depth = kind.depthAfter 0 := by
  unfold afterSortKey? clauseAfterOrder? at next
  split at next
  · cases next
    rfl
  · split at next <;> cases next <;> rfl

theorem depth_of_afterSortField? {field : String}
    (next : afterSortField? read keys field kind = some reached) :
    reached.depth = kind.depthAfter 0 := by
  unfold afterSortField? at next
  split at next
  · cases next
    rfl
  · cases next
    rfl
  · exact depth_of_afterSortKey? next

/-- Parentheses alone change how many groups are open. -/
theorem depth_of_next? (next : place.next? limit token = some reached) :
    reached.depth = token.kind.depthAfter place.depth := by
  have ofLiteral {depth : Nat} {literal : Literal} (isLiteral : token.literal? = some literal) :
      token.kind.depthAfter depth = depth := by
    obtain ⟨written, atKind⟩ := Token.exists_written isLiteral
    rw [atKind]
    cases written <;> rfl
  unfold next? at next
  split at next
  case h_1 =>
    rcases Option.or_eq_some_iff.mp next with clause | ⟨_, operand⟩
    · exact depth_of_clause? clause
    · exact depth_of_afterOperandStart? operand
  case h_2 => exact depth_of_afterOperandStart? next
  case h_3 => exact depth_of_afterOperator? next
  case h_4 | h_8 =>
    obtain ⟨literal, isLiteral, rfl⟩ := Option.map_eq_some_iff.mp next
    exact (ofLiteral isLiteral).symm
  case h_11 => exact depth_of_afterOperandEnd? next
  case h_14 => exact depth_of_afterSortField? next
  case h_15 => exact depth_of_afterSortKey? next
  case h_19 => cases next
  all_goals
    rename_i atKind
    cases next
    rw [atKind]
    rfl

/-- A token that opens no group is taken or not under every limit alike. -/
theorem next?_eq_of_ne (other : token.kind ≠ .punctuation .openGroup) (shallow deep : Nat) :
    place.next? shallow token = place.next? deep token := by
  have operand (levels : Levels) :
      afterOperandStart? shallow levels token.kind = afterOperandStart? deep levels token.kind := by
    unfold afterOperandStart?
    split
    · rfl
    · rename_i isGroup
      exact absurd isGroup other
    · rfl
  cases place with
  | start => exact congrArg (Option.or (clause? (ofExpression none) token.kind)) (operand .empty)
  | operand levels => exact operand levels
  | _ =>
    obtain ⟨kind, column⟩ := token
    cases kind with
    | keyword word => cases word <;> rfl
    | punctuation sign => cases sign <;> rfl
    | _ => rfl

theorem refuse_operandEnd (levels : Levels) (found : Option TokenKind) :
    ∃ fault : SyntaxError, fault.isNesting = false ∧
      ∀ limit, (operandEnd levels).refuse limit found = fault := by
  by_cases outermost : levels.depth = 0
  · exact ⟨_, rfl, fun _ => if_pos outermost⟩
  · exact ⟨_, rfl, fun _ => if_neg outermost⟩

theorem refuse_of_ne (place : Place) (found : Option TokenKind)
    (other : found ≠ some (.punctuation .openGroup)) :
    ∃ fault : SyntaxError, fault.isNesting = false ∧ ∀ limit, place.refuse limit found = fault := by
  have operand : ∃ fault : SyntaxError, fault.isNesting = false ∧
      ∀ limit, refuseOperand limit found = fault := by
    cases found with
    | none => exact ⟨_, rfl, fun _ => rfl⟩
    | some kind =>
      cases kind with
      | punctuation sign =>
        cases sign with
        | openGroup => exact absurd rfl other
        | _ => exact ⟨_, rfl, fun _ => rfl⟩
      | _ => exact ⟨_, rfl, fun _ => rfl⟩
  cases place with
  | start | operand => exact operand
  | operandEnd levels => exact refuse_operandEnd levels found
  | _ => exact ⟨_, rfl, fun _ => rfl⟩

/-- What a token does at a place: it opens a group, which alone depends on the limit, or it leads on, or
it cannot stand there. -/
inductive Move (place : Place) (token : Token) : Prop
  | opens (inner : Place) : token.kind = .punctuation .openGroup →
      (∀ limit, place.next? limit token = if place.depth < limit then some inner else none) →
      (∀ limit, place.refuse limit (some token.kind) = .nestedTooDeep limit) → Move place token
  | leads (reached : Place) : token.kind ≠ .punctuation .openGroup →
      (∀ limit, place.next? limit token = some reached) → Move place token
  | stops (fault : SyntaxError) : fault.isNesting = false →
      (∀ limit, place.next? limit token = none) →
      (∀ limit, place.refuse limit (some token.kind) = fault) → Move place token

theorem move (place : Place) (token : Token) : place.Move token := by
  by_cases isGroup : token.kind = .punctuation .openGroup
  · obtain ⟨kind, column⟩ := token
    obtain rfl : kind = .punctuation .openGroup := isGroup
    cases place with
    | start => exact .opens (.operand Levels.empty.enter) rfl (fun _ => rfl) fun _ => rfl
    | operand levels => exact .opens (.operand levels.enter) rfl (fun _ => rfl) fun _ => rfl
    | operandEnd levels =>
      obtain ⟨fault, plain, said⟩ := refuse_operandEnd levels (some (.punctuation .openGroup))
      exact .stops fault plain (fun _ => ite_self none) said
    | _ => exact .stops _ rfl (fun _ => rfl) fun _ => rfl
  · obtain ⟨fault, plain, said⟩ := place.refuse_of_ne (some token.kind)
      fun same => isGroup (Option.some.inj same)
    cases next : place.next? 0 token with
    | none => exact .stops fault plain (fun limit => (next?_eq_of_ne isGroup limit 0).trans next) said
    | some reached => exact .leads reached isGroup fun limit => (next?_eq_of_ne isGroup limit 0).trans next

/-! ### A run under different limits -/

variable {tokens : List Token} {final : Place} {column bound : Nat} {fault : SyntaxError}

theorem run_cons_of_next {rest : List Token} (next : place.next? limit token = some reached) :
    run limit place (token :: rest) = run limit reached rest := by
  rw [run, next]

theorem run_cons_of_refused (rest : List Token) (refused : place.next? limit token = none) :
    run limit place (token :: rest) = .error (token.column, place.refuse limit (some token.kind)) := by
  rw [run, refused]

/-- A greater limit changes nothing unless groups nest too deep for the lesser one. -/
theorem run_eq_of_not_nesting (more : shallow ≤ deep)
    (other : ∀ column, run shallow place tokens ≠ .error (column, .nestedTooDeep shallow)) :
    run deep place tokens = run shallow place tokens := by
  induction tokens generalizing place with
  | nil => rfl
  | cons token rest ih =>
    rcases place.move token with ⟨inner, _, next, refuse⟩ | ⟨reached, _, next⟩ | ⟨fault, _, next, refuse⟩
    · by_cases room : place.depth < shallow
      · have atShallow := (next shallow).trans (if_pos room)
        have atDeep := (next deep).trans (if_pos (Nat.lt_of_lt_of_le room more))
        rw [run_cons_of_next atShallow] at other
        rw [run_cons_of_next atShallow, run_cons_of_next atDeep]
        exact ih other
      · have stuck := run_cons_of_refused rest ((next shallow).trans (if_neg room))
        rw [refuse] at stuck
        exact absurd stuck (other token.column)
    · rw [run_cons_of_next (next shallow)] at other
      rw [run_cons_of_next (next shallow), run_cons_of_next (next deep)]
      exact ih other
    · rw [run_cons_of_refused rest (next shallow), run_cons_of_refused rest (next deep), refuse, refuse]

/-- Groups nest too deep at the first one that opens inside as many as the limit allows. -/
theorem opensInside_of_run (failed : run limit place tokens = .error (column, fault))
    (nesting : fault.isNesting = true) (within : place.depth ≤ limit) :
    fault = .nestedTooDeep limit ∧ Token.OpensInside place.depth limit tokens column := by
  induction tokens generalizing place with
  | nil => cases failed
  | cons token rest ih =>
    rcases place.move token with ⟨inner, isGroup, next, refuse⟩ | ⟨reached, other, next⟩ |
      ⟨stopped, plain, next, refuse⟩
    · by_cases room : place.depth < limit
      · have step := (next limit).trans (if_pos room)
        have inside := depth_of_next? step
        have deeper : inner.depth = place.depth + 1 := by rw [inside, isGroup]; rfl
        rw [run_cons_of_next step] at failed
        obtain ⟨atLimit, opens⟩ := ih failed (by omega)
        rw [inside] at opens
        exact ⟨atLimit, opens.cons fun _ => Nat.ne_of_lt room⟩
      · rw [run_cons_of_refused rest ((next limit).trans (if_neg room)), refuse] at failed
        cases failed
        refine ⟨rfl, [], token, rest, rfl, rfl, isGroup, ?_, ?_⟩
        · exact Nat.le_antisymm within (Nat.le_of_not_lt room)
        · intro earlier opening between split
          cases List.append_ne_nil_of_right_ne_nil earlier (List.cons_ne_nil _ _) split.symm
    · have inside := depth_of_next? (next limit)
      have shallower := TokenKind.depthAfter_le other place.depth
      rw [run_cons_of_next (next limit)] at failed
      obtain ⟨atLimit, opens⟩ := ih failed (by omega)
      rw [inside] at opens
      exact ⟨atLimit, opens.cons fun isGroup => absurd isGroup other⟩
    · rw [run_cons_of_refused rest (next limit), refuse] at failed
      cases failed
      rw [plain] at nesting
      cases nesting

/-- Where groups nest too deep for a limit they do so for every lesser one, if not later. -/
theorem run_error_of_shallower (failed : run limit place tokens = .error (column, .nestedTooDeep limit))
    (within : place.depth ≤ shallow) (less : shallow < limit) :
    ∃ earlier, run shallow place tokens = .error (earlier, .nestedTooDeep shallow) := by
  induction tokens generalizing place with
  | nil => cases failed
  | cons token rest ih =>
    rcases place.move token with ⟨inner, isGroup, next, refuse⟩ | ⟨reached, other, next⟩ |
      ⟨stopped, plain, next, refuse⟩
    · have step := (next limit).trans (if_pos (Nat.lt_of_le_of_lt within less))
      by_cases room : place.depth < shallow
      · have inside := depth_of_next? step
        rw [isGroup, TokenKind.depthAfter] at inside
        rw [run_cons_of_next step] at failed
        rw [run_cons_of_next ((next shallow).trans (if_pos room))]
        exact ih failed (by omega)
      · rw [run_cons_of_refused rest ((next shallow).trans (if_neg room)), refuse]
        exact ⟨token.column, rfl⟩
    · have inside := depth_of_next? (next limit)
      have shallower := TokenKind.depthAfter_le other place.depth
      rw [run_cons_of_next (next limit)] at failed
      rw [run_cons_of_next (next shallow)]
      exact ih failed (by omega)
    · rw [run_cons_of_refused rest (next limit), refuse] at failed
      cases failed
      cases plain

/-- A run that comes to its end does so under every limit that its nesting stays within, and under no
other one. -/
theorem run_of_nesting (ran : run limit place tokens = .ok final) (within : place.depth ≤ bound) :
    (Token.nesting place.depth tokens ≤ bound → run bound place tokens = .ok final) ∧
      (bound < Token.nesting place.depth tokens →
        ∃ column, run bound place tokens = .error (column, .nestedTooDeep bound)) := by
  induction tokens generalizing place with
  | nil => exact ⟨fun _ => ran, fun beyond => absurd within (Nat.not_le.mpr beyond)⟩
  | cons token rest ih =>
    obtain ⟨following, step, onward⟩ := exists_next_of_run ran
    have inside := depth_of_next? step
    have same (atBound : place.next? bound token = some following) (room : following.depth ≤ bound) :
        (max place.depth (Token.nesting following.depth rest) ≤ bound →
          run bound place (token :: rest) = .ok final) ∧
        (bound < max place.depth (Token.nesting following.depth rest) →
          ∃ column, run bound place (token :: rest) = .error (column, .nestedTooDeep bound)) := by
      obtain ⟨reaches, fails⟩ := ih onward room
      rw [run_cons_of_next atBound]
      exact ⟨fun enough => reaches (by omega), fun beyond => fails (by omega)⟩
    rw [Token.nesting, ← inside]
    rcases place.move token with ⟨inner, isGroup, next, refuse⟩ | ⟨reached, other, next⟩ | ⟨stopped, _, next, _⟩
    · rw [isGroup, TokenKind.depthAfter] at inside
      rw [next] at step
      split at step
      · cases step
        by_cases room : place.depth < bound
        · exact same ((next bound).trans (if_pos room)) (by omega)
        · have most := Token.le_nesting following.depth rest
          rw [run_cons_of_refused rest ((next bound).trans (if_neg room)), refuse]
          exact ⟨fun enough => by omega, fun _ => ⟨token.column, rfl⟩⟩
      · cases step
    · have shallower := TokenKind.depthAfter_le other place.depth
      rw [next] at step
      cases step
      exact same (next bound) (by omega)
    · rw [next] at step
      cases step

end Place

end RecordQuery
