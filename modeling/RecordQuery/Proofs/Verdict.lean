import RecordQuery.Filter.Evaluate

namespace RecordQuery

/-- The verdict on two conditions in a row. The second is asked only if the first leaves the
decision to it, so what it assumes counts only then. -/
def Verdict.followedBy (connective : Connective) (first second : Verdict) : Verdict :=
  if first.matched = connective.neutral then ⟨second.matched, first.assumed || second.assumed⟩
  else first

/-- The verdict of a node without children, which leaves every decision to the others. -/
def Verdict.neutral (connective : Connective) : Verdict :=
  ⟨connective.neutral, false⟩

namespace Verdict

variable {connective : Connective}

theorem followedBy_neutral (verdict : Verdict) :
    verdict.followedBy connective (.neutral connective) = verdict := by
  obtain ⟨matched, assumed⟩ := verdict
  by_cases undecided : matched = connective.neutral <;> simp [followedBy, neutral, undecided]

theorem neutral_followedBy (verdict : Verdict) :
    (neutral connective).followedBy connective verdict = verdict := by
  simp [followedBy, neutral]

theorem followedBy_assoc (first second third : Verdict) :
    (first.followedBy connective second).followedBy connective third =
      first.followedBy connective (second.followedBy connective third) := by
  by_cases atFirst : first.matched = connective.neutral
  · by_cases atSecond : second.matched = connective.neutral <;>
      simp [followedBy, atFirst, atSecond, Bool.or_assoc]
  · simp [followedBy, atFirst]

theorem followedBy_and (first second : Verdict) :
    first.followedBy .and second =
      ⟨first.matched && second.matched, first.assumed || (first.matched && second.assumed)⟩ := by
  obtain ⟨matched, assumed⟩ := first
  cases matched <;> simp [followedBy, Connective.neutral]

theorem followedBy_or (first second : Verdict) :
    first.followedBy .or second =
      ⟨first.matched || second.matched, first.assumed || (!first.matched && second.assumed)⟩ := by
  obtain ⟨matched, assumed⟩ := first
  cases matched <;> simp [followedBy, Connective.neutral]

end Verdict

namespace Filter

variable {mode : Mode} {record : Record} {connective : Connective}

@[simp] theorem evaluateAll_nil :
    evaluateAll mode record connective [] = .neutral connective := rfl

@[simp] theorem evaluateAll_cons (child : Filter) (rest : List Filter) :
    evaluateAll mode record connective (child :: rest) =
      (child.evaluate mode record).followedBy connective (evaluateAll mode record connective rest) :=
  rfl

@[simp] theorem evaluate_node (children : List Filter) :
    (node connective children).evaluate mode record = evaluateAll mode record connective children :=
  rfl

/-- A list of children may be cut anywhere: its front part is asked first. -/
theorem evaluateAll_append (left right : List Filter) :
    evaluateAll mode record connective (left ++ right) =
      (evaluateAll mode record connective left).followedBy connective
        (evaluateAll mode record connective right) := by
  induction left with
  | nil => rw [List.nil_append, evaluateAll_nil, Verdict.neutral_followedBy]
  | cons child rest ih =>
    rw [List.cons_append, evaluateAll_cons, ih, evaluateAll_cons, Verdict.followedBy_assoc]

theorem evaluateAll_singleton (child : Filter) :
    evaluateAll mode record connective [child] = child.evaluate mode record := by
  rw [evaluateAll_cons, evaluateAll_nil, Verdict.followedBy_neutral]

end Filter

end RecordQuery
