import Mathlib
import RecordQuery.Proofs.Rendering

/-!
How the comparison operators stand to each other when a query is evaluated exactly. Order, membership
and equality are decided apart from each other, and numbers by the kind of word that they fit. All of
them come down to the order of a member relative to a literal, where a whole number is what it is as an
integer. Equality alone also holds between a number and a string that denotes it.
-/

namespace RecordQuery

namespace Record

/-- Whether a whole number fits a signed or an unsigned word. -/
def InRange (number : Int) : Prop :=
  -2 ^ 63 ≤ number ∧ number < 2 ^ 64

/-- Whether a member and a literal are both whole numbers of a word, both strings, or both
booleans. -/
def SameKind : Record → Scalar → Prop
  | .int number, .int _ => InRange number
  | .text _, .text _ => True
  | .bool _, .bool _ => True
  | _, _ => False

/-- Whether one of a member and a literal is a number and the other one a string. -/
def MixesNumberAndText : Record → Scalar → Prop
  | .int _, .text _ => True
  | .float _, .text _ => True
  | .text _, .int _ => True
  | _, _ => False

/-- Whether a record passes the query of a single comparison. -/
def passes (record : Record) (path : List String) (test : Test) : Bool :=
  (Query.ofFilter (.leaf ⟨path, test⟩)).accepts record

variable {record member : Record} {path : List String}

theorem passes_of_resolve (found : record.resolve path = some member) (test : Test) :
    record.passes path test = test.holds member := by
  simp only [passes, Query.ofFilter, Query.accepts, Filter.accepts, Filter.evaluate,
    Comparison.evaluate, found]

theorem passes_of_missing (missing : record.resolve path = none) (test : Test) :
    record.passes path test = test.holdsMissing := by
  simp only [passes, Query.ofFilter, Query.accepts, Filter.accepts, Filter.evaluate,
    Comparison.evaluate, missing]

end Record

/-! ### Numbers -/

namespace Record

variable {number : Int} {bound : Int64}

theorem compare_toInt (left right : Int64) : compare left right = compare left.toInt right.toInt := by
  change compareOfLessAndEq left right = compareOfLessAndEq left.toInt right.toInt
  simp only [compareOfLessAndEq, Int64.lt_iff_toInt_lt, Int64.toInt_inj]

theorem signed?_of_lt (low : -2 ^ 63 ≤ number) (high : number < 2 ^ 63) :
    ∃ word, (int number).signed? = some word ∧ word.toInt = number := by
  have least : Int64.minValue.toInt = -2 ^ 63 := Int64.toInt_minValue
  have greatest : Int64.maxValue.toInt = 2 ^ 63 - 1 := Int64.toInt_maxValue
  have within : Int64.minValue.toInt ≤ number ∧ number ≤ Int64.maxValue.toInt := by omega
  exact ⟨Int64.ofInt number, if_pos within, Int64.toInt_ofInt_of_le low high⟩

theorem signed?_of_le (high : 2 ^ 63 ≤ number) : (int number).signed? = none := by
  have greatest : Int64.maxValue.toInt = 2 ^ 63 - 1 := Int64.toInt_maxValue
  have beyond : ¬(Int64.minValue.toInt ≤ number ∧ number ≤ Int64.maxValue.toInt) := by omega
  exact if_neg beyond

theorem isUnsigned_of_le (high : 2 ^ 63 ≤ number) (fits : InRange number) :
    (int number).isUnsigned = true := by
  have size : (UInt64.size : Int) = 2 ^ 64 := rfl
  have upper : number < 2 ^ 64 := fits.2
  have within : 0 ≤ number ∧ number < UInt64.size := by omega
  exact decide_eq_true within

/-- Whichever words a whole number fits, it is compared as an integer. -/
theorem compareNumber?_int (fits : InRange number) (bound : Int64) :
    (int number).compareNumber? bound = some (compare number bound.toInt) := by
  rw [compareNumber?]
  by_cases high : number < 2 ^ 63
  · obtain ⟨word, signed, same⟩ := signed?_of_lt fits.1 high
    have order : compare word bound = compare number bound.toInt := by rw [compare_toInt, same]
    simp only [signed, order]
  · have beyond : 2 ^ 63 ≤ number := Int.not_lt.mp high
    have above : bound.toInt < number := by
      have limit := Int64.toInt_lt bound
      omega
    have order : compare number bound.toInt = .gt := compare_gt_iff_gt.mpr above
    simp only [signed?_of_le beyond, isUnsigned_of_le beyond fits, if_true, order]

end Record

/-! ### The order of a member relative to literals -/

namespace Scalar

variable {member : Record} {value other : Scalar}

/-- Whether two literals are of one kind and in order: numbers by value, strings by their characters,
and false before true. -/
def AtMost : Scalar → Scalar → Prop
  | .int value, .int other => value.toInt ≤ other.toInt
  | .text value, .text other => value ≤ other
  | .bool value, .bool other => value ≤ other
  | _, _ => False

/-- Strict equality and the order are decided apart from each other, and agree. -/
theorem strictEq_eq_ordering (member : Record) (value : Scalar) :
    strictEq member value = (ordering? member value == some .eq) := by
  have agree {α : Type} [LinearOrder α] (left right : α) :
      decide (left = right) = (some (compare left right) == some .eq) := by
    by_cases same : left = right
    · rw [decide_eq_true same, compare_eq_iff_eq.mpr same]
      rfl
    · have apart : compare left right ≠ .eq := fun equal => same (compare_eq_iff_eq.mp equal)
      rw [decide_eq_false same]
      exact (beq_false_of_ne fun equal => apart (Option.some.inj equal)).symm
  cases member <;> cases value <;> try rfl
  case bool.bool left right => exact agree left right
  case text.text left right => exact agree left right

/-- The order of a number relative to a literal is that of integers if it is a whole one. -/
theorem ordering?_int {number : Int} (fits : Record.InRange number) (bound : Int64) :
    ordering? (.int number) (.int bound) = some (compare number bound.toInt) :=
  Record.compareNumber?_int fits bound

theorem exists_ordering_of_sameKind (same : member.SameKind value) :
    ∃ order, ordering? member value = some order := by
  cases member <;> cases value <;> try exact same.elim
  case bool.bool => exact ⟨_, rfl⟩
  case int.int => exact ⟨_, ordering?_int same _⟩
  case text.text => exact ⟨_, rfl⟩

/-- A member of the literals' kind that is less than the lesser one is less than the greater one, and
one that is greater than the greater one is greater than the lesser one. -/
theorem ordering_of_atMost (same : member.SameKind value) (order : value.AtMost other) :
    (ordering? member value = some .lt → ordering? member other = some .lt) ∧
      (ordering? member other = some .gt → ordering? member value = some .gt) := by
  have between {α : Type} [LinearOrder α] {item low high : α} (order : low ≤ high) :
      (some (compare item low) = some .lt → some (compare item high) = some .lt) ∧
        (some (compare item high) = some .gt → some (compare item low) = some .gt) := by
    simp only [Option.some.injEq, compare_lt_iff_lt, compare_gt_iff_gt]
    exact ⟨fun under => lt_of_lt_of_le under order, fun above => lt_of_le_of_lt order above⟩
  cases value <;> cases other <;> try exact order.elim
  all_goals
    cases member <;> try exact same.elim
  case bool.bool.bool => exact between order
  case int.int.int =>
    rw [ordering?_int same, ordering?_int same]
    exact between order
  case text.text.text => exact between order

/-- Without a number on one side and a string on the other, equality is that within one kind. -/
theorem looseEq_eq_strictEq (pure : ¬member.MixesNumberAndText value) :
    looseEq member value = strictEq member value := by
  cases member <;> cases value <;> first | rfl | exact absurd trivial pure

/-- Values of one kind that are equal are equal for every operator. -/
theorem looseEq_of_strictEq (equal : strictEq member value = true) :
    looseEq member value = true := by
  cases member <;> cases value <;> first | exact equal | cases equal

end Scalar

/-! ### The operators on a member -/

namespace Test

variable {member : Record} {value : Scalar}

theorem holds_isIn_singleton (member : Record) (value : Scalar) :
    (isIn [value]).holds member = (Scalar.ordering? member value == some .eq) := by
  rw [holds, List.any_cons, List.any_nil, Bool.or_false, Scalar.strictEq_eq_ordering]

theorem holds_lt (member : Record) (value : Scalar) :
    (relate .lt value).holds member = (Scalar.ordering? member value == some .lt) := by
  simp only [holds, Relation.holds]
  rcases Scalar.ordering? member value with _ | _ | _ | _ <;> rfl

theorem holds_gt (member : Record) (value : Scalar) :
    (relate .gt value).holds member = (Scalar.ordering? member value == some .gt) := by
  simp only [holds, Relation.holds]
  rcases Scalar.ordering? member value with _ | _ | _ | _ <;> rfl

theorem holds_le (member : Record) (value : Scalar) :
    (relate .le value).holds member =
      ((relate .lt value).holds member || (isIn [value]).holds member) := by
  rw [holds_lt, holds_isIn_singleton]
  simp only [holds, Relation.holds]
  rcases Scalar.ordering? member value with _ | _ | _ | _ <;> rfl

theorem holds_ge (member : Record) (value : Scalar) :
    (relate .ge value).holds member =
      ((relate .gt value).holds member || (isIn [value]).holds member) := by
  rw [holds_gt, holds_isIn_singleton]
  simp only [holds, Relation.holds]
  rcases Scalar.ordering? member value with _ | _ | _ | _ <;> rfl

/-- The three outcomes of comparing with one literal. -/
def outcomes (value : Scalar) : List Test :=
  [relate .lt value, isIn [value], relate .gt value]

/-- An order relative to the literal is one of the three outcomes, and without it there is none. -/
theorem countP_outcomes (member : Record) (value : Scalar) :
    (outcomes value).countP (holds · member) =
      if (Scalar.ordering? member value).isSome then 1 else 0 := by
  simp only [outcomes, List.countP_cons, List.countP_nil, holds_lt, holds_isIn_singleton, holds_gt]
  rcases Scalar.ordering? member value with _ | _ | _ | _ <;> rfl

end Test

namespace Record

variable {record : Record} {path : List String}

theorem passes_ne (record : Record) (path : List String) (value : Scalar) :
    record.passes path (.relate .ne value) = !record.passes path (.relate .eq value) := by
  cases found : record.resolve path with
  | none => simp only [passes_of_missing found, Test.holdsMissing, Bool.not_false]
  | some member => simp only [passes_of_resolve found, Test.holds, Relation.holds]

theorem passes_le (record : Record) (path : List String) (value : Scalar) :
    record.passes path (.relate .le value) =
      (record.passes path (.relate .lt value) || record.passes path (.isIn [value])) := by
  cases found : record.resolve path with
  | none => simp only [passes_of_missing found, Test.holdsMissing, Bool.or_false]
  | some member => simp only [passes_of_resolve found, Test.holds_le]

theorem passes_ge (record : Record) (path : List String) (value : Scalar) :
    record.passes path (.relate .ge value) =
      (record.passes path (.relate .gt value) || record.passes path (.isIn [value])) := by
  cases found : record.resolve path with
  | none => simp only [passes_of_missing found, Test.holdsMissing, Bool.or_false]
  | some member => simp only [passes_of_resolve found, Test.holds_ge]

theorem countP_outcomes_le_one (record : Record) (path : List String) (value : Scalar) :
    (Test.outcomes value).countP (record.passes path) ≤ 1 := by
  cases found : record.resolve path with
  | none => simp [funext (passes_of_missing found), Test.outcomes, Test.holdsMissing]
  | some member =>
    rw [funext (passes_of_resolve found), Test.countP_outcomes]
    split <;> omega

/-- A list has a member among its values only if it equals one of them. -/
theorem exists_eq_of_passes_isIn {values : List Scalar} (listed : record.passes path (.isIn values) = true) :
    ∃ value ∈ values, record.passes path (.relate .eq value) = true := by
  cases found : record.resolve path with
  | none =>
    rw [passes_of_missing found] at listed
    cases listed
  | some member =>
    rw [passes_of_resolve found, Test.holds, List.any_eq_true] at listed
    obtain ⟨value, among, equal⟩ := listed
    refine ⟨value, among, ?_⟩
    rw [passes_of_resolve found]
    exact Scalar.looseEq_of_strictEq equal

theorem passes_isIn_of_eq {values : List Scalar} {value : Scalar} (among : value ∈ values)
    (pure : ∀ member, record.resolve path = some member → ¬member.MixesNumberAndText value)
    (equal : record.passes path (.relate .eq value) = true) :
    record.passes path (.isIn values) = true := by
  cases found : record.resolve path with
  | none =>
    rw [passes_of_missing found] at equal
    cases equal
  | some member =>
    rw [passes_of_resolve found] at equal ⊢
    rw [Test.holds, List.any_eq_true]
    refine ⟨value, among, ?_⟩
    rw [← Scalar.looseEq_eq_strictEq (pure member found)]
    exact equal

/-- The operators agree on every member. Inequality negates equality, the operators with equality add
membership in the list of the literal alone to those without, and no two of less, listed and greater
hold at once. One of them does hold between values of one kind, whole numbers by their value, and then
the literals are in order too. A member of a list equals one of its values, and the other way round
unless a string is taken for the number it denotes. -/
theorem comparisons_coherent (record : Record) (path : List String) (value : Scalar) :
    record.passes path (.relate .ne value) = !record.passes path (.relate .eq value) ∧
    record.passes path (.relate .le value) =
      (record.passes path (.relate .lt value) || record.passes path (.isIn [value])) ∧
    record.passes path (.relate .ge value) =
      (record.passes path (.relate .gt value) || record.passes path (.isIn [value])) ∧
    (Test.outcomes value).countP (record.passes path) ≤ 1 ∧
    (∀ member, record.resolve path = some member → member.SameKind value →
      (Test.outcomes value).countP (record.passes path) = 1 ∧
      ∀ other : Scalar, value.AtMost other →
        (record.passes path (.relate .lt value) = true →
          record.passes path (.relate .lt other) = true) ∧
        (record.passes path (.relate .gt other) = true →
          record.passes path (.relate .gt value) = true)) ∧
    (∀ (number : Int) (bound : Int64), record.resolve path = some (.int number) → InRange number →
      value = .int bound →
      (record.passes path (.relate .lt value) = true ↔ number < bound.toInt) ∧
      (record.passes path (.isIn [value]) = true ↔ number = bound.toInt) ∧
      (record.passes path (.relate .gt value) = true ↔ bound.toInt < number)) ∧
    ∀ values : List Scalar,
      (record.passes path (.isIn values) = true →
        ∃ item ∈ values, record.passes path (.relate .eq item) = true) ∧
      ∀ item ∈ values,
        (∀ member, record.resolve path = some member → ¬member.MixesNumberAndText item) →
        record.passes path (.relate .eq item) = true → record.passes path (.isIn values) = true := by
  refine ⟨passes_ne record path value, passes_le record path value, passes_ge record path value,
    countP_outcomes_le_one record path value, ?_, ?_, fun values => ⟨exists_eq_of_passes_isIn, ?_⟩⟩
  · intro member found same
    obtain ⟨order, ordered⟩ := Scalar.exists_ordering_of_sameKind same
    have one := Test.countP_outcomes member value
    rw [ordered, ← funext (passes_of_resolve found)] at one
    refine ⟨one, fun other order => ?_⟩
    simp only [passes_of_resolve found, Test.holds_lt, Test.holds_gt, beq_iff_eq]
    exact Scalar.ordering_of_atMost same order
  · rintro number bound found fits rfl
    have order := Scalar.ordering?_int fits bound
    refine ⟨?_, ?_, ?_⟩
    · rw [passes_of_resolve found, Test.holds_lt, order, beq_iff_eq, Option.some.injEq, compare_lt_iff_lt]
    · rw [passes_of_resolve found, Test.holds_isIn_singleton, order, beq_iff_eq, Option.some.injEq,
        compare_eq_iff_eq]
    · rw [passes_of_resolve found, Test.holds_gt, order, beq_iff_eq, Option.some.injEq, compare_gt_iff_gt]
  · intro item among pure equal
    exact passes_isIn_of_eq among pure equal

/-- A whole number between literals on either side of it, one of a list that also has its text, and one
that is too large for the words of the literals. -/
theorem comparisons_coherent_number :
    let record : Record := .object [("a", .array [.int 7]), ("b", .int 18446744073709551615)]
    let path := ["a", "0"]
    let values : List Scalar := [.text "7", .int 7]
    (Test.outcomes (.int 9)).countP (record.passes path) = 1 ∧
      record.passes path (.relate .lt (.int 12)) = true ∧
      record.passes path (.relate .gt (.int (-9223372036854775808))) = true ∧
      (record.passes path (.isIn [.int 9]) = true ↔ (7 : Int) = (9 : Int64).toInt) ∧
      record.passes ["b"] (.relate .gt (.int 9223372036854775807)) = true ∧
      (∃ item ∈ values, record.passes path (.relate .eq item) = true) ∧
      record.passes path (.isIn values) = true := by
  intro record path values
  have found : record.resolve path = some (.int 7) := rfl
  have large : record.resolve ["b"] = some (.int 18446744073709551615) := rfl
  have fits : InRange 7 := by unfold InRange; decide
  have fitsLarge : InRange 18446744073709551615 := by unfold InRange; decide
  obtain ⟨_, _, _, _, high, numbers, lists⟩ := comparisons_coherent record path (.int 9)
  obtain ⟨_, _, _, _, low, _⟩ := comparisons_coherent record path (.int (-9223372036854775808))
  obtain ⟨_, _, _, _, _, beyond, _⟩ := comparisons_coherent record ["b"] (.int 9223372036854775807)
  obtain ⟨one, above⟩ := high _ found fits
  obtain ⟨_, under⟩ := low _ found fits
  have more : (Scalar.int 9).AtMost (.int 12) := by unfold Scalar.AtMost; decide
  have less : (Scalar.int (-9223372036854775808)).AtMost (.int 3) := by unfold Scalar.AtMost; decide
  have pure : ∀ member, record.resolve path = some member → ¬member.MixesNumberAndText (.int 7) := by
    intro member same
    obtain rfl := Option.some.inj (found.symm.trans same)
    exact id
  refine ⟨one, (above _ more).1 (by decide), (under _ less).2 (by decide),
    (numbers 7 9 found fits rfl).2.1, (beyond _ _ large fitsLarge rfl).2.2.mpr (by decide),
    (lists values).1 (by decide), ?_⟩
  exact (lists values).2 (.int 7) (List.mem_cons_of_mem _ List.mem_cons_self) pure (by decide)

end Record

end RecordQuery
