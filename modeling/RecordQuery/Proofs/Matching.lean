import Mathlib
import RecordQuery.Like.Pattern

namespace RecordQuery.Like

/-- Marks along a text are right for a statement if each of them tells whether the statement holds of
what is left of the text at its place. -/
inductive Marked (holds : List Char → Prop) : List Char → List Bool → Prop
  | stop {mark : Bool} : (mark = true ↔ holds []) → Marked holds [] [mark]
  | next {c : Char} {text : List Char} {mark : Bool} {marks : List Bool} :
      (mark = true ↔ holds (c :: text)) → Marked holds text marks →
      Marked holds (c :: text) (mark :: marks)

/-- The lengths that a count allows for a run of characters. -/
def Count.Allows : Count → Nat → Prop
  | .one, length => length = 1
  | .oneOrMore, length => 0 < length
  | .anyNumber, _ => True

/-- Whether a text begins with a run of accepted characters of an allowed length, and a statement
holds of what is left behind it. -/
def Run (accepts : Char → Bool) (count : Count) (holds : List Char → Prop) (text : List Char) : Prop :=
  ∃ front back, text = front ++ back ∧ count.Allows front.length ∧
    (∀ c ∈ front, accepts c = true) ∧ holds back

variable {holds others : List Char → Prop} {accepts : Char → Bool} {text : List Char}
  {marks after : List Bool}

namespace Run

theorem not_nil_of_pos {count : Count} (positive : ∀ length, count.Allows length → 0 < length) :
    ¬Run accepts count holds [] := by
  rintro ⟨front, back, split, allowed, _, _⟩
  have empty := (List.append_eq_nil_iff.mp split.symm).1
  have nonempty := positive _ allowed
  rw [empty] at nonempty
  exact Nat.lt_irrefl 0 nonempty

theorem one_cons_iff {c : Char} :
    Run accepts .one holds (c :: text) ↔ accepts c = true ∧ holds text := by
  constructor
  · rintro ⟨front, back, split, allowed, accepted, rest⟩
    obtain ⟨first, rfl⟩ := List.length_eq_one_iff.mp allowed
    obtain ⟨rfl, rfl⟩ := List.cons.inj split
    exact ⟨accepted c List.mem_cons_self, rest⟩
  · rintro ⟨accepted, rest⟩
    exact ⟨[c], text, rfl, rfl, List.forall_mem_singleton.mpr accepted, rest⟩

/-- After its first character a run has ended or goes on. -/
theorem oneOrMore_cons_iff {c : Char} :
    Run accepts .oneOrMore holds (c :: text) ↔
      accepts c = true ∧ (holds text ∨ Run accepts .oneOrMore holds text) := by
  constructor
  · rintro ⟨front, back, split, allowed, accepted, rest⟩
    obtain ⟨first, front, rfl⟩ := List.exists_cons_of_length_pos allowed
    obtain ⟨rfl, rfl⟩ := List.cons.inj split
    obtain ⟨acceptedFirst, acceptedFront⟩ := List.forall_mem_cons.mp accepted
    refine ⟨acceptedFirst, ?_⟩
    cases front with
    | nil => exact Or.inl rest
    | cons next front =>
      exact Or.inr ⟨next :: front, back, rfl, Nat.succ_pos _, acceptedFront, rest⟩
  · rintro ⟨accepted, rest | ⟨front, back, rfl, _, acceptedFront, rest⟩⟩
    · exact ⟨[c], text, rfl, Nat.one_pos, List.forall_mem_singleton.mpr accepted, rest⟩
    · exact ⟨c :: front, back, rfl, Nat.succ_pos _,
        List.forall_mem_cons.mpr ⟨accepted, acceptedFront⟩, rest⟩

theorem anyNumber_iff :
    Run accepts .anyNumber holds text ↔ holds text ∨ Run accepts .oneOrMore holds text := by
  constructor
  · rintro ⟨front, back, rfl, _, accepted, rest⟩
    cases front with
    | nil => exact Or.inl rest
    | cons first front => exact Or.inr ⟨first :: front, back, rfl, Nat.succ_pos _, accepted, rest⟩
  · rintro (rest | ⟨front, back, rfl, _, accepted, rest⟩)
    · exact ⟨[], text, rfl, trivial, List.forall_mem_nil _, rest⟩
    · exact ⟨front, back, rfl, trivial, accepted, rest⟩

end Run

namespace Marked

theorem congr (marked : Marked holds text marks) (same : ∀ rest, holds rest ↔ others rest) :
    Marked others text marks :=
  (funext fun rest => propext (same rest) : holds = others) ▸ marked

theorem headD_iff (marked : Marked holds text marks) : marks.headD false = true ↔ holds text := by
  cases marked with
  | stop here => exact here
  | next here _ => exact here

theorem everywhere (text : List Char) :
    Marked (fun _ => True) text (List.replicate (text.length + 1) true) := by
  induction text with
  | nil => exact .stop (iff_of_true rfl trivial)
  | cons c text ih => exact .next (iff_of_true rfl trivial) ih

theorem or (left : Marked holds text marks) (right : Marked others text after) :
    Marked (fun rest => holds rest ∨ others rest) text (List.zipWith (· || ·) marks after) := by
  induction left generalizing after with
  | stop here =>
    cases right with
    | stop there => exact .stop (by rw [Bool.or_eq_true, here, there])
  | next here _ ih =>
    cases right with
    | next there later => exact .next (by rw [Bool.or_eq_true, here, there]) (ih later)

/-- Some mark is set if and only if the statement holds somewhere along the text. -/
theorem any_iff (marked : Marked holds text marks) :
    marks.any id = true ↔ ∃ before rest, text = before ++ rest ∧ holds rest := by
  induction marked with
  | stop here =>
    rw [List.any_cons, List.any_nil, Bool.or_false, id_eq, here]
    constructor
    · exact fun holds => ⟨[], [], rfl, holds⟩
    · rintro ⟨before, rest, split, atRest⟩
      rwa [(List.append_eq_nil_iff.mp split.symm).2] at atRest
  | @next c text mark marks here _ ih =>
    rw [List.any_cons, Bool.or_eq_true, id_eq, here, ih]
    constructor
    · rintro (holds | ⟨before, rest, rfl, holds⟩)
      · exact ⟨[], c :: text, rfl, holds⟩
      · exact ⟨c :: before, rest, rfl, holds⟩
    · rintro ⟨before, rest, split, atRest⟩
      cases before with
      | nil => exact Or.inl (split ▸ atRest)
      | cons first before => exact Or.inr ⟨before, rest, (List.cons.inj split).2, atRest⟩

theorem before_one (marked : Marked holds text after) :
    Marked (Run accepts .one holds) text (marksBefore accepts text after) := by
  induction marked with
  | stop =>
    have never : ¬Run accepts .one holds [] :=
      Run.not_nil_of_pos fun length allowed => allowed.symm ▸ Nat.one_pos
    exact .stop (iff_of_false Bool.false_ne_true never)
  | next _ later ih =>
    refine .next ?_ ih
    rw [Bool.and_eq_true, later.headD_iff, Run.one_cons_iff]

theorem before_oneOrMore (marked : Marked holds text after) :
    Marked (Run accepts .oneOrMore holds) text (marksBeforeRun accepts text after) := by
  induction marked with
  | stop =>
    have never : ¬Run accepts .oneOrMore holds [] := Run.not_nil_of_pos fun _ positive => positive
    exact .stop (iff_of_false Bool.false_ne_true never)
  | next _ later ih =>
    refine .next ?_ ih
    rw [Bool.and_eq_true, Bool.or_eq_true, later.headD_iff, ih.headD_iff, Run.oneOrMore_cons_iff]

/-- The marks before a run are right if those behind it are. -/
theorem run (marked : Marked holds text after) (count : Count) :
    Marked (Run accepts count holds) text (marksOfRun accepts count text after) := by
  cases count with
  | one => exact marked.before_one
  | oneOrMore => exact marked.before_oneOrMore
  | anyNumber =>
    exact (marked.or marked.before_oneOrMore).congr fun rest => Run.anyNumber_iff.symm

end Marked

end RecordQuery.Like
