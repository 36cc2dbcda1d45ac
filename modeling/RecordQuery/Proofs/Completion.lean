import RecordQuery.Prefilter
import RecordQuery.Proofs.Verdict

namespace RecordQuery

/-- A record of which the other one knows more: an object may have further members at any depth,
and everything else stays as it is. -/
inductive Record.Extends : Record → Record → Prop
  | null : Extends .null .null
  | bool (value : Bool) : Extends (.bool value) (.bool value)
  | int (value : Int) : Extends (.int value) (.int value)
  | float (value : Double) : Extends (.float value) (.float value)
  | text (value : String) : Extends (.text value) (.text value)
  | array {items others : List Record} (length : items.length = others.length)
      (grown : ∀ (position : Nat) (item other : Record), items[position]? = some item →
        others[position]? = some other → Extends item other) :
      Extends (.array items) (.array others)
  | object {members others : List (String × Record)}
      (kept : ∀ name, (lookup name members).isSome → (lookup name others).isSome)
      (grown : ∀ (name : String) (member other : Record), lookup name members = some member →
        lookup name others = some other → Extends member other) :
      Extends (.object members) (.object others)

namespace Record

/-- A member that is found is one of the members, so it is smaller than the object. -/
theorem lookup_mem {name : String} {members : List (String × Record)} {value : Record}
    (found : lookup name members = some value) : (name, value) ∈ members := by
  induction members with
  | nil => simp at found
  | cons member rest ih =>
    rw [lookup] at found
    split at found
    · rename_i same
      obtain rfl := Option.some.inj found
      exact same ▸ List.mem_cons_self
    · exact List.mem_cons_of_mem _ (ih found)

theorem Extends.refl (record : Record) : record.Extends record := by
  match record with
  | .null => exact .null
  | .bool value => exact .bool value
  | .int value => exact .int value
  | .float value => exact .float value
  | .text value => exact .text value
  | .array items =>
    refine .array rfl fun position item other atItem atOther => ?_
    obtain rfl := Option.some.inj (atItem.symm.trans atOther)
    have smaller := List.sizeOf_lt_of_mem (List.mem_of_getElem? atItem)
    exact Extends.refl item
  | .object members =>
    refine .object (fun _ found => found) fun name member other atMember atOther => ?_
    obtain rfl := Option.some.inj (atMember.symm.trans atOther)
    have smaller := List.sizeOf_lt_of_mem (lookup_mem atMember)
    exact Extends.refl member
termination_by record
decreasing_by
  · rw [array.sizeOf_spec]
    omega
  · rw [Prod.mk.sizeOf_spec] at smaller
    rw [object.sizeOf_spec]
    omega

/-- An object is extended by a member that is new, or that knows more than the one before. -/
theorem Extends.insert {name : String} {value : Record} {members : List (String × Record)}
    (grew : ∀ member, lookup name members = some member → member.Extends value) :
    (Record.object members).Extends (.object (Record.insert name value members)) := by
  refine .object (fun other found => ?_) fun other member grown atMember atGrown => ?_
  · by_cases same : other = name
    · rw [same, lookup_insert_self]
      rfl
    · rwa [lookup_insert_of_ne same]
  · by_cases same : other = name
    · rw [same] at atMember
      rw [same, lookup_insert_self] at atGrown
      exact Option.some.inj atGrown ▸ grew member atMember
    · rw [lookup_insert_of_ne same, atMember] at atGrown
      exact Option.some.inj atGrown ▸ .refl member

/-- What a path leads to is still there in the record that knows more. -/
theorem Extends.resolve {known whole left : Record} (completion : known.Extends whole)
    {path : List String} (found : known.resolve path = some left) :
    ∃ right, whole.resolve path = some right ∧ left.Extends right := by
  induction path generalizing known whole with
  | nil =>
    obtain rfl := Option.some.inj ((resolve_nil known).symm.trans found)
    exact ⟨whole, resolve_nil whole, completion⟩
  | cons segment path ih =>
    cases completion with
    | null | bool | int | float | text => simp [Record.resolve] at found
    | @array items others length grown =>
      simp only [Record.resolve, Option.bind_eq_some_iff] at found ⊢
      obtain ⟨position, index, item, atItem, found⟩ := found
      have within : position < others.length :=
        length ▸ (List.getElem?_eq_some_iff.mp atItem).choose
      have atOther : others[position]? = some others[position] := List.getElem?_eq_getElem within
      obtain ⟨right, atRight, grew⟩ := ih (grown position item _ atItem atOther) found
      exact ⟨right, ⟨position, index, others[position], atOther, atRight⟩, grew⟩
    | @object members others kept grown =>
      simp only [Record.resolve, Option.bind_eq_some_iff] at found ⊢
      obtain ⟨member, atMember, found⟩ := found
      obtain ⟨other, atOther⟩ := Option.isSome_iff_exists.mp (kept segment (by rw [atMember]; rfl))
      obtain ⟨right, atRight, grew⟩ := ih (grown segment member other atMember atOther) found
      exact ⟨right, ⟨other, atOther, atRight⟩, grew⟩

variable {left right : Record}

/-- Lists of equal length whose items agree in some respect have the same list of it. -/
theorem map_eq_of_pointwise {α : Type} {respect : Record → α} {items others : List Record}
    (length : items.length = others.length)
    (agree : ∀ (position : Nat) (item other : Record), items[position]? = some item →
      others[position]? = some other → respect item = respect other) :
    items.map respect = others.map respect := by
  refine List.ext_getElem (by rw [List.length_map, List.length_map, length]) ?_
  intro position within within'
  rw [List.length_map] at within within'
  rw [List.getElem_map, List.getElem_map]
  exact agree position _ _ (List.getElem?_eq_getElem within) (List.getElem?_eq_getElem within')

theorem itemTexts_eq_map (items : List Record) :
    itemTexts items = items.map fun item => (text? item).getD "" := by
  induction items with
  | nil => rfl
  | cons item rest ih => rw [itemTexts, ih, List.map_cons]

/-- The text of a record does not show what stands in its objects. -/
theorem Extends.text?_eq (completion : left.Extends right) : left.text? = right.text? := by
  induction completion with
  | null | bool | int | float | text | object => rfl
  | array length _ same =>
    simp only [text?, itemTexts_eq_map]
    rw [map_eq_of_pointwise length fun position item other atItem atOther => by
      rw [same position item other atItem atOther]]

theorem Extends.ordering?_eq (completion : left.Extends right) (literal : Scalar) :
    Scalar.ordering? left literal = Scalar.ordering? right literal := by
  cases completion <;> cases literal <;> rfl

theorem Extends.strictEq_eq (completion : left.Extends right) (literal : Scalar) :
    Scalar.strictEq left literal = Scalar.strictEq right literal := by
  cases completion <;> cases literal <;> rfl

theorem Extends.looseEq_eq (completion : left.Extends right) (literal : Scalar) :
    Scalar.looseEq left literal = Scalar.looseEq right literal := by
  cases completion <;> cases literal <;> rfl

end Record

theorem Relation.holds_eq_of_extends {left right : Record} (completion : left.Extends right)
    (relation : Relation) (literal : Scalar) :
    relation.holds left literal = relation.holds right literal := by
  cases relation <;>
    simp only [holds, completion.looseEq_eq literal, completion.ordering?_eq literal]

/-- No test can tell a member from one that knows more. -/
theorem Test.holds_eq_of_extends {left right : Record} (completion : left.Extends right)
    (test : Test) : test.holds left = test.holds right := by
  cases test with
  | relate relation literal => exact Relation.holds_eq_of_extends completion relation literal
  | like pattern => rw [holds, holds, completion.text?_eq]
  | isIn values =>
    have same : Scalar.strictEq left = Scalar.strictEq right := funext completion.strictEq_eq
    rw [holds, holds, same]
  | contains text =>
    cases completion with
    | null | bool | int | float | text | object => rfl
    | @array items others length grown =>
      have same : items.map (fun item => Scalar.strictEq item (.text text)) =
          others.map fun other => Scalar.strictEq other (.text text) :=
        Record.map_eq_of_pointwise length fun position item other atItem atOther =>
          (grown position item other atItem atOther).strictEq_eq (.text text)
      simpa only [holds, List.any_map, Function.comp_def, id_eq] using
        congrArg (fun answers => answers.any id) same

/-- How a lenient verdict stands to an exact one: it matches whenever the exact one does, and
both agree if it assumed nothing. -/
structure Verdict.Covers (lenient exact : Verdict) : Prop where
  keeps : exact.matched = true → lenient.matched = true
  agrees : lenient.assumed = false → exact.matched = lenient.matched

namespace Verdict.Covers

variable {connective : Connective} {lenient exact lenient' exact' : Verdict}

theorem neutral : (Verdict.neutral connective).Covers (.neutral connective) :=
  ⟨id, fun _ => rfl⟩

theorem followedBy (first : lenient.Covers exact) (second : lenient'.Covers exact') :
    (lenient.followedBy connective lenient').Covers (exact.followedBy connective exact') := by
  obtain ⟨keeps, agrees⟩ := first
  obtain ⟨keeps', agrees'⟩ := second
  cases connective with
  | and =>
    simp only [followedBy_and]
    refine ⟨fun matched => ?_, fun assumed => ?_⟩
    · simp only [Bool.and_eq_true] at matched ⊢
      exact ⟨keeps matched.1, keeps' matched.2⟩
    · simp only [Bool.or_eq_false_iff, Bool.and_eq_false_iff] at assumed
      rw [agrees assumed.1]
      rcases assumed.2 with refused | exactly
      · simp only [refused, Bool.false_and]
      · rw [agrees' exactly]
  | or =>
    simp only [followedBy_or]
    refine ⟨fun matched => ?_, fun assumed => ?_⟩
    · simp only [Bool.or_eq_true] at matched ⊢
      exact matched.imp keeps keeps'
    · simp only [Bool.or_eq_false_iff, Bool.and_eq_false_iff, Bool.not_eq_false'] at assumed
      rw [agrees assumed.1]
      rcases assumed.2 with accepted | exactly
      · simp only [accepted, Bool.true_or]
      · rw [agrees' exactly]

end Verdict.Covers

variable {known whole : Record}

/-- A member that is missing is assumed to pass, and one that is there passes as it will in the
whole record. -/
theorem Comparison.evaluate_covers (completion : known.Extends whole) (comparison : Comparison) :
    (comparison.evaluate .lenient known).Covers (comparison.evaluate .strict whole) := by
  cases found : known.resolve comparison.path with
  | none =>
    simp only [evaluate, found]
    exact ⟨fun _ => rfl, fun exactly => nomatch exactly⟩
  | some left =>
    obtain ⟨right, atRight, grew⟩ := completion.resolve found
    simp only [evaluate, found, atRight, Test.holds_eq_of_extends grew]
    exact ⟨id, fun _ => rfl⟩

mutual

theorem Filter.evaluate_covers (completion : known.Extends whole) (filter : Filter) :
    (filter.evaluate .lenient known).Covers (filter.evaluate .strict whole) := by
  match filter with
  | .leaf comparison => exact comparison.evaluate_covers completion
  | .node connective children => exact Filter.evaluateAll_covers completion connective children

theorem Filter.evaluateAll_covers (completion : known.Extends whole) (connective : Connective)
    (children : List Filter) :
    (evaluateAll .lenient known connective children).Covers
      (evaluateAll .strict whole connective children) := by
  match children with
  | [] => exact .neutral
  | child :: rest =>
    rw [evaluateAll_cons, evaluateAll_cons]
    exact (Filter.evaluate_covers completion child).followedBy
      (Filter.evaluateAll_covers completion connective rest)

end

/-- A prefilter never loses a record, however little of it is at hand, and an answer that rests
on no missing member needs no confirmation. -/
theorem Prefilter.verdict_sound (prefilter : Prefilter) {known whole : Record}
    (completion : known.Extends whole) :
    ((prefilter.verdict known).matched = false → prefilter.query.accepts whole = false) ∧
    ((prefilter.verdict known).assumed = false →
      prefilter.query.accepts whole = (prefilter.verdict known).matched ∧
      prefilter.query.accepts known = (prefilter.verdict known).matched) := by
  have onWhole := Filter.evaluate_covers completion prefilter.query.filter
  have onKnown := Filter.evaluate_covers (.refl known) prefilter.query.filter
  refine ⟨fun refused => ?_, fun exactly => ⟨onWhole.agrees exactly, onKnown.agrees exactly⟩⟩
  cases accepted : prefilter.query.accepts whole with
  | false => rfl
  | true => exact absurd (onWhole.keeps accepted) (by rw [← verdict, refused]; decide)

/-- Even a verdict that assumed something loses no record when it is negative. -/
theorem Prefilter.verdict_sound_nested :
    let prefilter := ofQuery ⟨.node .and [.leaf ⟨["a", "b"], .relate .ne (.int 1)⟩,
      .leaf ⟨["c"], .relate .eq (.int 2)⟩], none, none, none⟩
    let known : Record := .object [("a", .object []), ("c", .int 3)]
    let whole : Record := .object [("a", .object [("b", .int 7)]), ("c", .int 3)]
    known.Extends whole ∧ prefilter.verdict known = ⟨false, true⟩ ∧
      prefilter.query.accepts whole = false := by
  intro prefilter known whole
  have grew : (Record.object []).Extends (.object [("b", .int 7)]) :=
    Record.Extends.insert fun member found => nomatch found
  have completion : known.Extends (.object (Record.insert "a" (.object [("b", .int 7)])
      [("a", .object []), ("c", .int 3)])) :=
    Record.Extends.insert fun member found => Option.some.inj found ▸ grew
  exact ⟨completion, by decide, (prefilter.verdict_sound completion).1 (by decide)⟩

end RecordQuery
