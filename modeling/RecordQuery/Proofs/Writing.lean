import RecordQuery.Patch

namespace RecordQuery

/-- Whether two paths part somewhere, so that neither is the front of the other. -/
def Apart (path other : List String) : Prop :=
  ¬path <+: other ∧ ¬other <+: path

theorem Apart.symm {path other : List String} (apart : Apart path other) : Apart other path :=
  ⟨apart.2, apart.1⟩

theorem Apart.ne_nil {path other : List String} (apart : Apart path other) : other ≠ [] := by
  rintro rfl
  exact apart.2 List.nil_prefix

theorem apart_cons_iff {name : String} {path other : List String} :
    Apart (name :: path) (name :: other) ↔ Apart path other := by
  simp only [Apart, List.cons_prefix_cons, true_and]

namespace Record

variable {value record changed : Record} {members : List (String × Record)} {path other : List String}

/-- Reading along a path may be cut anywhere. -/
theorem resolve_append (front back : List String) (record : Record) :
    record.resolve (front ++ back) = (record.resolve front).bind (resolve back) := by
  induction front generalizing record with
  | nil => rw [List.nil_append, resolve_nil, Option.bind_some]
  | cons name front ih =>
    cases record with
    | object members =>
      rw [List.cons_append, resolve, resolve, Option.bind_assoc]
      exact congrArg _ (funext ih)
    | array items =>
      rw [List.cons_append, resolve, resolve, Option.bind_assoc]
      refine congrArg _ (funext fun position => ?_)
      rw [Option.bind_assoc]
      exact congrArg _ (funext ih)
    | _ => rfl

/-- What can have members is read by name. Null has none, and nothing is found in it. -/
theorem resolve_cons_of_members? (has : record.members? = some members) (name : String)
    (path : List String) :
    record.resolve (name :: path) = (lookup name members).bind (resolve path) := by
  cases record with
  | null =>
    cases has
    rfl
  | object members =>
    cases has
    rfl
  | _ => cases has

/-- Below a member that is missing there is as little as below null. -/
theorem resolve_getD_null (nonempty : path ≠ []) (child? : Option Record) :
    (child?.getD .null).resolve path = child?.bind (resolve path) := by
  obtain ⟨name, rest, rfl⟩ := List.exists_cons_of_ne_nil nonempty
  cases child? <;> rfl

/-- What an assignment does where nothing stops it. The last name of the path gets the value, and
every name before it an object, which is a new one where there was null or nothing. -/
inductive Assigned (value : Record) : List String → Record → Record → Prop
  | last {record : Record} {members : List (String × Record)} (name : String) :
      record.members? = some members →
      Assigned value [name] record (.object (insert name value members))
  | deeper {record child : Record} {members : List (String × Record)} {path : List String}
      (name : String) : record.members? = some members →
      Assigned value path ((lookup name members).getD .null) child →
      Assigned value (name :: path) record (.object (insert name child members))

theorem Assigned.path_ne_nil (assigned : Assigned value path record changed) : path ≠ [] := by
  cases assigned <;> exact List.cons_ne_nil _ _

/-! ### The walk -/

theorem getD_lookup_ensure (name : String) (members : List (String × Record)) :
    (lookup name (ensure name members)).getD .null = (lookup name members).getD .null := by
  rw [ensure]
  split
  · rfl
  · rename_i missing
    have none : lookup name members = none := Option.not_isSome_iff_eq_none.mp missing
    rw [lookup_insert_self, none, Option.getD_some, Option.getD_none]

/-- A placeholder is gone when its member gets a value. -/
theorem insert_ensure (name : String) (child : Record) (members : List (String × Record)) :
    insert name child (ensure name members) = insert name child members := by
  rw [ensure]
  split
  · rfl
  · rw [insert_insert_self]

/-- One step of the walk. What the rest of the walk leaves of the member stands in its place, even
if the walk was stopped. -/
theorem assign_step (has : record.members? = some members) (name next : String) :
    assign value (name :: next :: path) record =
      (.object (insert name
        (assign value (next :: path) ((lookup name members).getD .null)).1 members),
        (assign value (next :: path) ((lookup name members).getD .null)).2) := by
  rw [assign, has]
  simp only [getD_lookup_ensure, insert_ensure]

/-- Nothing stops the walk at null, which becomes an object, or below it, where all is new. -/
theorem obstacle_assign_null (value : Record) (path : List String) :
    (assign value path .null).2 = none := by
  induction path with
  | nil => rfl
  | cons name path ih =>
    cases path with
    | nil => rfl
    | cons next path =>
      rw [assign_step rfl]
      exact ih

theorem eq_object_of_lookup {name : String} {child : Record} (has : record.members? = some members)
    (found : lookup name members = some child) : record = .object members := by
  cases record with
  | object others => exact congrArg _ (Option.some.inj has)
  | null =>
    obtain rfl : [] = members := Option.some.inj has
    cases found
  | _ => cases has

/-- All that the walk can do: it arrives and sets the value, or it is stopped and has changed nothing.
It is stopped only behind members that were there before, since what it makes cannot stop it. -/
theorem assign_cases (value : Record) (nonempty : path ≠ []) (record : Record) :
    (∃ changed, assign value path record = (changed, none) ∧ Assigned value path record changed) ∨
      ∃ obstacle, assign value path record = (record, some obstacle) := by
  induction path generalizing record with
  | nil => exact absurd rfl nonempty
  | cons name path ih =>
    cases has : record.members? with
    | none =>
      right
      cases path with
      | nil => exact ⟨.noParent, by rw [assign, has]⟩
      | cons next path => exact ⟨.noParentOf name, by rw [assign, has]⟩
    | some members =>
      cases path with
      | nil => exact Or.inl ⟨_, by rw [assign, has], .last name has⟩
      | cons next path =>
        have below := ih (List.cons_ne_nil next path) ((lookup name members).getD .null)
        rcases below with ⟨child, run, assigned⟩ | ⟨obstacle, run⟩
        · left
          exact ⟨_, by rw [assign_step has, run], .deeper name has assigned⟩
        · right
          cases found : lookup name members with
          | none =>
            have unstopped := obstacle_assign_null value (next :: path)
            rw [found, Option.getD_none] at run
            rw [run] at unstopped
            cases unstopped
          | some child =>
            have same : record = .object members := eq_object_of_lookup has found
            rw [found, Option.getD_some] at run
            refine ⟨obstacle, ?_⟩
            rw [assign_step has, found, Option.getD_some, run, insert_eq_self found, same]

theorem assign_of_obstacle {obstacle : Obstacle}
    (stopped : (assign value path record).2 = some obstacle) :
    (assign value path record).1 = record := by
  by_cases empty : path = []
  · rw [empty, assign]
  · rcases assign_cases value empty record with ⟨changed, run, _⟩ | ⟨other, run⟩
    · rw [run] at stopped
      cases stopped
    · rw [run]

theorem assign_eq_iff (nonempty : path ≠ []) :
    assign value path record = (changed, none) ↔ Assigned value path record changed := by
  constructor
  · intro arrived
    rcases assign_cases value nonempty record with ⟨other, run, assigned⟩ | ⟨obstacle, run⟩
    · obtain rfl : other = changed := congrArg Prod.fst (run.symm.trans arrived)
      exact assigned
    · cases run.symm.trans arrived
  · intro assigned
    induction assigned with
    | last name has => rw [assign, has]
    | deeper name has below ih =>
      obtain ⟨next, rest, rfl⟩ := List.exists_cons_of_ne_nil below.path_ne_nil
      rw [assign_step has, ih (List.cons_ne_nil _ _)]

/-! ### Where a path lies -/

theorem Assigned.resolve_self (assigned : Assigned value path record changed) :
    changed.resolve path = some value := by
  induction assigned with
  | last name has => rw [resolve, lookup_insert_self, Option.bind_some, resolve_nil]
  | deeper name has below ih => rw [resolve, lookup_insert_self, Option.bind_some, ih]

/-- Behind the path there is what the value has. -/
theorem Assigned.resolve_behind (assigned : Assigned value path record changed)
    (rest : List String) : changed.resolve (path ++ rest) = value.resolve rest := by
  rw [resolve_append, assigned.resolve_self, Option.bind_some]

/-- Before the path there are objects. -/
theorem Assigned.resolve_before (assigned : Assigned value path record changed)
    (before : other <+: path) (proper : other ≠ path) :
    ∃ members, changed.resolve other = some (.object members) := by
  induction assigned generalizing other with
  | last name has =>
    rcases List.prefix_cons_iff.mp before with rfl | ⟨rest, rfl, behind⟩
    · exact ⟨_, resolve_nil _⟩
    · rw [List.prefix_nil.mp behind] at proper
      exact absurd rfl proper
  | deeper name has below ih =>
    rcases List.prefix_cons_iff.mp before with rfl | ⟨rest, rfl, behind⟩
    · exact ⟨_, resolve_nil _⟩
    · obtain ⟨members, atRest⟩ := ih behind fun same => proper (congrArg _ same)
      exact ⟨members, by rw [resolve, lookup_insert_self, Option.bind_some, atRest]⟩

/-- A path that parts from the assigned one leads to the same as before. -/
theorem Assigned.resolve_apart (assigned : Assigned value path record changed)
    (apart : Apart path other) : changed.resolve other = record.resolve other := by
  induction assigned generalizing other with
  | last name has =>
    obtain ⟨next, rest, rfl⟩ := List.exists_cons_of_ne_nil apart.ne_nil
    have different : next ≠ name := by
      rintro rfl
      exact apart.1 (List.cons_prefix_cons.mpr ⟨rfl, List.nil_prefix⟩)
    rw [resolve, resolve_cons_of_members? has, lookup_insert_of_ne different]
  | deeper name has below ih =>
    obtain ⟨next, rest, rfl⟩ := List.exists_cons_of_ne_nil apart.ne_nil
    rw [resolve, resolve_cons_of_members? has]
    by_cases same : next = name
    · subst same
      have parted := apart_cons_iff.mp apart
      rw [lookup_insert_self, Option.bind_some, ih parted, resolve_getD_null parted.ne_nil]
    · rw [lookup_insert_of_ne same]

/-- Whether nothing on the way to a path stops an assignment. What stands there, the record itself
included, is an object or null. -/
def Admits (record : Record) (path : List String) : Prop :=
  ∀ before, before <+: path → before ≠ path → ∀ found, record.resolve before = some found →
    found = .null ∨ ∃ members, found = .object members

theorem exists_members?_iff :
    (∃ members, record.members? = some members) ↔
      record = .null ∨ ∃ members, record = .object members := by
  cases record <;> simp [members?]

/-- The way to a path begins at the record and goes on in the first member of the path. -/
theorem admits_cons_iff (has : record.members? = some members) {name : String}
    (nonempty : path ≠ []) :
    record.Admits (name :: path) ↔ ((lookup name members).getD .null).Admits path := by
  have below (before : List String) :
      record.resolve (name :: before) = (lookup name members).bind (resolve before) :=
    resolve_cons_of_members? has name before
  constructor
  · intro admits before front proper found atBefore
    by_cases start : before = []
    · subst start
      rw [resolve_nil, Option.some.injEq] at atBefore
      cases atName : lookup name members with
      | none =>
        rw [atName] at atBefore
        exact Or.inl atBefore.symm
      | some child =>
        rw [atName] at atBefore
        obtain rfl : child = found := atBefore
        have inFront : [name] <+: name :: path := List.cons_prefix_cons.mpr ⟨rfl, List.nil_prefix⟩
        refine admits [name] inFront (by simpa using nonempty) child ?_
        rw [below, atName, Option.bind_some, resolve_nil]
    · have inFront : name :: before <+: name :: path := List.cons_prefix_cons.mpr ⟨rfl, front⟩
      refine admits (name :: before) inFront (by simpa using proper) found ?_
      rwa [below, ← resolve_getD_null start]
  · intro admits before front proper found atBefore
    rcases List.prefix_cons_iff.mp front with rfl | ⟨rest, rfl, behind⟩
    · rw [resolve_nil, Option.some.injEq] at atBefore
      rw [← atBefore]
      exact exists_members?_iff.mp ⟨members, has⟩
    · have notWhole : rest ≠ path := fun same => proper (congrArg _ same)
      refine admits rest behind notWhole found ?_
      rw [below] at atBefore
      cases atName : lookup name members with
      | none =>
        rw [atName] at atBefore
        cases atBefore
      | some child =>
        rw [atName] at atBefore
        exact atBefore

/-- An assignment can be carried out if and only if nothing on the way stops it. -/
theorem exists_assigned_iff (nonempty : path ≠ []) (value : Record) :
    (∃ changed, Assigned value path record changed) ↔ record.Admits path := by
  constructor
  · rintro ⟨changed, assigned⟩
    induction assigned with
    | @last record members name has =>
      intro before front proper found atBefore
      rcases List.prefix_cons_iff.mp front with rfl | ⟨rest, rfl, behind⟩
      · rw [resolve_nil, Option.some.injEq] at atBefore
        rw [← atBefore]
        exact exists_members?_iff.mp ⟨members, has⟩
      · rw [List.prefix_nil.mp behind] at proper
        exact absurd rfl proper
    | deeper name has below ih => exact (admits_cons_iff has below.path_ne_nil).mpr (ih below.path_ne_nil)
  · intro admits
    induction path generalizing record with
    | nil => exact absurd rfl nonempty
    | cons name path ih =>
      have shape := admits [] List.nil_prefix (List.cons_ne_nil _ _).symm record (resolve_nil record)
      obtain ⟨members, has⟩ := exists_members?_iff.mpr shape
      by_cases atEnd : path = []
      · subst atEnd
        exact ⟨_, .last name has⟩
      · obtain ⟨child, below⟩ := ih atEnd ((admits_cons_iff has atEnd).mp admits)
        exact ⟨_, .deeper name has below⟩

theorem Assigned.admits (assigned : Assigned value path record changed) : record.Admits path :=
  (exists_assigned_iff assigned.path_ne_nil value).mp ⟨changed, assigned⟩

/-- An assignment leaves the way open to every path that parts from its own. -/
theorem Admits.of_assigned (admits : record.Admits other)
    (assigned : Assigned value path record changed) (apart : Apart path other) :
    changed.Admits other := by
  intro before front proper found atBefore
  by_cases onPath : before <+: path
  · have notWhole : before ≠ path := by
      rintro rfl
      exact apart.1 front
    obtain ⟨members, atObject⟩ := assigned.resolve_before onPath notWhole
    rw [atObject] at atBefore
    exact Or.inr ⟨members, (Option.some.inj atBefore).symm⟩
  · have parted : Apart path before := ⟨fun behind => apart.1 (behind.trans front), onPath⟩
    rw [assigned.resolve_apart parted] at atBefore
    exact admits before front proper found atBefore

end Record

theorem Scalar.resolve_toRecord (literal : Scalar) {path : List String} (nonempty : path ≠ []) :
    literal.toRecord.resolve path = none := by
  obtain ⟨name, rest, rfl⟩ := List.exists_cons_of_ne_nil nonempty
  cases literal <;> rfl

namespace Assignment

variable {settings : Settings} {record changed : Record} {assignment : Assignment}
  {path : List String}

/-- Whether no name on a path is reserved. -/
def Free (settings : Settings) (path : List String) : Prop :=
  ∀ name ∈ path, settings.isReserved name = false

theorem apply_eq_iff (nonempty : assignment.path ≠ []) :
    assignment.apply settings record = (changed, none) ↔ Free settings assignment.path ∧
      Record.Assigned assignment.value.toRecord assignment.path record changed := by
  rw [← Record.assign_eq_iff nonempty, apply]
  cases found : assignment.path.find? settings.isReserved with
  | some name =>
    have member := List.mem_of_find?_eq_some found
    have reserved := List.find?_some found
    simp only [Prod.mk.injEq, reduceCtorEq, and_false, false_iff, not_and]
    intro free
    rw [free name member] at reserved
    cases reserved
  | none =>
    have free : Free settings assignment.path := fun name member =>
      eq_false_of_ne_true (List.find?_eq_none.mp found name member)
    simp only [free, true_and]

/-- An assignment that meets an obstacle leaves the record as it was. -/
theorem applied_of_obstacle {obstacle : Obstacle}
    (stopped : (assignment.apply settings record).2 = some obstacle) :
    assignment.applied settings record = record := by
  rw [applied]
  rw [apply] at stopped ⊢
  split at stopped
  · rfl
  · exact Record.assign_of_obstacle stopped

theorem obstacle_eq_none_iff (nonempty : assignment.path ≠ []) :
    (assignment.apply settings record).2 = none ↔
      Free settings assignment.path ∧ record.Admits assignment.path := by
  constructor
  · intro unstopped
    have run : assignment.apply settings record = (assignment.applied settings record, none) :=
      Prod.ext rfl unstopped
    obtain ⟨free, assigned⟩ := (apply_eq_iff nonempty).mp run
    exact ⟨free, assigned.admits⟩
  · rintro ⟨free, admits⟩
    obtain ⟨changed, assigned⟩ :=
      (Record.exists_assigned_iff nonempty assignment.value.toRecord).mpr admits
    rw [(apply_eq_iff nonempty).mpr ⟨free, assigned⟩]

/-- All that one assignment can do: it changes nothing, or it is carried out as it says, and then
no name on its path is reserved. -/
theorem applied_cases (settings : Settings) (record : Record) (assignment : Assignment) :
    assignment.applied settings record = record ∨
      ∃ changed, assignment.apply settings record = (changed, none) ∧
        assignment.applied settings record = changed ∧ Free settings assignment.path ∧
          Record.Assigned assignment.value.toRecord assignment.path record changed := by
  cases outcome : (assignment.apply settings record).2 with
  | some obstacle => exact Or.inl (applied_of_obstacle outcome)
  | none =>
    have run : assignment.apply settings record = (assignment.applied settings record, none) :=
      Prod.ext rfl outcome
    by_cases empty : assignment.path = []
    · rw [apply, empty] at run
      exact Or.inl (congrArg Prod.fst run).symm
    · obtain ⟨free, assigned⟩ := (apply_eq_iff empty).mp run
      exact Or.inr ⟨_, run, rfl, free, assigned⟩

/-- An assignment with a path free of reserved names is carried out where nothing on the way stops
it. -/
theorem assigned_applied (nonempty : assignment.path ≠ []) (free : Free settings assignment.path)
    (admits : record.Admits assignment.path) :
    Record.Assigned assignment.value.toRecord assignment.path record
      (assignment.applied settings record) := by
  obtain ⟨changed, assigned⟩ :=
    (Record.exists_assigned_iff nonempty assignment.value.toRecord).mpr admits
  rw [applied, (apply_eq_iff nonempty).mpr ⟨free, assigned⟩]
  exact assigned

/-- In all other cases it changes nothing. -/
theorem applied_eq_self
    (stopped : ¬(Free settings assignment.path ∧ record.Admits assignment.path)) :
    assignment.applied settings record = record := by
  rcases applied_cases settings record assignment with same | ⟨changed, _, _, free, assigned⟩
  · exact same
  · exact absurd ⟨free, assigned.admits⟩ stopped

theorem resolve_applied_apart (apart : Apart assignment.path path) :
    (assignment.applied settings record).resolve path = record.resolve path := by
  rcases applied_cases settings record assignment with same | ⟨changed, _, same, _, assigned⟩
  · rw [same]
  · rw [same, assigned.resolve_apart apart]

end Assignment

end RecordQuery
