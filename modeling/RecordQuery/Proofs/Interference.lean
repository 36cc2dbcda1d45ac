import Mathlib
import RecordQuery.Proofs.Patching

namespace RecordQuery

namespace Record

variable {value other record between changed again : Record} {members : List (String × Record)}
  {name : String} {path shorter : List String}

/-! ### Two members of one object -/

/-- The place of a member depends on its name alone. So two members may be set in either order,
and this needs no order of the members that were there before. -/
theorem insert_insert_comm {left right : String} (different : left ≠ right) (value other : Record)
    (members : List (String × Record)) :
    insert left value (insert right other members) =
      insert right other (insert left value members) := by
  induction members with
  | nil => grind [insert, lookup]
  | cons member rest ih => grind [insert, lookup, lookup_insert_of_ne]

/-! ### Two assignments to one record -/

/-- What an assignment makes of the part of a record that its path leads from. It is the value
itself where the path has ended. -/
def Placed (value : Record) : List String → Record → Record → Prop
  | [], _, placed => placed = value
  | name :: path, former, placed => Assigned value (name :: path) former placed

theorem placed_iff_assigned (nonempty : path ≠ []) :
    Placed value path record changed ↔ Assigned value path record changed := by
  obtain ⟨name, rest, rfl⟩ := List.exists_cons_of_ne_nil nonempty
  rfl

theorem Assigned.exists_members? (assigned : Assigned value path record changed) :
    ∃ members, record.members? = some members := by
  cases assigned <;> exact ⟨_, ‹_›⟩

/-- The first name of a path is given what the rest of the path makes of its member. -/
theorem assigned_cons_iff (has : record.members? = some members) :
    Assigned value (name :: path) record changed ↔
      ∃ child, Placed value path ((lookup name members).getD .null) child ∧
        changed = .object (insert name child members) := by
  constructor
  · intro assigned
    cases assigned with
    | last _ found =>
      rw [has, Option.some.injEq] at found
      exact ⟨value, rfl, by rw [found]⟩
    | @deeper _ child _ _ _ found below =>
      rw [has, Option.some.injEq] at found
      subst found
      exact ⟨child, (placed_iff_assigned below.path_ne_nil).mpr below, rfl⟩
  · rintro ⟨child, placed, rfl⟩
    cases path with
    | nil =>
      cases placed
      exact .last name has
    | cons next rest => exact .deeper name has placed

theorem Assigned.unique (left : Assigned value path record changed)
    (right : Assigned value path record again) : changed = again := by
  have nonempty := left.path_ne_nil
  rw [← assign_eq_iff nonempty] at left right
  exact congrArg Prod.fst (left.symm.trans right)

/-- What was written at a path and what was made on the way to it is lost when a front of the path is
written. -/
theorem Placed.overwritten_iff (first : Placed value path record between) (front : shorter <+: path) :
    Placed other shorter between changed ↔ Placed other shorter record changed := by
  induction shorter generalizing path record between changed with
  | nil => exact Iff.rfl
  | cons name shorter ih =>
    obtain ⟨rest, rfl⟩ := front
    obtain ⟨members, has⟩ := Assigned.exists_members? first
    obtain ⟨child, placed, rfl⟩ := (assigned_cons_iff has).mp first
    have rewritten (deeper : Record) :
        insert name deeper (insert name child members) = insert name deeper members :=
      insert_insert_self name deeper child members
    have below (deeper : Record) : Placed other shorter child deeper ↔
        Placed other shorter ((lookup name members).getD .null) deeper :=
      ih placed (List.prefix_append shorter rest)
    simp only [Placed]
    rw [assigned_cons_iff rfl, assigned_cons_iff has]
    simp only [lookup_insert_self, Option.getD_some, rewritten, below]

theorem Assigned.overwritten_iff (first : Assigned value path record between)
    (front : shorter <+: path) (nonempty : shorter ≠ []) :
    Assigned other shorter between changed ↔ Assigned other shorter record changed := by
  rw [← placed_iff_assigned nonempty, ← placed_iff_assigned nonempty]
  exact ((placed_iff_assigned first.path_ne_nil).mpr first).overwritten_iff front

/-- Two assignments with paths that part may change places. What the first one makes on the part of
the way that they share, the second one makes if it comes first. -/
theorem Assigned.swap {beside : List String} (first : Assigned value path record between)
    (second : Assigned other beside between changed) (apart : Apart path beside) :
    ∃ middle, Assigned other beside record middle ∧ Assigned value path middle changed := by
  induction path generalizing beside record between changed with
  | nil => exact absurd rfl first.path_ne_nil
  | cons name path ih =>
    obtain ⟨next, rest, rfl⟩ := List.exists_cons_of_ne_nil apart.ne_nil
    obtain ⟨members, has⟩ := first.exists_members?
    obtain ⟨child, placed, rfl⟩ := (assigned_cons_iff has).mp first
    obtain ⟨deeper, placedNext, rfl⟩ := (assigned_cons_iff rfl).mp second
    by_cases same : next = name
    · -- the paths share their first name and part below it
      subst same
      have parted := apart_cons_iff.mp apart
      rw [lookup_insert_self, Option.getD_some, placed_iff_assigned parted.ne_nil] at placedNext
      rw [placed_iff_assigned parted.symm.ne_nil] at placed
      obtain ⟨middle, before, after⟩ := ih placed placedNext parted
      refine ⟨.object (insert next middle members), .deeper next has before, ?_⟩
      refine (assigned_cons_iff rfl).mpr ⟨deeper, ?_, ?_⟩
      · rw [lookup_insert_self, Option.getD_some, placed_iff_assigned parted.symm.ne_nil]
        exact after
      · rw [insert_insert_self, insert_insert_self]
    · -- they part at once, in two members of the record
      rw [lookup_insert_of_ne same] at placedNext
      refine ⟨.object (insert next deeper members), ?_, ?_⟩
      · exact (assigned_cons_iff has).mpr ⟨deeper, placedNext, rfl⟩
      · refine (assigned_cons_iff rfl).mpr ⟨child, ?_, ?_⟩
        · rw [lookup_insert_of_ne (Ne.symm same)]
          exact placed
        · rw [insert_insert_comm same]

/-- Nothing can be assigned behind a literal. -/
theorem Assigned.not_admits_behind {literal : Scalar} {behind : List String}
    (assigned : Assigned literal.toRecord path record changed) (front : path <+: behind)
    (proper : path ≠ behind) : ¬changed.Admits behind := by
  intro admits
  rcases admits path front proper _ assigned.resolve_self with same | ⟨members, same⟩ <;>
    cases literal <;> cases same

theorem Admits.of_front (admits : record.Admits path) (front : shorter <+: path) :
    record.Admits shorter := by
  intro before inFront proper
  refine admits before (inFront.trans front) ?_
  rintro rfl
  exact proper (inFront.eq_of_length_le front.length_le)

/-- An assignment neither stops nor frees the paths that part from its own. -/
theorem Assigned.admits_apart_iff {beside : List String}
    (assigned : Assigned value path record changed) (apart : Apart path beside) :
    changed.Admits beside ↔ record.Admits beside := by
  refine ⟨fun admits => ?_, fun admits => admits.of_assigned assigned apart⟩
  intro before front proper found atBefore
  by_cases onPath : before <+: path
  · refine assigned.admits before onPath ?_ found atBefore
    rintro rfl
    exact apart.1 front
  · have parted : Apart path before := ⟨fun behind => apart.1 (behind.trans front), onPath⟩
    refine admits before front proper found ?_
    rw [assigned.resolve_apart parted, atBefore]

end Record

namespace Assignment

variable {settings others : Settings} {record : Record} {assignment first second : Assignment}
  {assignments : List Assignment}

theorem Free.of_front {path shorter : List String} (free : Free settings path)
    (front : shorter <+: path) : Free settings shorter :=
  fun name member => free name (front.subset member)

/-- An assignment neither stops nor frees another one whose path parts from its own. -/
theorem admits_applied_iff (settings : Settings) (record : Record)
    (apart : Apart first.path second.path) :
    (first.applied settings record).Admits second.path ↔ record.Admits second.path := by
  rcases applied_cases settings record first with same | ⟨changed, _, same, _, assigned⟩
  · rw [same]
  · rw [same]
    exact assigned.admits_apart_iff apart

/-- Assignments to paths that part may change places, whatever each of them is not allowed to write
to. -/
theorem applied_applied_comm (apart : Apart first.path second.path) :
    second.applied others (first.applied settings record) =
      first.applied settings (second.applied others record) := by
  have nonemptyFirst := apart.symm.ne_nil
  have nonemptySecond := apart.ne_nil
  have admitsSecond := admits_applied_iff settings record apart
  have admitsFirst := admits_applied_iff others record apart.symm
  by_cases fitsFirst : Free settings first.path ∧ record.Admits first.path
  · by_cases fitsSecond : Free others second.path ∧ record.Admits second.path
    · have leading := assigned_applied nonemptyFirst fitsFirst.1 fitsFirst.2
      have following := assigned_applied nonemptySecond fitsSecond.1 (admitsSecond.mpr fitsSecond.2)
      obtain ⟨middle, before, after⟩ := leading.swap following apart
      have atMiddle := assigned_applied nonemptySecond fitsSecond.1 fitsSecond.2
      obtain rfl := before.unique atMiddle
      have last := assigned_applied nonemptyFirst fitsFirst.1 (admitsFirst.mpr fitsFirst.2)
      exact after.unique last
    · rw [applied_eq_self fitsSecond]
      refine applied_eq_self fun fits => fitsSecond ⟨fits.1, ?_⟩
      exact admitsSecond.mp fits.2
  · rw [applied_eq_self fitsFirst]
    refine (applied_eq_self fun fits => fitsFirst ⟨fits.1, ?_⟩).symm
    exact admitsFirst.mp fits.2

/-- An assignment to a front of another one's path undoes all that the other one did. -/
theorem applied_applied_of_front (nonempty : second.path ≠ []) (front : second.path <+: first.path) :
    second.applied settings (first.applied settings record) = second.applied settings record := by
  rcases applied_cases settings record first with same | ⟨changed, _, same, free, assigned⟩
  · rw [same]
  · rw [same]
    have freeSecond := free.of_front front
    have direct := assigned_applied nonempty freeSecond (assigned.admits.of_front front)
    have after := (assigned.overwritten_iff front nonempty).mpr direct
    exact (assigned_applied nonempty freeSecond after.admits).unique after

/-- An assignment behind the path of another one has no effect after it: what stops the one stops the
other, and else the value of the one does. -/
theorem applied_applied_of_behind (nonempty : first.path ≠ []) (front : first.path <+: second.path)
    (proper : first.path ≠ second.path) :
    second.applied settings (first.applied settings record) = first.applied settings record := by
  refine applied_eq_self fun fits => ?_
  rcases applied_cases settings record first with same | ⟨changed, _, same, _, assigned⟩
  · rw [same] at fits
    have carried := assigned_applied nonempty (fits.1.of_front front) (fits.2.of_front front)
    rw [same] at carried
    exact carried.not_admits_behind front proper fits.2
  · rw [same] at fits
    exact assigned.not_admits_behind front proper fits.2

/-- Two assignments under the same settings may change places unless the later one undoes the
earlier one. -/
theorem applied_applied_comm_of_not_front (nonempty : first.path ≠ [])
    (notFront : ¬second.path <+: first.path) :
    second.applied settings (first.applied settings record) =
      first.applied settings (second.applied settings record) := by
  by_cases front : first.path <+: second.path
  · have proper : first.path ≠ second.path := by
      intro same
      exact notFront (same ▸ List.prefix_rfl)
    rw [applied_applied_of_behind nonempty front proper, applied_applied_of_front nonempty front]
  · exact applied_applied_comm ⟨front, notFront⟩

/-! ### Two lists of assignments -/

/-- An assignment of a list has no effect before the list. It moves on to the first assignment that
undoes it, and at the latest that is itself. -/
theorem appliedAll_applied_of_mem (nonempty : ∀ assignment ∈ assignments, assignment.path ≠ [])
    (member : assignment ∈ assignments) :
    assignments.foldl (applied settings) (assignment.applied settings record) =
      assignments.foldl (applied settings) record := by
  induction assignments generalizing record with
  | nil => exact absurd member List.not_mem_nil
  | cons first rest ih =>
    rw [List.foldl_cons, List.foldl_cons]
    by_cases front : first.path <+: assignment.path
    · rw [applied_applied_of_front (nonempty first List.mem_cons_self) front]
    · have inRest : assignment ∈ rest := by
        refine List.mem_of_ne_of_mem ?_ member
        rintro rfl
        exact front List.prefix_rfl
      rw [applied_applied_comm_of_not_front (nonempty assignment member) front]
      exact ih (fun later inside => nonempty later (List.mem_cons_of_mem first inside)) inRest

/-- A list of assignments makes the same of a record when some of them were carried out before, in
whatever order and number. -/
theorem appliedAll_appliedAll_of_subset {earlier : List Assignment}
    (nonempty : ∀ assignment ∈ assignments, assignment.path ≠ []) (subset : earlier ⊆ assignments) :
    assignments.foldl (applied settings) (earlier.foldl (applied settings) record) =
      assignments.foldl (applied settings) record := by
  induction earlier generalizing record with
  | nil => rfl
  | cons first rest ih =>
    obtain ⟨member, inside⟩ := List.cons_subset.mp subset
    rw [List.foldl_cons, ih inside, appliedAll_applied_of_mem nonempty member]

theorem appliedAll_applied_comm (apart : ∀ later ∈ assignments, Apart assignment.path later.path) :
    assignments.foldl (applied others) (assignment.applied settings record) =
      assignment.applied settings (assignments.foldl (applied others) record) := by
  induction assignments generalizing record with
  | nil => rfl
  | cons first rest ih =>
    obtain ⟨apartFirst, apartRest⟩ := List.forall_mem_cons.mp apart
    rw [List.foldl_cons, List.foldl_cons, applied_applied_comm apartFirst, ih apartRest]

/-- Lists of assignments may change places when each path of the one parts from each path of the
other. Within a list the paths need not part. -/
theorem appliedAll_appliedAll_comm {later : List Assignment}
    (apart : ∀ first ∈ assignments, ∀ second ∈ later, Apart first.path second.path) :
    later.foldl (applied others) (assignments.foldl (applied settings) record) =
      assignments.foldl (applied settings) (later.foldl (applied others) record) := by
  induction assignments generalizing record with
  | nil => rfl
  | cons first rest ih =>
    obtain ⟨apartFirst, apartRest⟩ := List.forall_mem_cons.mp apart
    rw [List.foldl_cons, List.foldl_cons, ih apartRest, appliedAll_applied_comm apartFirst]

end Assignment

namespace Patch

/-- Applying a patch again changes nothing more, however its assignments stand in each other's way. -/
theorem apply_idempotent (settings : Settings) (text : String) (patch : Patch) (record : Record)
    (run : parse settings text = .ok patch) :
    patch.apply (patch.apply record) = patch.apply record :=
  Assignment.appliedAll_appliedAll_of_subset (path_ne_nil_of_parse run) (List.Subset.refl _)

/-- The first assignment is undone by the third one and stopped by it the second time, and the
fourth one never gets through. -/
theorem apply_idempotent_conflicting :
    let text := "a.b = 1 AND c = 'x' AND a = 2 AND a.d = 3 AND e.__proto__ = 4 AND c = 5"
    let record : Record := .object [("a", .null), ("e", .object [])]
    let changed : Record := .object [("a", .int 2), ("c", .int 5), ("e", .object [])]
    ∃ patch, parse .builtIn text = .ok patch ∧ patch.apply record = changed ∧
      patch.apply changed = changed := by
  intro text record changed
  let equation (path : List String) (value : Scalar) : Filter := .leaf ⟨path, .relate .eq value⟩
  let patch : Patch := ⟨⟨.node .and [equation ["a", "b"] (.int 1), equation ["c"] (.text "x"),
    equation ["a"] (.int 2), equation ["a", "d"] (.int 3), equation ["e", "__proto__"] (.int 4),
    equation ["c"] (.int 5)], none, none, none⟩, .builtIn⟩
  have run : parse .builtIn text = .ok patch := by unfold text; cbv
  have once : patch.apply record = changed := rfl
  have twice := apply_idempotent .builtIn text patch record run
  rw [once] at twice
  exact ⟨patch, run, once, twice⟩

/-- Patches that write to independent paths may be applied in either order, each under settings of
its own. The paths of one patch may stand in each other's way. -/
theorem apply_comm (first second : Patch) (record : Record)
    (apart : ∀ left ∈ first.assignments, ∀ right ∈ second.assignments,
      Apart left.path right.path) :
    second.apply (first.apply record) = first.apply (second.apply record) :=
  Assignment.appliedAll_appliedAll_comm apart

/-- Both patches write below a member that is null, and so either of them makes the object there. -/
theorem apply_comm_shared :
    let record : Record := .object [("a", .null), ("z", .array [.null])]
    let changed : Record := .object [("a", .object [("b", .int 1), ("c", .object [("d", .int 4)])]),
      ("z", .array [.null])]
    let strict : Settings := ⟨1, ["d"]⟩
    ∃ first second, parse strict "a.b = 1 AND (a.b.x = 2 AND z.d = 3)" = .ok first ∧
      parse .builtIn "a.c.d = 3 AND a.c.d = 4 AND a.__proto__ = 5" = .ok second ∧
      second.apply (first.apply record) = changed ∧ first.apply (second.apply record) = changed := by
  intro record changed strict
  let equation (path : List String) (value : Scalar) : Filter := .leaf ⟨path, .relate .eq value⟩
  let first : Patch := ⟨⟨.node .and [equation ["a", "b"] (.int 1), equation ["a", "b", "x"] (.int 2),
    equation ["z", "d"] (.int 3)], none, none, none⟩, strict⟩
  let second : Patch := ⟨⟨.node .and [equation ["a", "c", "d"] (.int 3),
    equation ["a", "c", "d"] (.int 4), equation ["a", "__proto__"] (.int 5)], none, none, none⟩, .builtIn⟩
  have run : parse strict "a.b = 1 AND (a.b.x = 2 AND z.d = 3)" = .ok first := by unfold strict; cbv
  have rerun : parse .builtIn "a.c.d = 3 AND a.c.d = 4 AND a.__proto__ = 5" = .ok second := by cbv
  have listed : first.assignments = [⟨["a", "b"], .int 1⟩, ⟨["a", "b", "x"], .int 2⟩,
    ⟨["z", "d"], .int 3⟩] := rfl
  have listedToo : second.assignments = [⟨["a", "c", "d"], .int 3⟩, ⟨["a", "c", "d"], .int 4⟩,
    ⟨["a", "__proto__"], .int 5⟩] := rfl
  have apart : ∀ left ∈ first.assignments, ∀ right ∈ second.assignments,
      Apart left.path right.path := by
    rw [listed, listedToo]
    simp [Apart]
  have forth : second.apply (first.apply record) = changed := rfl
  exact ⟨first, second, run, rerun, forth, (apply_comm first second record apart).symm.trans forth⟩

end Patch

end RecordQuery
