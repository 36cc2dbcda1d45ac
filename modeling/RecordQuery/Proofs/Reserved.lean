import Mathlib
import RecordQuery.Proofs.Writing

namespace RecordQuery

/-! ### What a list of patches writes -/

/-- The paths of the assignments that are carried out, in their order. -/
def Assignment.writtenPaths (settings : Settings) (record : Record) :
    List Assignment → List (List String)
  | [] => []
  | assignment :: rest =>
    let (left, obstacle?) := assignment.apply settings record
    (if obstacle?.isNone then [assignment.path] else []) ++ writtenPaths settings left rest

namespace Patch

/-- Applies patches one after another. -/
def applyAll (patches : List Patch) (record : Record) : Record :=
  patches.foldl (fun changed patch => patch.apply changed) record

/-- The paths that patches write to when they are applied one after another. -/
def writtenPaths : List Patch → Record → List (List String)
  | [], _ => []
  | patch :: rest, record =>
    Assignment.writtenPaths patch.settings record patch.assignments ++
      writtenPaths rest (patch.apply record)

end Patch

/-! ### What is kept of the members with a name -/

variable {segment : String} {before middle after : Record} {written more : List (List String)}

/-- What becomes of a name when some paths are written to. A path with the name leads where it led,
or nowhere because something in front of it was written, and an object that has a member of that
name had it before. -/
structure Guarded (segment : String) (before : Record) (written : List (List String))
    (after : Record) : Prop where
  path : ∀ path, segment ∈ path → after.resolve path = before.resolve path ∨
    after.resolve path = none ∧ ∃ front ∈ written, front <+: path ∧ front ≠ path
  member : ∀ path members value, after.resolve path = some (.object members) →
    Record.lookup segment members = some value →
      ∃ others, before.resolve path = some (.object others) ∧
        Record.lookup segment others = some value

namespace Guarded

theorem refl (segment : String) (record : Record) (written : List (List String)) :
    Guarded segment record written record where
  path _ _ := Or.inl rfl
  member _ members _ atPath found := ⟨members, atPath, found⟩

theorem trans (first : Guarded segment before written middle)
    (second : Guarded segment middle more after) :
    Guarded segment before (written ++ more) after where
  path := by
    intro path inPath
    rcases second.path path inPath with same | ⟨lost, front, member, isFront⟩
    · rw [same]
      rcases first.path path inPath with same | ⟨lost, front, member, isFront⟩
      · exact Or.inl same
      · exact Or.inr ⟨lost, front, List.mem_append_left more member, isFront⟩
    · exact Or.inr ⟨lost, front, List.mem_append_right written member, isFront⟩
  member := by
    intro path members value atPath found
    obtain ⟨others, atMiddle, there⟩ := second.member path members value atPath found
    exact first.member path others value atMiddle there

end Guarded

namespace Record

theorem resolve_concat_of_object {record : Record} {members : List (String × Record)}
    {path : List String} (atPath : record.resolve path = some (.object members)) (name : String) :
    record.resolve (path ++ [name]) = lookup name members := by
  rw [resolve_append, atPath, Option.bind_some, resolve]
  cases lookup name members with
  | none => rfl
  | some value => rw [Option.bind_some, resolve_nil]

/-- What is reached by a name where there is no array is a member of that name. -/
theorem resolve_concat_eq_some_iff {record value : Record} {path : List String} {name : String}
    (shape : ∀ found, record.resolve path = some found →
      found = .null ∨ ∃ members, found = .object members) :
    record.resolve (path ++ [name]) = some value ↔
      ∃ members, record.resolve path = some (.object members) ∧ lookup name members = some value := by
  constructor
  · intro there
    have reached := there
    rw [resolve_append] at reached
    obtain ⟨owner, atOwner, atName⟩ := Option.bind_eq_some_iff.mp reached
    rcases shape owner atOwner with rfl | ⟨members, rfl⟩
    · cases atName
    · rw [resolve_concat_of_object atOwner] at there
      exact ⟨members, atOwner, there⟩
  · rintro ⟨members, atOwner, found⟩
    rw [resolve_concat_of_object atOwner, found]

end Record

theorem Scalar.toRecord_ne_object (literal : Scalar) (members : List (String × Record)) :
    literal.toRecord ≠ .object members := by
  cases literal <;> nofun

/-- An assignment to a path without the name. It cannot reach below the name, and what it destroys
is behind its own path. -/
theorem Record.Assigned.guarded {literal : Scalar} {path : List String} (absent : segment ∉ path)
    (assigned : Assigned literal.toRecord path before after) :
    Guarded segment before [path] after where
  path := by
    intro other inOther
    by_cases inFront : path <+: other
    · obtain ⟨rest, rfl⟩ := inFront
      have nonempty : rest ≠ [] := by
        rintro rfl
        rw [List.append_nil] at inOther
        exact absent inOther
      have proper : path ≠ path ++ rest := fun same => nonempty (List.self_eq_append_right.mp same)
      have lost : after.resolve (path ++ rest) = none := by
        rw [assigned.resolve_behind, literal.resolve_toRecord nonempty]
      exact Or.inr ⟨lost, path, List.mem_singleton_self path, List.prefix_append path rest, proper⟩
    · have notBehind : ¬other <+: path := fun front => absent (front.subset inOther)
      exact Or.inl (assigned.resolve_apart ⟨inFront, notBehind⟩)
  member := by
    intro other members value atOther found
    by_cases inFront : path <+: other
    · obtain ⟨rest, rfl⟩ := inFront
      rw [assigned.resolve_behind] at atOther
      by_cases atEnd : rest = []
      · rw [atEnd, resolve_nil] at atOther
        exact absurd (Option.some.inj atOther) (literal.toRecord_ne_object members)
      · rw [literal.resolve_toRecord atEnd] at atOther
        cases atOther
    · by_cases behind : other <+: path
      · -- the object lies on the way, and the name beside it
        have proper : other ≠ path := fun same => inFront (same ▸ List.prefix_rfl)
        have beside : Apart path (other ++ [segment]) := by
          have named : segment ∈ other ++ [segment] := List.mem_append_right other List.mem_cons_self
          refine ⟨fun front => ?_, fun front => absent (front.subset named)⟩
          rcases List.prefix_concat_iff.mp front with rfl | within
          · exact absent named
          · exact inFront within
        have there : before.resolve (other ++ [segment]) = some value := by
          rw [← assigned.resolve_apart beside, resolve_concat_of_object atOther, found]
        exact (resolve_concat_eq_some_iff (assigned.admits other behind proper)).mp there
      · have same := assigned.resolve_apart ⟨inFront, behind⟩
        exact ⟨members, same ▸ atOther, found⟩

/-! ### Whole runs -/

namespace Assignment

variable {settings : Settings}

theorem writtenPaths_cons (assignment : Assignment) (rest : List Assignment) (record : Record) :
    writtenPaths settings record (assignment :: rest) =
      writtenPaths settings record [assignment] ++
        writtenPaths settings (assignment.applied settings record) rest := by
  simp only [writtenPaths, applied, List.append_nil]

theorem guarded_applied (reserved : settings.isReserved segment = true) (assignment : Assignment)
    (record : Record) :
    Guarded segment record (writtenPaths settings record [assignment])
      (assignment.applied settings record) := by
  rcases applied_cases settings record assignment with same | ⟨changed, run, same, free, assigned⟩
  · rw [same]
    exact .refl segment record _
  · have written : writtenPaths settings record [assignment] = [assignment.path] := by
      simp only [writtenPaths, run, Option.isNone_none, if_true, List.append_nil]
    have absent : segment ∉ assignment.path := by
      intro member
      rw [free segment member] at reserved
      cases reserved
    rw [same, written]
    exact assigned.guarded absent

theorem guarded_appliedAll (reserved : settings.isReserved segment = true)
    (assignments : List Assignment) (record : Record) :
    Guarded segment record (writtenPaths settings record assignments)
      (assignments.foldl (applied settings) record) := by
  induction assignments generalizing record with
  | nil => exact .refl segment record _
  | cons assignment rest ih =>
    rw [writtenPaths_cons, List.foldl_cons]
    exact (guarded_applied reserved assignment record).trans (ih _)

end Assignment

namespace Patch

theorem guarded_applyAll (patches : List Patch) (record : Record)
    (reserved : ∀ patch ∈ patches, patch.settings.isReserved segment = true) :
    Guarded segment record (writtenPaths patches record) (applyAll patches record) := by
  induction patches generalizing record with
  | nil => exact .refl segment record _
  | cons patch rest ih =>
    obtain ⟨atFirst, atRest⟩ := List.forall_mem_cons.mp reserved
    have first := Assignment.guarded_appliedAll atFirst patch.assignments record
    exact first.trans (ih (patch.apply record) atRest)

/-- A name that all patches reserve is never written to or through. A path with that name leads
where it led or nowhere, and it is lost only behind a path that was written. -/
theorem reserved_name_untouched (segment : String) (patches : List Patch) (record : Record)
    (reserved : ∀ patch ∈ patches, patch.settings.isReserved segment = true) :
    (∀ path, segment ∈ path →
      ((applyAll patches record).resolve path = record.resolve path ∨
        (applyAll patches record).resolve path = none) ∧
      (record.resolve path = none → (applyAll patches record).resolve path = none) ∧
      (record.resolve path ≠ none → (applyAll patches record).resolve path = none →
        ∃ front ∈ writtenPaths patches record, front <+: path ∧ front ≠ path)) ∧
    ∀ path members value, (applyAll patches record).resolve path = some (.object members) →
      Record.lookup segment members = some value →
        ∃ others, record.resolve path = some (.object others) ∧
          Record.lookup segment others = some value := by
  have guarded := guarded_applyAll patches record reserved
  refine ⟨fun path inPath => ?_, guarded.member⟩
  rcases guarded.path path inPath with same | ⟨lost, behind⟩
  · refine ⟨Or.inl same, fun missing => same.trans missing, fun present missing => ?_⟩
    exact absurd (same.symm.trans missing) present
  · exact ⟨Or.inr lost, fun _ => lost, fun _ _ => behind⟩

/-- The name is lost with an owner that is overwritten, and the attempts to write to it and
through it are passed over. -/
theorem reserved_name_untouched_overwritten :
    let record : Record := .object [("a", .object [("__proto__", .object [("x", .int 1)])]),
      ("b", .object [("__proto__", .int 2)])]
    ∃ first second, parse .builtIn "a = 5" = .ok first ∧
      parse .builtIn "a.__proto__.x = 7 AND b.__proto__ = 9 AND b.c = 3" = .ok second ∧
      (applyAll [first, second] record).resolve ["b", "c"] = some (.int 3) ∧
      (applyAll [first, second] record).resolve ["a", "__proto__", "x"] = none ∧
      (∃ front ∈ writtenPaths [first, second] record, front <+: ["a", "__proto__", "x"]) ∧
      (applyAll [first, second] record).resolve ["b", "__proto__"] = some (.int 2) := by
  intro record
  let equation (path : List String) (value : Scalar) : Filter := .leaf ⟨path, .relate .eq value⟩
  let first : Patch := ⟨⟨equation ["a"] (.int 5), none, none, none⟩, .builtIn⟩
  let second : Patch := ⟨⟨.node .and [equation ["a", "__proto__", "x"] (.int 7),
    equation ["b", "__proto__"] (.int 9), equation ["b", "c"] (.int 3)], none, none, none⟩, .builtIn⟩
  have run : parse .builtIn "a = 5" = .ok first := by cbv
  have rerun : parse .builtIn "a.__proto__.x = 7 AND b.__proto__ = 9 AND b.c = 3" = .ok second := by
    cbv
  have reserved : ∀ patch ∈ [first, second], patch.settings.isReserved "__proto__" = true :=
    List.forall_mem_cons.mpr ⟨by decide, List.forall_mem_singleton.mpr (by decide)⟩
  obtain ⟨atPath, _⟩ := reserved_name_untouched "__proto__" [first, second] record reserved
  have written : (applyAll [first, second] record).resolve ["b", "c"] = some (.int 3) := rfl
  have lost : (applyAll [first, second] record).resolve ["a", "__proto__", "x"] = none := rfl
  obtain ⟨_, _, blame⟩ := atPath ["a", "__proto__", "x"] (by decide)
  obtain ⟨front, member, isFront, _⟩ := blame (Option.some_ne_none _) lost
  obtain ⟨kept | gone, _⟩ := atPath ["b", "__proto__"] (by decide)
  · exact ⟨first, second, run, rerun, written, lost, ⟨front, member, isFront⟩, kept⟩
  · cases gone

end Patch

end RecordQuery
