import RecordQuery.Record

namespace RecordQuery

/-- What ends an assignment before its value is set: a name on its path is reserved, a member that
should hold the next one is no object, or the last one of these is none. -/
inductive Obstacle
  | reserved (segment : String)
  | noParentOf (segment : String)
  | noParent
deriving DecidableEq

namespace Record

/-- The members of a record that can have members. Null stands for an object yet to be made. -/
def members? : Record → Option (List (String × Record))
  | .null => some []
  | .object members => some members
  | _ => none

/-- Makes sure that there is a member with a name. One that was missing holds null. -/
def ensure (name : String) (members : List (String × Record)) : List (String × Record) :=
  if (lookup name members).isSome then members else insert name .null members

/-- Sets the member at a path. The walk goes down from the record, and on its way it makes objects of
null and members of what is missing. It stops at what has no members. The record comes back in the
state in which the walk left it, with the obstacle if there was one. -/
def assign (value : Record) : List String → Record → Record × Option Obstacle
  | [], record => (record, none)
  | [last], record =>
    match record.members? with
    | some members => (.object (insert last value members), none)
    | none => (record, some .noParent)
  | segment :: next :: path, record =>
    match record.members? with
    | some members =>
      let entered := ensure segment members
      let child := (lookup segment entered).getD .null
      let (left, obstacle) := assign value (next :: path) child
      (.object (insert segment left entered), obstacle)
    | none => (record, some (.noParentOf segment))

end Record

end RecordQuery
