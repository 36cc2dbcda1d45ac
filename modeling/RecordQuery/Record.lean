import RecordQuery.Number.Double

namespace RecordQuery

/-- A record as it is stored: plain data with whole and fractional numbers kept apart. The
members of an object stand in the order of their names. -/
inductive Record
  | null
  | bool (value : Bool)
  | int (value : Int)
  | float (value : Double)
  | text (value : String)
  | array (items : List Record)
  | object (members : List (String × Record))

namespace Record

/-- The member with a name, the first of them if there were several. -/
def lookup (name : String) : List (String × Record) → Option Record
  | [] => none
  | member :: rest => if member.1 = name then some member.2 else lookup name rest

/-- Gives a member a value. A member that is there keeps its place, and a new one takes the place
that its name has in the order. -/
def insert (name : String) (value : Record) : List (String × Record) → List (String × Record)
  | [] => [(name, value)]
  | member :: rest =>
    if member.1 = name then (name, value) :: rest
    else if name < member.1 ∧ (lookup name rest).isNone then (name, value) :: member :: rest
    else member :: insert name value rest

/-- An object with the given members, of which the last one counts where names repeat. -/
def ofMembers (members : List (String × Record)) : Record :=
  .object (members.foldl (fun known member => insert member.1 member.2 known) [])

@[simp] theorem lookup_nil (name : String) : lookup name [] = none := rfl

@[simp] theorem lookup_insert_self (name : String) (value : Record)
    (members : List (String × Record)) : lookup name (insert name value members) = some value := by
  fun_induction insert name value members with
  | case1 => rw [lookup, if_pos rfl]
  | case2 member rest same => rw [lookup, if_pos rfl]
  | case3 member rest other place => rw [lookup, if_pos rfl]
  | case4 member rest other place ih => rw [lookup, if_neg other, ih]

/-- A member's value does not touch the others. -/
theorem lookup_insert_of_ne {name other : String} (different : other ≠ name) (value : Record)
    (members : List (String × Record)) :
    lookup other (insert name value members) = lookup other members := by
  fun_induction insert name value members with
  | case1 => rw [lookup_nil, lookup, if_neg different.symm, lookup_nil]
  | case2 member rest same => rw [lookup, lookup, if_neg different.symm, if_neg (same ▸ different.symm)]
  | case3 member rest otherName place => rw [lookup, if_neg different.symm]
  | case4 member rest otherName place ih => rw [lookup, lookup, ih]

/-- Nothing changes when a member is given the value that it has. -/
theorem insert_eq_self {name : String} {value : Record} {members : List (String × Record)}
    (found : lookup name members = some value) : insert name value members = members := by
  induction members with
  | nil => cases found
  | cons member rest ih =>
    rw [lookup] at found
    rw [insert]
    split at found
    · rename_i same
      obtain ⟨known, there⟩ := member
      obtain rfl : known = name := same
      obtain rfl : there = value := Option.some.inj found
      rw [if_pos rfl]
    · rename_i other
      rw [if_neg other, if_neg (by simp [found]), ih found]

theorem insert_insert_self (name : String) (value former : Record)
    (members : List (String × Record)) :
    insert name value (insert name former members) = insert name value members := by
  induction members with
  | nil => simp only [insert, if_true]
  | cons member rest ih => grind [insert, lookup_insert_self]

/-- The position that a path segment names in an array: decimal digits behind an optional plus. -/
def index? (segment : String) : Option Nat :=
  let digits :=
    match segment.toList with
    | '+' :: digits => digits
    | digits => digits
  if digits ≠ [] ∧ digits.all Char.isDigit then some (Nat.ofDigitChars 10 digits 0) else none

/-- Follows a path through objects by name and through arrays by position. A missing part
ends the search. -/
def resolve : List String → Record → Option Record
  | [], record => some record
  | segment :: path, .object members => (lookup segment members).bind (resolve path)
  | segment :: path, .array items =>
    (index? segment).bind fun position => items[position]?.bind (resolve path)
  | _ :: _, _ => none

@[simp] theorem resolve_nil (record : Record) : resolve [] record = some record := by
  cases record <;> rfl

end Record

end RecordQuery
