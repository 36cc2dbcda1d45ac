import RecordQuery.Error
import RecordQuery.Settings
import RecordQuery.Toml.Table
import RecordQuery.Toml.Text

namespace RecordQuery

namespace Settings

def depthKey : String := "max_depth"

def reservedKey : String := "reserved_segments"

/-- The settings as the members of a table. -/
def members (settings : Settings) : List (String × Toml.Datum) :=
  [(depthKey, .number settings.maxDepth), (reservedKey, .texts settings.reserved)]

def depthOfValue? : Toml.Value → Option Nat
  | .integer value => if 0 ≤ value then some value.toNat else none
  | _ => none

def textOfValue? : Toml.Value → Option String
  | .text value => some value
  | _ => none

def namesOfValue? : Toml.Value → Option (List String)
  | .array items => items.mapM textOfValue?
  | _ => none

/-- The setting under a key, or what holds when the key is missing. A value of another type is
refused. -/
def setting? {α : Type} (read : Toml.Value → Option α) (missing : α) :
    Option Toml.Value → Option α
  | none => some missing
  | some value => read value

end Settings

/-- A format of files: the table that is read from a text, and the text that a table is written
as. -/
structure Format where
  read : String → Option Toml.Members
  write : List (String × Toml.Datum) → Option String

namespace Toml

/-- A key that is written without quotes. -/
structure BareKey (key : List Char) : Prop where
  nonempty : key ≠ []
  chars : ∀ c ∈ key, isKeyChar c = true

/-- A table that any format has room for: its keys differ and need no quotes, and its numbers are
not beyond the signed words. -/
structure Storable (members : List (String × Datum)) : Prop where
  keys : ∀ member ∈ members, BareKey member.1.toList
  distinct : (members.map Prod.fst).Nodup
  numbers : ∀ key value, (key, .number value) ∈ members → value ≤ 9223372036854775807

end Toml

namespace Format

/-- What is relied on in a format. It reads back the values of the text that it writes, and it has
no integers beyond the signed words. -/
structure Faithful (format : Format) : Prop where
  reads : ∀ members, Toml.Storable members → ∃ text back, format.write members = some text ∧
    format.read text = some back ∧
    ∀ key, back.lookup key = (members.lookup key).map Toml.Datum.toValue
  refuses : ∀ members key value, (key, Toml.Datum.number value) ∈ members →
    9223372036854775807 < value → format.write members = none

variable (format : Format)

/-- Reads settings. Other keys may be present, and a depth of zero is refused only if all else
is in order. -/
def decode (text : String) : Except SettingsFault Settings :=
  let read : Option Settings := do
    let members ← format.read text
    let maxDepth ← Settings.setting? Settings.depthOfValue? Settings.builtIn.maxDepth
      (members.lookup Settings.depthKey)
    let reserved ← Settings.setting? Settings.namesOfValue? Settings.builtIn.reserved
      (members.lookup Settings.reservedKey)
    return ⟨maxDepth, reserved⟩
  match read with
  | none => .error .unreadable
  | some settings => if settings.maxDepth = 0 then .error .noDepth else .ok settings

/-- Writes settings. -/
def encode (settings : Settings) : Except SettingsFault String :=
  match format.write settings.members with
  | none => .error .unwritable
  | some text => .ok text

end Format

end RecordQuery
