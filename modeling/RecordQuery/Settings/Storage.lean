import RecordQuery.Settings.File
import RecordQuery.Storage
import RecordQuery.Toml.Document

namespace RecordQuery

namespace Format

variable (format : Format)

/-- The settings in a file. Without a file the built-in ones hold. -/
def ofEntry : Option Entry → Except Error Settings
  | none => .ok .builtIn
  | some entry => do (format.decode (← entry.text)).mapError .settings

def load (path : List String) (disk : Entry) : Except Error Settings :=
  format.ofEntry (disk.find? path)

/-- Resolves settings: a file that was named replaces the user's own file, even if it does not
exist. -/
def resolve (named? : Option (Option Entry)) (own? : Option Entry) : Except Error Settings :=
  format.ofEntry (named?.getD own?)

/-- Stores settings under a path of the disk. They are written out before anything on the disk
changes, and then the folders of the path are made. They stay even if the file cannot be
written. -/
def store (settings : Settings) (path : List String) : EStateM Error Entry Unit := do
  let content ← MonadExcept.ofExcept ((format.encode settings).mapError .settings)
  Entry.update Entry.makeFolder path.dropLast
  Entry.update (Entry.writeFile content.toUTF8) path

/-- The disk after settings were saved. -/
def save (settings : Settings) (path : List String) (disk : Entry) : Except Error Entry :=
  match format.store settings path disk with
  | .ok _ after => .ok after
  | .error error _ => .error error

end Format

/-- The format that files of settings have. -/
def Toml.format : Format where
  read text := readDocument text.toList
  write members := (writeDocument members).map String.ofList

namespace Settings

def load (path : List String) (disk : Entry) : Except Error Settings :=
  Toml.format.load path disk

def resolve (named? : Option (Option Entry)) (own? : Option Entry) : Except Error Settings :=
  Toml.format.resolve named? own?

def save (settings : Settings) (path : List String) (disk : Entry) : Except Error Entry :=
  Toml.format.save settings path disk

end Settings

end RecordQuery
