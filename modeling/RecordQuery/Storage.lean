import RecordQuery.Error

namespace RecordQuery

inductive Entry
  | file (content : ByteArray)
  | folder (entries : List (String × Entry))

namespace Entry

/-- A folder's entries after one of them was set. -/
def put (name : String) (entry : Entry) : List (String × Entry) → List (String × Entry)
  | [] => [(name, entry)]
  | first :: rest => if first.1 = name then (name, entry) :: rest else first :: put name entry rest

def find? : List String → Entry → Option Entry
  | [], entry => some entry
  | _ :: _, .file _ => none
  | name :: path, .folder entries => (entries.lookup name).bind (find? path)

/-- Changes the entry at a path, for which the folders on the way are made as needed. A file
on the way is an obstacle. -/
def changeAt (change : Option Entry → Except Error Entry) :
    List String → Option Entry → Except Error Entry
  | [], entry => change entry
  | _ :: _, some (.file _) => .error .storage
  | name :: path, some (.folder entries) =>
    (changeAt change path (entries.lookup name)).map fun entry => .folder (put name entry entries)
  | name :: path, none => (changeAt change path none).map fun entry => .folder [(name, entry)]

/-- Changes the entry at a path of the disk. The disk stays as it is if that fails. -/
def update (change : Option Entry → Except Error Entry) (path : List String) :
    EStateM Error Entry Unit := fun disk =>
  match changeAt change path (some disk) with
  | .ok after => .ok () after
  | .error error => .error error disk

def makeFolder : Option Entry → Except Error Entry
  | none => .ok (.folder [])
  | some (.folder entries) => .ok (.folder entries)
  | some (.file _) => .error .storage

/-- Writes a file in place of another one or of nothing. -/
def writeFile (content : ByteArray) : Option Entry → Except Error Entry
  | some (.folder _) => .error .storage
  | _ => .ok (.file content)

/-- The text of a file. A folder has none, and neither has a file that is not UTF-8. -/
def text : Entry → Except Error String
  | .file content =>
    match String.fromUTF8? content with
    | some text => .ok text
    | none => .error .storage
  | .folder _ => .error .storage

end Entry

end RecordQuery
