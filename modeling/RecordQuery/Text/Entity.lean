namespace RecordQuery.Text

/-- The two angle brackets that a client may have written as entities. -/
inductive Entity
  | less
  | greater
deriving DecidableEq

/-- The letter that tells `&lt;` from `&gt;`. -/
def Entity.letter : Entity → Char
  | .less => 'l'
  | .greater => 'g'

/-- The bracket that the entity stands for. -/
def Entity.sign : Entity → Char
  | .less => '<'
  | .greater => '>'

/-- Replaces every written entity of one kind, from left to right. What a replacement
leaves behind is not read again. -/
def Entity.decode (entity : Entity) : List Char → List Char
  | '&' :: letter :: 't' :: ';' :: rest =>
    if letter = entity.letter then entity.sign :: entity.decode rest
    else '&' :: entity.decode (letter :: 't' :: ';' :: rest)
  | c :: rest => c :: entity.decode rest
  | [] => []

/-- Undoes the escaping of angle brackets: first every `&lt;`, then every `&gt;`. -/
def unsanitize (text : String) : String :=
  String.ofList (Entity.greater.decode (Entity.less.decode text.toList))

end RecordQuery.Text
