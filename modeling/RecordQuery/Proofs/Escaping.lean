import RecordQuery.Text.Entity

namespace RecordQuery.Text

/-- An entity as it is written. -/
def Entity.spelling (entity : Entity) : List Char :=
  ['&', entity.letter, 't', ';']

/-- Reads both entities in one pass from left to right. -/
def decodeAll : List Char → List Char
  | '&' :: 'l' :: 't' :: ';' :: rest => '<' :: decodeAll rest
  | '&' :: 'g' :: 't' :: ';' :: rest => '>' :: decodeAll rest
  | c :: rest => c :: decodeAll rest
  | [] => []

/-- Writes every bracket as its entity. -/
def encode (text : List Char) : List Char :=
  text.flatMap fun c =>
    if c = '<' then Entity.less.spelling else if c = '>' then Entity.greater.spelling else [c]

/-- Escapes the angle brackets of a text, and nothing else. -/
def sanitize (text : String) : String :=
  String.ofList (encode text.toList)

/-- Whether no entity is written anywhere in a text. -/
def Unescaped (text : List Char) : Prop :=
  ∀ entity : Entity, ¬entity.spelling <:+: text

variable {entity : Entity} {c : Char} {text rest front : List Char}

/-! ### What a text begins with -/

/-- A text is empty, or begins with an entity, or with a character that begins none. -/
theorem text_induction {motive : List Char → Prop} (nil : motive [])
    (entity : ∀ (entity : Entity) rest, motive rest → motive (entity.spelling ++ rest))
    (other : ∀ c rest, (∀ entity : Entity, ¬entity.spelling <+: c :: rest) → motive rest →
      motive (c :: rest)) (text : List Char) : motive text := by
  fun_induction decodeAll text with
  | case1 rest ih => exact entity .less rest ih
  | case2 rest ih => exact entity .greater rest ih
  | case3 c rest noLess noGreater ih =>
    refine other c rest ?_ ih
    rintro (_ | _) ⟨more, same⟩
    · obtain ⟨rfl, rfl⟩ := List.cons.inj same
      exact noLess more rfl rfl
    · obtain ⟨rfl, rfl⟩ := List.cons.inj same
      exact noGreater more rfl rfl
  | case4 => exact nil

theorem decode_spelling (entity : Entity) (rest : List Char) :
    entity.decode (entity.spelling ++ rest) = entity.sign :: entity.decode rest := by
  cases entity <;> rfl

theorem decode_cons (other : ¬entity.spelling <+: c :: rest) :
    entity.decode (c :: rest) = c :: entity.decode rest := by
  rw [Entity.decode.eq_def entity (c :: rest)]
  split
  · rename_i letter more same
    obtain ⟨rfl, rfl⟩ := List.cons.inj same
    rw [if_neg]
    rintro rfl
    exact other ⟨more, rfl⟩
  · rename_i same
    obtain ⟨rfl, rfl⟩ := List.cons.inj same
    rfl
  · rename_i same
    cases same

theorem decode_cons_of_ne (other : c ≠ '&') (entity : Entity) (rest : List Char) :
    entity.decode (c :: rest) = c :: entity.decode rest := by
  refine decode_cons fun written => other ?_
  exact (List.cons_prefix_cons.mp written).1.symm

theorem decodeAll_spelling (entity : Entity) (rest : List Char) :
    decodeAll (entity.spelling ++ rest) = entity.sign :: decodeAll rest := by
  cases entity <;> rfl

theorem decodeAll_cons (other : ∀ entity : Entity, ¬entity.spelling <+: c :: rest) :
    decodeAll (c :: rest) = c :: decodeAll rest := by
  rw [decodeAll]
  · rintro more rfl rfl
    exact other .less ⟨more, rfl⟩
  · rintro more rfl rfl
    exact other .greater ⟨more, rfl⟩

theorem encode_append (text rest : List Char) : encode (text ++ rest) = encode text ++ encode rest :=
  List.flatMap_append

theorem encode_spelling (entity : Entity) : encode entity.spelling = entity.spelling := by
  cases entity <;> rfl

/-- A character is a bracket, which is escaped, or it is kept. -/
theorem encode_cons (c : Char) (rest : List Char) :
    (∃ entity : Entity, c = entity.sign ∧ encode (c :: rest) = entity.spelling ++ encode rest) ∨
      encode (c :: rest) = c :: encode rest := by
  by_cases less : c = '<'
  · exact Or.inl ⟨.less, less, by rw [less]; rfl⟩
  by_cases greater : c = '>'
  · exact Or.inl ⟨.greater, greater, by rw [greater]; rfl⟩
  · exact Or.inr (by simp [encode, less, greater])

/-! ### Nothing new is written

Each rewriting keeps a character or puts something at its place that begins with a bracket or with an
ampersand. What its image begins with was there before, up to the first replacement, so no entity arises
where a replacement ends and the text goes on. -/

structure Rewrites (image : List Char → List Char) : Prop where
  nil : image [] = []
  cons : ∀ c rest, (∃ mark ∈ ['&', '<', '>'], ∃ more, image (c :: rest) = mark :: more) ∨
    image (c :: rest) = c :: image rest

variable {image : List Char → List Char}

theorem Rewrites.front_of_image (rewrites : Rewrites image)
    (unmarked : ∀ mark ∈ ['&', '<', '>'], mark ∉ front) (written : front <+: image text) :
    front <+: text := by
  induction front generalizing text with
  | nil => exact List.nil_prefix
  | cons d front ih =>
    cases text with
    | nil =>
      rw [rewrites.nil] at written
      exact written
    | cons c rest =>
      rcases rewrites.cons c rest with ⟨mark, member, more, replaced⟩ | kept
      · rw [replaced, List.cons_prefix_cons] at written
        exact absurd (written.1 ▸ List.mem_cons_self) (unmarked mark member)
      · rw [kept, List.cons_prefix_cons] at written
        have later := ih (fun mark member inFront => unmarked mark member (List.mem_cons_of_mem d inFront))
          written.2
        exact List.cons_prefix_cons.mpr ⟨written.1, later⟩

/-- An entity that begins with a character that was kept was written before. -/
theorem Rewrites.entity_of_image (rewrites : Rewrites image)
    (written : entity.spelling <+: c :: image rest) : entity.spelling <+: c :: rest := by
  obtain ⟨ampersand, tail⟩ := List.cons_prefix_cons.mp written
  have unmarked : ∀ mark ∈ ['&', '<', '>'], mark ∉ [entity.letter, 't', ';'] := by
    cases entity <;> simp [Entity.letter]
  exact List.cons_prefix_cons.mpr ⟨ampersand, rewrites.front_of_image unmarked tail⟩

theorem rewrites_decode (entity : Entity) : Rewrites entity.decode where
  nil := rfl
  cons c rest := by
    by_cases written : entity.spelling <+: c :: rest
    · obtain ⟨more, same⟩ := written
      rw [← same, decode_spelling]
      exact Or.inl ⟨entity.sign, by cases entity <;> decide, _, rfl⟩
    · exact Or.inr (decode_cons written)

theorem rewrites_decodeAll : Rewrites decodeAll where
  nil := rfl
  cons c rest := by
    by_cases written : ∃ entity : Entity, entity.spelling <+: c :: rest
    · obtain ⟨entity, more, same⟩ := written
      rw [← same, decodeAll_spelling]
      exact Or.inl ⟨entity.sign, by cases entity <;> decide, _, rfl⟩
    · exact Or.inr (decodeAll_cons (not_exists.mp written))

theorem rewrites_encode : Rewrites encode where
  nil := rfl
  cons c rest := (encode_cons c rest).imp_left fun ⟨_, _, replaced⟩ =>
    ⟨'&', List.mem_cons_self, _, replaced⟩

/-! ### One pass -/

/-- The pass for one entity does not stop the other one from being found, and makes none. -/
theorem decode_decode_eq_decodeAll (text : List Char) :
    Entity.greater.decode (Entity.less.decode text) = decodeAll text := by
  induction text using text_induction with
  | nil => rfl
  | entity entity rest ih =>
    rw [decodeAll_spelling, ← ih]
    cases entity with
    | less => rw [decode_spelling, decode_cons_of_ne (by decide)]
    | greater =>
      have kept : Entity.less.decode (Entity.greater.spelling ++ rest) =
          Entity.greater.spelling ++ Entity.less.decode rest := rfl
      rw [kept, decode_spelling]
  | other c rest plain ih =>
    rw [decodeAll_cons plain, decode_cons (plain .less), decode_cons, ih]
    exact fun written => plain .greater ((rewrites_decode .less).entity_of_image written)

theorem unescaped_decodeAll (text : List Char) : Unescaped (decodeAll text) := by
  intro found
  induction text using text_induction with
  | nil => cases found <;> decide
  | entity entity rest ih =>
    rw [decodeAll_spelling, List.infix_cons_iff]
    rintro (atHead | later)
    · have ampersand := (List.cons_prefix_cons.mp atHead).1
      cases entity <;> exact absurd ampersand (by decide)
    · exact ih later
  | other c rest plain ih =>
    rw [decodeAll_cons plain, List.infix_cons_iff]
    rintro (atHead | later)
    · exact plain found (rewrites_decodeAll.entity_of_image atHead)
    · exact ih later

theorem decodeAll_eq_self_iff : decodeAll text = text ↔ Unescaped text := by
  constructor
  · intro same
    rw [← same]
    exact unescaped_decodeAll text
  · intro unescaped
    induction text with
    | nil => rfl
    | cons c rest ih =>
      have later : Unescaped rest := fun entity inside => unescaped entity (List.infix_cons inside)
      rw [decodeAll_cons fun entity written => unescaped entity written.isInfix, ih later]

/-- Escaping alone is not seen behind the pass: it is undone, and what was written before it is read as
it is without it. -/
theorem decodeAll_encode (text : List Char) : decodeAll (encode text) = decodeAll text := by
  induction text using text_induction with
  | nil => rfl
  | entity entity rest ih =>
    rw [encode_append, encode_spelling, decodeAll_spelling, decodeAll_spelling, ih]
  | other c rest plain ih =>
    rcases encode_cons c rest with ⟨entity, bracket, escaped⟩ | kept
    · rw [escaped, decodeAll_spelling, decodeAll_cons plain, bracket, ih]
    · rw [kept, decodeAll_cons plain, decodeAll_cons, ih]
      exact fun entity written => plain entity (rewrites_encode.entity_of_image written)

theorem unsanitize_eq_decodeAll (text : String) :
    unsanitize text = String.ofList (decodeAll text.toList) :=
  congrArg String.ofList (decode_decode_eq_decodeAll text.toList)

/-- Unescaping in two passes is unescaping in one, and leaves nothing to unescape. It undoes escaping
for the texts in which no entity is written, and for no other ones. -/
theorem unsanitize_sanitize_iff (text : String) :
    unsanitize text = String.ofList (decodeAll text.toList) ∧
      Unescaped (unsanitize text).toList ∧ unsanitize (unsanitize text) = unsanitize text ∧
      (unsanitize (sanitize text) = text ↔ Unescaped text.toList) := by
  have unescaped : Unescaped (unsanitize text).toList := by
    rw [unsanitize_eq_decodeAll, String.toList_ofList]
    exact unescaped_decodeAll text.toList
  refine ⟨unsanitize_eq_decodeAll text, unescaped, ?_, ?_⟩
  · rw [unsanitize_eq_decodeAll (unsanitize text), decodeAll_eq_self_iff.mpr unescaped, String.ofList_toList]
  · rw [unsanitize_eq_decodeAll, sanitize, String.toList_ofList, decodeAll_encode, ← decodeAll_eq_self_iff,
      ← String.toList_inj, String.toList_ofList]

end RecordQuery.Text
