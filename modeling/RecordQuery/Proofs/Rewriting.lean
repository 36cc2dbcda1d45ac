import Mathlib
import RecordQuery.Like.Pattern

namespace RecordQuery.Like

/-- Puts a backslash before every sign that patterns give no meaning. -/
def escapeSigns (text : List Char) : List Char :=
  text.flatMap fun c => if c ∈ plainSigns then ['\\', c] else [c]

/-- Replaces a sign wherever no backslash stands right before it. Whether one stands right before the
text is given, and for a whole text none does. -/
def replaceUnescaped (sign : Char) (meaning : List Char) (escaped : Bool) : List Char → List Char
  | [] => []
  | c :: rest =>
    (if c = sign ∧ escaped = false then meaning else [c]) ++
      replaceUnescaped sign meaning (c == '\\') rest

/-- Replaces a backslash and the sign behind it by the sign, from left to right. What has been
replaced is not looked at again. -/
def unescape (sign : Char) : List Char → List Char
  | [] => []
  | [c] => [c]
  | c :: next :: rest =>
    if c = '\\' ∧ next = sign then sign :: unescape sign rest else c :: unescape sign (next :: rest)

/-- Doubles every backslash but those right before a sign that patterns give no meaning. -/
def doubleBackslashes : List Char → List Char
  | [] => []
  | c :: rest =>
    (if c = '\\' ∧ ∀ next ∈ rest.head?, next ∉ plainSigns then ['\\', '\\'] else [c]) ++
      doubleBackslashes rest

/-- The two passes that are made for one wildcard. -/
def wildcardPasses (sign : Char) (meaning text : List Char) : List Char :=
  unescape sign (replaceUnescaped sign meaning false text)

variable {sign c : Char} {meaning text rest : List Char}

theorem replaceUnescaped_of_head_ne (other : ∀ first ∈ text.head?, first ≠ sign) (escaped : Bool) :
    replaceUnescaped sign meaning escaped text = replaceUnescaped sign meaning false text := by
  cases text with
  | nil => rfl
  | cons first rest =>
    have different : first ≠ sign := other first (by simp)
    simp [replaceUnescaped, different]

theorem unescape_cons_of_ne (notBackslash : c ≠ '\\') (text : List Char) :
    unescape sign (c :: text) = c :: unescape sign text := by
  cases text <;> simp [unescape, notBackslash]

theorem unescape_append (plain : '\\' ∉ meaning) (text : List Char) :
    unescape sign (meaning ++ text) = meaning ++ unescape sign text := by
  induction meaning with
  | nil => rfl
  | cons first meaning ih =>
    have notBackslash : first ≠ '\\' := fun same => plain (by simp [same])
    have later : '\\' ∉ meaning := fun member => plain (by simp [member])
    rw [List.cons_append, unescape_cons_of_ne notBackslash, ih later, List.cons_append]

/-! ### One wildcard -/

theorem wildcardPasses_nil : wildcardPasses sign meaning [] = [] := rfl

/-- A sign that no backslash takes its meaning from. -/
theorem wildcardPasses_sign (notBackslash : sign ≠ '\\') (plain : '\\' ∉ meaning) :
    wildcardPasses sign meaning (sign :: rest) = meaning ++ wildcardPasses sign meaning rest := by
  have unescaped : replaceUnescaped sign meaning false (sign :: rest) =
      meaning ++ replaceUnescaped sign meaning false rest := by
    simp [replaceUnescaped, beq_false_of_ne notBackslash]
  rw [wildcardPasses, unescaped, unescape_append plain, wildcardPasses]

/-- A sign that stands for itself. -/
theorem wildcardPasses_escaped (notBackslash : sign ≠ '\\') :
    wildcardPasses sign meaning ('\\' :: sign :: rest) =
      sign :: wildcardPasses sign meaning rest := by
  have kept : replaceUnescaped sign meaning false ('\\' :: sign :: rest) =
      '\\' :: sign :: replaceUnescaped sign meaning false rest := by
    simp [replaceUnescaped, notBackslash.symm, beq_false_of_ne notBackslash]
  rw [wildcardPasses, kept, unescape, if_pos ⟨rfl, rfl⟩, wildcardPasses]

theorem wildcardPasses_other (different : c ≠ sign) (notBackslash : c ≠ '\\') :
    wildcardPasses sign meaning (c :: rest) = c :: wildcardPasses sign meaning rest := by
  have kept : replaceUnescaped sign meaning false (c :: rest) =
      c :: replaceUnescaped sign meaning false rest := by
    simp [replaceUnescaped, different, beq_false_of_ne notBackslash]
  rw [wildcardPasses, kept, unescape_cons_of_ne notBackslash, wildcardPasses]

/-- A backslash that takes the meaning from nothing, at least not from this sign. -/
theorem wildcardPasses_backslash (notBackslash : sign ≠ '\\')
    (other : ∀ first ∈ rest.head?, first ≠ sign) :
    wildcardPasses sign meaning ('\\' :: rest) = '\\' :: wildcardPasses sign meaning rest := by
  have kept : replaceUnescaped sign meaning false ('\\' :: rest) =
      '\\' :: replaceUnescaped sign meaning false rest := by
    simp [replaceUnescaped, notBackslash.symm, replaceUnescaped_of_head_ne other true]
  rw [wildcardPasses, kept, wildcardPasses]
  cases rest with
  | nil => rfl
  | cons first rest =>
    have different : first ≠ sign := other first (by simp)
    have head : replaceUnescaped sign meaning false (first :: rest) =
        first :: replaceUnescaped sign meaning (first == '\\') rest := by
      simp [replaceUnescaped, different]
    rw [head, unescape, if_neg fun pair => different pair.2]

/-- What the passes leave at the beginning of a text was there before, or is the sign or the beginning
of its meaning. -/
theorem head?_wildcardPasses {allowed : Char → Prop} (notBackslash : sign ≠ '\\')
    (plain : '\\' ∉ meaning) (nonempty : meaning ≠ []) (atText : ∀ first ∈ text.head?, allowed first)
    (atSign : allowed sign) (atMeaning : ∀ first ∈ meaning.head?, allowed first) :
    ∀ first ∈ (wildcardPasses sign meaning text).head?, allowed first := by
  cases text with
  | nil => simp [wildcardPasses_nil]
  | cons c rest =>
    have atHead : allowed c := atText c (by simp)
    by_cases same : c = sign
    · rw [same, wildcardPasses_sign notBackslash plain, List.head?_append_of_ne_nil _ nonempty]
      exact atMeaning
    by_cases backslash : c = '\\'
    · subst backslash
      by_cases escapes : ∀ first ∈ rest.head?, first ≠ sign
      · simpa [wildcardPasses_backslash notBackslash escapes] using atHead
      · obtain ⟨more, rfl⟩ : ∃ more, rest = sign :: more := by
          cases rest with
          | nil => simp at escapes
          | cons next more =>
            have next : next = sign := by simpa using escapes
            exact ⟨more, by rw [next]⟩
        simpa [wildcardPasses_escaped notBackslash] using atSign
    · simpa [wildcardPasses_other same backslash] using atHead

/-! ### All passes -/

theorem escapeSigns_cons_of_mem (plain : c ∈ plainSigns) :
    escapeSigns (c :: rest) = '\\' :: c :: escapeSigns rest := by
  simp [escapeSigns, plain]

theorem escapeSigns_cons_of_not_mem (other : c ∉ plainSigns) :
    escapeSigns (c :: rest) = c :: escapeSigns rest := by
  simp [escapeSigns, other]

theorem head?_escapeSigns {allowed : Char → Prop} (atBackslash : allowed '\\')
    (atText : ∀ first ∈ text.head?, first ∉ plainSigns → allowed first) :
    ∀ first ∈ (escapeSigns text).head?, allowed first := by
  cases text with
  | nil => simp [escapeSigns]
  | cons c rest =>
    by_cases plain : c ∈ plainSigns
    · simpa [escapeSigns_cons_of_mem plain] using atBackslash
    · simpa [escapeSigns_cons_of_not_mem plain] using atText c (by simp) plain

theorem doubleBackslashes_cons_of_ne (notBackslash : c ≠ '\\') :
    doubleBackslashes (c :: rest) = c :: doubleBackslashes rest := by
  simp [doubleBackslashes, notBackslash]

theorem doubleBackslashes_backslash (lone : ∀ next ∈ rest.head?, next ∉ plainSigns) :
    doubleBackslashes ('\\' :: rest) = '\\' :: '\\' :: doubleBackslashes rest := by
  rw [doubleBackslashes, if_pos ⟨rfl, lone⟩]
  rfl

theorem doubleBackslashes_escape (plain : c ∈ plainSigns) :
    doubleBackslashes ('\\' :: c :: rest) = '\\' :: c :: doubleBackslashes rest := by
  have notBackslash : c ≠ '\\' := by
    rintro rfl
    exact absurd plain (by decide)
  rw [doubleBackslashes, if_neg, List.singleton_append, doubleBackslashes_cons_of_ne notBackslash]
  exact fun lone => lone.2 c (by simp) plain

/-- What the passes for both wildcards make of a text whose signs have been escaped. -/
def replaceWildcards (text : List Char) : List Char :=
  wildcardPasses '%' ['.', '*'] (wildcardPasses '_' ['.', '{', '1', '}'] text)

theorem replaceWildcards_other (notBackslash : c ≠ '\\') (notOne : c ≠ '_') (notRun : c ≠ '%') :
    replaceWildcards (c :: rest) = c :: replaceWildcards rest := by
  rw [replaceWildcards, wildcardPasses_other notOne notBackslash,
    wildcardPasses_other notRun notBackslash, replaceWildcards]

theorem replaceWildcards_one :
    replaceWildcards ('_' :: rest) = '.' :: '{' :: '1' :: '}' :: replaceWildcards rest := by
  simp [replaceWildcards, wildcardPasses_sign, wildcardPasses_other]

theorem replaceWildcards_run :
    replaceWildcards ('%' :: rest) = '.' :: '*' :: replaceWildcards rest := by
  simp [replaceWildcards, wildcardPasses_sign, wildcardPasses_other]

theorem replaceWildcards_escapedOne :
    replaceWildcards ('\\' :: '_' :: rest) = '_' :: replaceWildcards rest := by
  simp [replaceWildcards, wildcardPasses_escaped, wildcardPasses_other]

/-- The pass for the underscore leaves an escaped percent sign for the other pass. -/
theorem replaceWildcards_escapedRun :
    replaceWildcards ('\\' :: '%' :: rest) = '%' :: replaceWildcards rest := by
  have kept : wildcardPasses '_' ['.', '{', '1', '}'] ('\\' :: '%' :: rest) =
      '\\' :: wildcardPasses '_' ['.', '{', '1', '}'] ('%' :: rest) :=
    wildcardPasses_backslash (by decide) (by simp)
  simp [replaceWildcards, kept, wildcardPasses_escaped, wildcardPasses_other]

/-- The pass for the underscore takes backslashes away, but none of them exposes a percent sign. -/
theorem replaceWildcards_backslash (notOne : ∀ first ∈ rest.head?, first ≠ '_')
    (notRun : ∀ first ∈ rest.head?, first ≠ '%') :
    replaceWildcards ('\\' :: rest) = '\\' :: replaceWildcards rest := by
  have stillNotRun : ∀ first ∈ (wildcardPasses '_' ['.', '{', '1', '}'] rest).head?, first ≠ '%' :=
    head?_wildcardPasses (by decide) (by decide) (by simp) notRun (by decide) (by simp)
  rw [replaceWildcards, wildcardPasses_backslash (by decide) notOne,
    wildcardPasses_backslash (by decide) stillNotRun, replaceWildcards]

theorem head?_replaceWildcards (notPlain : ∀ first ∈ text.head?, first ∉ plainSigns) :
    ∀ first ∈ (replaceWildcards text).head?, first ∉ plainSigns := by
  have afterOne : ∀ first ∈ (wildcardPasses '_' ['.', '{', '1', '}'] text).head?,
      first ∉ plainSigns :=
    head?_wildcardPasses (by decide) (by decide) (by simp) notPlain (by decide) (by simp [plainSigns])
  exact head?_wildcardPasses (by decide) (by decide) (by simp) afterOne (by decide)
    (by simp [plainSigns])

/-- A backslash that takes the meaning from nothing is doubled in the end, as the passes before leave it
alone and put no escaped sign right behind it. -/
theorem passes_backslash (notOne : ∀ first ∈ rest.head?, first ≠ '_')
    (notRun : ∀ first ∈ rest.head?, first ≠ '%') :
    doubleBackslashes (replaceWildcards (escapeSigns ('\\' :: rest))) =
      '\\' :: '\\' :: doubleBackslashes (replaceWildcards (escapeSigns rest)) := by
  have escaped : escapeSigns ('\\' :: rest) = '\\' :: escapeSigns rest := rfl
  have stillNotOne : ∀ first ∈ (escapeSigns rest).head?, first ≠ '_' :=
    head?_escapeSigns (by decide) fun first member _ => notOne first member
  have stillNotRun : ∀ first ∈ (escapeSigns rest).head?, first ≠ '%' :=
    head?_escapeSigns (by decide) fun first member _ => notRun first member
  have lone : ∀ first ∈ (replaceWildcards (escapeSigns rest)).head?, first ∉ plainSigns :=
    head?_replaceWildcards (head?_escapeSigns (by decide) fun _ _ other => other)
  rw [escaped, replaceWildcards_backslash stillNotOne stillNotRun, doubleBackslashes_backslash lone]

theorem head?_ne_of_forall_ne_cons (follows : ∀ more, rest = c :: more → False) :
    ∀ first ∈ rest.head?, first ≠ c := by
  intro first member same
  obtain ⟨more, split⟩ := List.head?_eq_some_iff.mp member
  exact follows more (same ▸ split)

/-- The translation in one pass is what the passes over the whole text make, one after another: signs
without a meaning are escaped, then each wildcard is replaced where it is not escaped and loses its
backslash where it is, and at last the backslashes that are left are doubled. -/
theorem regexText_eq_passes (pattern : List Char) :
    regexText pattern =
      doubleBackslashes (unescape '%' (replaceUnescaped '%' ['.', '*'] false
        (unescape '_' (replaceUnescaped '_' ['.', '{', '1', '}'] false (escapeSigns pattern))))) := by
  change regexText pattern = doubleBackslashes (replaceWildcards (escapeSigns pattern))
  fun_induction regexText pattern with
  | case1 => rfl
  | case2 rest ih =>
    have escaped : escapeSigns ('\\' :: '_' :: rest) = '\\' :: '_' :: escapeSigns rest := rfl
    simp [escaped, replaceWildcards_escapedOne, doubleBackslashes_cons_of_ne, ih]
  | case3 rest ih =>
    have escaped : escapeSigns ('\\' :: '%' :: rest) = '\\' :: '%' :: escapeSigns rest := rfl
    simp [escaped, replaceWildcards_escapedRun, doubleBackslashes_cons_of_ne, ih]
  | case4 rest notOne notRun ih =>
    rw [passes_backslash (head?_ne_of_forall_ne_cons notOne) (head?_ne_of_forall_ne_cons notRun), ih]
  | case5 rest ih =>
    have kept : escapeSigns ('_' :: rest) = '_' :: escapeSigns rest := rfl
    simp [kept, replaceWildcards_one, doubleBackslashes_cons_of_ne, ih]
  | case6 rest ih =>
    have kept : escapeSigns ('%' :: rest) = '%' :: escapeSigns rest := rfl
    simp [kept, replaceWildcards_run, doubleBackslashes_cons_of_ne, ih]
  | case7 c rest _ _ notBackslash notOne notRun plain ih =>
    -- the backslash of the first pass takes no meaning away and is not doubled
    rw [escapeSigns_cons_of_mem plain, replaceWildcards_backslash (by simpa using notOne)
      (by simpa using notRun), replaceWildcards_other notBackslash notOne notRun,
      doubleBackslashes_escape plain, ih]
  | case8 c rest _ _ notBackslash notOne notRun other ih =>
    rw [escapeSigns_cons_of_not_mem other, replaceWildcards_other notBackslash notOne notRun,
      doubleBackslashes_cons_of_ne notBackslash, ih]

end RecordQuery.Like
