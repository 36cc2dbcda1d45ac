import RecordQuery.Proofs.Building
import RecordQuery.Proofs.Document
import RecordQuery.Settings.Storage

namespace RecordQuery

/-! ### Files and folders -/

namespace Entry

variable {change : Option Entry → Except Error Entry} {path : List String} {present? : Option Entry}

theorem lookup_put_self (name : String) (entry : Entry) (entries : List (String × Entry)) :
    (put name entry entries).lookup name = some entry := by
  induction entries with
  | nil => simp [put]
  | cons first rest ih =>
    rw [put]
    split
    · simp
    · rename_i other
      rw [List.lookup_cons, beq_false_of_ne (Ne.symm other), ih]

theorem put_put (name : String) (entry other : Entry) (entries : List (String × Entry)) :
    put name entry (put name other entries) = put name entry entries := by
  induction entries with
  | nil => simp [put]
  | cons first rest ih =>
    by_cases same : first.1 = name
    · simp [put, same]
    · simp [put, same, ih]

theorem bind_find?_nil (present? : Option Entry) : present?.bind (find? []) = present? := by
  cases present? <;> rfl

/-- Whether no file stands on the way to a path. -/
def Passable (path : List String) (present? : Option Entry) : Prop :=
  ∀ front rest content, path = front ++ rest → rest ≠ [] →
    present?.bind (find? front) ≠ some (.file content)

theorem passable_nil (present? : Option Entry) : Passable [] present? := by
  intro front rest content same nonempty
  exact absurd (List.append_eq_nil_iff.mp same.symm).2 nonempty

theorem passable_none (path : List String) : Passable path none :=
  fun _ _ _ _ _ found => nomatch found

theorem not_passable_file (name : String) (path : List String) (content : ByteArray) :
    ¬Passable (name :: path) (some (.file content)) :=
  fun passable => passable [] (name :: path) content rfl (List.cons_ne_nil _ _) rfl

theorem passable_folder_iff {name : String} {entries : List (String × Entry)} :
    Passable (name :: path) (some (.folder entries)) ↔ Passable path (entries.lookup name) := by
  constructor
  · intro passable front rest content same nonempty
    exact passable (name :: front) rest content (congrArg _ same) nonempty
  · intro passable front rest content same nonempty
    cases front with
    | nil => exact fun found => nomatch found
    | cons first front =>
      obtain ⟨rfl, behind⟩ := List.cons.inj same
      exact passable front rest content behind nonempty

/-- An entry is changed if the way to it is free and it can be changed by itself. -/
theorem exists_changeAt {new : Entry} (passable : Passable path present?)
    (changed : change (present?.bind (find? path)) = .ok new) :
    ∃ after, changeAt change path present? = .ok after := by
  induction path generalizing present? with
  | nil =>
    rw [bind_find?_nil] at changed
    exact ⟨new, changed⟩
  | cons name path ih =>
    match present? with
    | none =>
      obtain ⟨after, made⟩ := ih (passable_none path) changed
      exact ⟨.folder [(name, after)], by rw [changeAt, made]; rfl⟩
    | some (.file content) => exact absurd passable (not_passable_file name path content)
    | some (.folder entries) =>
      obtain ⟨after, made⟩ := ih (passable_folder_iff.mp passable) changed
      exact ⟨.folder (put name after entries), by rw [changeAt, made]; rfl⟩

/-- After a change the new entry is found at its path, and the way to it was free. -/
theorem changed_of_changeAt {after : Entry} (made : changeAt change path present? = .ok after) :
    Passable path present? ∧ ∃ new, change (present?.bind (find? path)) = .ok new ∧
      after.find? path = some new := by
  induction path generalizing present? after with
  | nil =>
    rw [bind_find?_nil]
    exact ⟨passable_nil present?, after, made, rfl⟩
  | cons name path ih =>
    match present? with
    | none =>
      rw [changeAt] at made
      obtain ⟨inner, inside, rfl⟩ := exists_of_map_eq_ok made
      obtain ⟨_, new, changed, found⟩ := ih inside
      exact ⟨passable_none _, new, changed, by simp [find?, found]⟩
    | some (.file content) => cases made
    | some (.folder entries) =>
      rw [changeAt] at made
      obtain ⟨inner, inside, rfl⟩ := exists_of_map_eq_ok made
      obtain ⟨passable, new, changed, found⟩ := ih inside
      refine ⟨passable_folder_iff.mpr passable, new, changed, ?_⟩
      rw [find?, lookup_put_self]
      exact found

/-- Making the folders of a path first makes no difference, as they are made as needed. -/
theorem changeAt_makeFolder_bind (folder : List String) (name : String) (present? : Option Entry) :
    ((changeAt makeFolder folder present?).bind fun made =>
        changeAt change (folder ++ [name]) (some made)) =
      changeAt change (folder ++ [name]) present? := by
  induction folder generalizing present? with
  | nil =>
    match present? with
    | none => rfl
    | some (.file content) => rfl
    | some (.folder entries) => rfl
  | cons first folder ih =>
    match present? with
    | none =>
      have inside := ih none
      rw [List.cons_append, changeAt, changeAt, ← inside]
      cases changeAt makeFolder folder none with
      | error fault => rfl
      | ok inner => simp [Except.map, Except.bind, changeAt, put]
    | some (.file content) => rfl
    | some (.folder entries) =>
      have inside := ih (entries.lookup first)
      rw [List.cons_append, changeAt, changeAt, ← inside]
      cases changeAt makeFolder folder (entries.lookup first) with
      | error fault => rfl
      | ok inner => simp [Except.map, Except.bind, changeAt, lookup_put_self, put_put]

/-- Whether a file can be written at a path: no file stands on the way and no folder at its end. -/
structure Writable (path : List String) (disk : Entry) : Prop where
  named : path ≠ []
  passable : Passable path (some disk)
  noFolder : ∀ entries, disk.find? path ≠ some (.folder entries)

theorem writeFile_eq_ok_iff {content : ByteArray} {new : Entry} :
    writeFile content present? = .ok new ↔
      new = .file content ∧ ∀ entries, present? ≠ some (.folder entries) := by
  match present? with
  | none => simp [writeFile, eq_comm]
  | some (.file other) => simp [writeFile, eq_comm]
  | some (.folder entries) => simp [writeFile]

end Entry

namespace Format

variable {format : Format} {settings : Settings} {text : String}

/-! ### The text of settings -/

theorem mapM_textOfValue? (names : List String) :
    (names.map Toml.Value.text).mapM Settings.textOfValue? = some names := by
  induction names with
  | nil => rfl
  | cons name names ih =>
    rw [List.map_cons, List.mapM_cons, ih]
    rfl

/-- Settings make a table that can be stored unless their depth is too large. -/
theorem storable_members (within : settings.maxDepth ≤ 9223372036854775807) :
    Toml.Storable settings.members where
  keys := by
    have depth : Toml.BareKey Settings.depthKey.toList :=
      ⟨List.cons_ne_nil _ _, List.all_eq_true.mp rfl⟩
    have reserved : Toml.BareKey Settings.reservedKey.toList :=
      ⟨List.cons_ne_nil _ _, List.all_eq_true.mp rfl⟩
    exact List.forall_mem_cons.mpr ⟨depth, List.forall_mem_singleton.mpr reserved⟩
  distinct := by
    have different : Settings.depthKey ≠ Settings.reservedKey := by decide
    simp [Settings.members, different]
  numbers := by
    intro key value member
    rcases List.mem_cons.mp member with same | other
    · cases same
      exact within
    · cases List.mem_singleton.mp other

/-- Settings are written as some text, and what is read from it are the same settings unless their
depth is zero. -/
theorem Faithful.decode_encode (faithful : format.Faithful)
    (within : settings.maxDepth ≤ 9223372036854775807) :
    ∃ text, format.encode settings = .ok text ∧ format.decode text =
      if settings.maxDepth = 0 then .error .noDepth else .ok settings := by
  obtain ⟨text, back, written, read, found⟩ := faithful.reads settings.members (storable_members within)
  have other : (Settings.reservedKey == Settings.depthKey) = false := by decide
  have atDepth : back.lookup Settings.depthKey = some (.integer settings.maxDepth) := by
    rw [found, Settings.members, List.lookup_cons, beq_self_eq_true]
    rfl
  have atReserved : back.lookup Settings.reservedKey =
      some (.array (settings.reserved.map .text)) := by
    rw [found, Settings.members, List.lookup_cons, other, List.lookup_cons, beq_self_eq_true]
    rfl
  have depth : Settings.setting? Settings.depthOfValue? Settings.builtIn.maxDepth
      (some (.integer settings.maxDepth)) = some settings.maxDepth := by
    simp [Settings.setting?, Settings.depthOfValue?]
  have reserved : Settings.setting? Settings.namesOfValue? Settings.builtIn.reserved
      (some (.array (settings.reserved.map .text))) = some settings.reserved :=
    mapM_textOfValue? settings.reserved
  refine ⟨text, by rw [encode, written], ?_⟩
  simp only [decode, read, bind, Option.bind, atDepth, atReserved, depth, reserved]
  rfl

theorem Faithful.encode_of_exceeds (faithful : format.Faithful)
    (exceeds : 9223372036854775807 < settings.maxDepth) :
    format.encode settings = .error .unwritable := by
  have refused : format.write settings.members = none :=
    faithful.refuses settings.members Settings.depthKey settings.maxDepth List.mem_cons_self exceeds
  rw [encode, refused]

/-! ### Saving and loading -/

section Saving

variable {path : List String} {disk after : Entry}

/-- Settings that cannot be written leave the disk as it is. -/
theorem store_of_encode_error {fault : SettingsFault} (refused : format.encode settings = .error fault) :
    format.store settings path disk = .error (.settings fault) disk := by
  simp only [store, refused]
  rfl

/-- Storing settings comes down to writing their text into a file. -/
theorem store_eq_ok_iff (written : format.encode settings = .ok text) :
    format.store settings path disk = .ok () after ↔ path ≠ [] ∧
      Entry.changeAt (Entry.writeFile text.toUTF8) path (some disk) = .ok after := by
  have steps : format.store settings path disk = .ok () after ↔
      ∃ between, Entry.changeAt Entry.makeFolder path.dropLast (some disk) = .ok between ∧
        Entry.changeAt (Entry.writeFile text.toUTF8) path (some between) = .ok after := by
    simp only [store, written, Except.mapError, MonadExcept.ofExcept, pure, bind, EStateM.pure,
      EStateM.bind, Entry.update]
    cases Entry.changeAt Entry.makeFolder path.dropLast (some disk) with
    | error fault => simp
    | ok between =>
      cases made : Entry.changeAt (Entry.writeFile text.toByteArray) path (some between) <;>
        simp [made]
  rw [steps]
  constructor
  · rintro ⟨between, folders, file⟩
    -- A path without names leads to the disk itself, which can be a folder but no file.
    have named : path ≠ [] := by
      rintro rfl
      cases disk with
      | file content => cases folders
      | folder entries =>
        cases folders
        cases file
    refine ⟨named, ?_⟩
    have whole := List.dropLast_concat_getLast named
    rw [← whole] at file ⊢
    rw [← Entry.changeAt_makeFolder_bind, folders]
    exact file
  · rintro ⟨named, made⟩
    have whole := List.dropLast_concat_getLast named
    rw [← whole, ← Entry.changeAt_makeFolder_bind, whole] at made
    exact exists_of_bind_eq_ok made

/-- Settings that can be written are stored exactly where a file can be written. -/
theorem exists_store_iff (written : format.encode settings = .ok text) :
    (∃ after, format.store settings path disk = .ok () after) ↔ disk.Writable path := by
  simp only [store_eq_ok_iff written]
  constructor
  · rintro ⟨after, named, made⟩
    obtain ⟨passable, new, changed, _⟩ := Entry.changed_of_changeAt made
    exact ⟨named, passable, (Entry.writeFile_eq_ok_iff.mp changed).2⟩
  · intro writable
    have free : Entry.writeFile text.toUTF8 (disk.find? path) = .ok (.file text.toUTF8) :=
      Entry.writeFile_eq_ok_iff.mpr ⟨rfl, writable.noFolder⟩
    obtain ⟨after, made⟩ := Entry.exists_changeAt writable.passable free
    exact ⟨after, writable.named, made⟩

theorem load_of_store (written : format.encode settings = .ok text)
    (stored : format.store settings path disk = .ok () after) :
    format.load path after = (format.decode text).mapError .settings := by
  obtain ⟨_, made⟩ := (store_eq_ok_iff written).mp stored
  obtain ⟨_, new, changed, found⟩ := Entry.changed_of_changeAt made
  obtain ⟨rfl, _⟩ := Entry.writeFile_eq_ok_iff.mp changed
  have read : String.fromUTF8? text.toUTF8 = some text := dif_pos text.isValidUTF8
  rw [load, found, ofEntry, Entry.text, read]
  rfl

end Saving

end Format

/-- The format of settings files keeps what a format promises. -/
theorem Toml.faithful_format : Toml.format.Faithful where
  reads := by
    intro members storable
    obtain ⟨text, written, read⟩ := readDocument_writeDocument storable
    refine ⟨String.ofList text, readBack members, ?_, ?_, fun key => lookup_readBack key members⟩
    · simp only [format, written, Option.map_some]
    · simp only [format, String.toList_ofList, read]
  refuses := by
    intro members key value member exceeds
    simp only [format, writeDocument_of_exceeds member exceeds, Option.map_none]

example : Toml.format.encode ⟨8, ["say \"hi\" \\", "two\nlines", "\x01", ""]⟩ = .ok
    "max_depth = 8
reserved_segments = [
    'say \"hi\" \\',
    \"\"\"
two
lines\"\"\",
    \"\\u0001\",
    \"\",
]
" := by cbv

namespace Settings

/-- Settings are saved wherever a file can be written, and then loaded again, except that a depth
of zero is refused on loading. A depth beyond the integers of the format is refused before anything
on the disk changes. -/
theorem save_then_load (format : Format) (faithful : format.Faithful) (settings : Settings)
    (path : List String) (disk : Entry) :
    (settings.maxDepth ≤ 9223372036854775807 →
      ((∃ after, format.store settings path disk = .ok () after) ↔ disk.Writable path) ∧
      ∀ after, format.store settings path disk = .ok () after →
        (1 ≤ settings.maxDepth → format.load path after = .ok settings) ∧
        (settings.maxDepth = 0 → format.load path after = .error (.settings .noDepth))) ∧
    (9223372036854775807 < settings.maxDepth →
      format.store settings path disk = .error (.settings .unwritable) disk) := by
  constructor
  · intro within
    obtain ⟨text, written, read⟩ := faithful.decode_encode within
    refine ⟨Format.exists_store_iff written, fun after stored => ?_⟩
    have loaded := Format.load_of_store written stored
    rw [read] at loaded
    constructor
    · intro positive
      rw [loaded, if_neg (Nat.ne_of_gt positive)]
      rfl
    · intro zero
      rw [loaded, if_pos zero]
      rfl
  · intro exceeds
    exact Format.store_of_encode_error (faithful.encode_of_exceeds exceeds)

/-- Names with quotes, backslashes, a line break and nothing in them, a depth of zero, and a depth
that is one too large. -/
theorem save_then_load_escaped :
    let format := Toml.format
    let path := ["ql", "config.toml"]
    let disk : Entry := .folder []
    let names := ["say \"hi\" \\", "two\nlines", "\x01", ""]
    (∃ after, format.store ⟨8, names⟩ path disk = .ok () after ∧ format.load path after = .ok ⟨8, names⟩) ∧
      (∃ after, format.store ⟨0, names⟩ path disk = .ok () after ∧
        format.load path after = .error (.settings .noDepth)) ∧
      format.store ⟨9223372036854775808, names⟩ path disk = .error (.settings .unwritable) disk := by
  intro format path disk names
  have writable : disk.Writable path :=
    ⟨List.cons_ne_nil _ _, Entry.passable_folder_iff.mpr (Entry.passable_none _),
      fun entries found => nomatch found⟩
  have law (depth : Nat) := save_then_load format Toml.faithful_format ⟨depth, names⟩ path disk
  obtain ⟨savable, loaded⟩ := (law 8).1 (by decide)
  obtain ⟨savableZero, loadedZero⟩ := (law 0).1 (by decide)
  obtain ⟨after, stored⟩ := savable.mpr writable
  obtain ⟨afterZero, storedZero⟩ := savableZero.mpr writable
  exact ⟨⟨after, stored, (loaded after stored).1 (by decide)⟩,
    ⟨afterZero, storedZero, (loadedZero afterZero storedZero).2 rfl⟩,
    (law 9223372036854775808).2 (by decide)⟩

end Settings

end RecordQuery
