import RecordQuery.Proofs.Accepted
import RecordQuery.Proofs.Reading

namespace RecordQuery

namespace Query

/-- The limit clause for a limit of any sign. A canonical text has one for a positive limit only. -/
def wordPart (query : Query) : List (String × List TokenKind) :=
  (query.limit?.map fun limit =>
    ("LIMIT " ++ integerText limit.toInt, [.keyword .limit, (Scalar.int limit).kind])).toList

/-- The tokens of all clauses of a query. -/
def everyClause (query : Query) : List TokenKind :=
  ((query.orderPart ++ query.wordPart ++ query.tokenPart).map Prod.snd).flatten

end Query

namespace Place

variable {limit : Nat} {place : Place} {query : Query} {goal : Place → Prop}

/-- A place where a statement may end that stands for a query, and where any of some clauses may
begin instead. -/
def Ends (limit : Nat) (words : List Keyword) (query : Query) (place : Place) : Prop :=
  ∃ read, place.statement? = some read ∧ Query.ofStatement read = .ok query ∧
    ∀ word ∈ words, ∀ column,
      place.next? limit ⟨.keyword word, column⟩ = clause? read (.keyword word)

theorem Ends.mono {words fewer : List Keyword} (ends : Ends limit words query place)
    (among : fewer ⊆ words) : Ends limit fewer query place := by
  obtain ⟨read, atEnd, built, clauses⟩ := ends
  exact ⟨read, atEnd, built, fun word member => clauses word (among member)⟩

/-- The sort keys of a clause, from its first field on. -/
theorem reads_keys {read : Statement} {keys : List SortKey} (nonempty : keys ≠ [])
    (before : List SortKey) :
    Reads limit (.sortField read before)
      ([.punctuation .comma].intercalate (keys.map SortKey.kinds))
      (· = .sortKeyEnd read (keys.reverse ++ before)) := by
  induction keys generalizing before with
  | nil => exact absurd rfl nonempty
  | cons key rest ih =>
    have first : Reads limit (.sortField read before) key.kinds
        (· = .sortKeyEnd read (key :: before)) := by
      obtain ⟨field, direction⟩ := key
      refine .cons fun _ => ⟨.sortDirection read before field, rfl, .cons fun _ => ⟨_, ?_, .nil rfl⟩⟩
      cases direction <;> rfl
    cases rest with
    | nil => exact first
    | cons next rest =>
      rw [List.map_cons, List.map_cons, List.intercalate_cons_cons, List.append_assoc]
      refine first.append ?_
      rintro _ rfl
      refine .cons fun _ => ⟨.sortField read (key :: before), rfl, ?_⟩
      refine (ih (List.cons_ne_nil _ _) (key :: before)).mono ?_
      rintro _ rfl
      rw [List.reverse_cons (a := key), List.append_assoc, List.singleton_append]

/-- A clause that may be missing. -/
theorem Reads.optional {α : Type} {part? : Option α} {part : α → String × List TokenKind}
    (absent : part? = none → goal place)
    (present : ∀ x, part? = some x → Reads limit place (part x).2 goal) :
    Reads limit place ((part?.map part).toList.map Prod.snd).flatten goal := by
  cases part? with
  | none => exact .nil (absent rfl)
  | some x => simpa using present x rfl

theorem reads_order {keys : List SortKey} (nonempty : keys ≠ [])
    (ends : Ends limit [.order, .limit, .offset] query place) :
    Reads limit place ([.keyword .order, .keyword .sortedBy] ++
        [.punctuation .comma].intercalate (keys.map SortKey.kinds))
      (Ends limit [.limit, .offset] { query with order? := some keys }) := by
  obtain ⟨read, _, built, clauses⟩ := ends
  refine .cons fun column => ⟨.sortedBy read, clauses .order (by simp) column, ?_⟩
  refine .cons fun _ => ⟨.sortField read [], rfl, ?_⟩
  refine (reads_keys nonempty []).mono ?_
  rintro _ rfl
  refine ⟨withOrder read (keys.reverse ++ []), rfl, ?_, ?_⟩
  · rw [Query.ofStatement_eq_ok_iff] at built ⊢
    refine ⟨built.1, ?_, built.2.2.1, built.2.2.2⟩
    simp only [withOrder, List.append_nil, List.reverse_reverse]
  · intro word member column
    rcases List.mem_cons.mp member with rfl | member
    · rfl
    · rw [List.mem_singleton.mp member]
      rfl

theorem reads_limit (word : Int64) (ends : Ends limit [.limit, .offset] query place) :
    Reads limit place [.keyword .limit, (Scalar.int word).kind]
      (Ends limit [.offset] { query with limit? := some word }) := by
  obtain ⟨read, _, built, clauses⟩ := ends
  refine (reads_limitClause _ (clauses .limit (by simp))).mono ?_
  rintro _ ⟨column, rfl⟩
  refine ⟨_, rfl, ?_, ?_⟩
  · rw [Query.ofStatement_eq_ok_iff] at built ⊢
    refine ⟨built.1, built.2.1, ?_, built.2.2.2⟩
    simp only [Statement.word?, Numeral.toWord_ofInt]
    rfl
  · intro keyword member column
    rw [List.mem_singleton.mp member]
    rfl

theorem reads_offset (token : String) (ends : Ends limit [.offset] query place) :
    Reads limit place [.keyword .offset, (Scalar.text token).kind]
      (Ends limit [] { query with token? := some token }) := by
  obtain ⟨read, _, built, clauses⟩ := ends
  refine (reads_offsetClause _ (clauses .offset (by simp))).mono ?_
  rintro _ rfl
  refine ⟨_, rfl, ?_, fun _ member => nomatch member⟩
  rw [Query.ofStatement_eq_ok_iff] at built ⊢
  exact ⟨built.1, built.2.1, built.2.2.1, rfl⟩

/-- All clauses of a query behind its expression, with a limit of any sign. -/
theorem reads_everyClause {filter : Filter} (query : Query)
    (nonempty : ∀ keys, query.order? = some keys → keys ≠ [])
    (ends : Ends limit [.order, .limit, .offset] ⟨filter, none, none, none⟩ place) :
    Reads limit place query.everyClause
      (Ends limit [] ⟨filter, query.order?, query.limit?, query.token?⟩) := by
  have order : Reads limit place (query.orderPart.map Prod.snd).flatten
      (Ends limit [.limit, .offset] ⟨filter, query.order?, none, none⟩) := by
    refine .optional (fun absent => ?_) fun keys present => ?_
    · rw [absent]
      exact ends.mono (by simp)
    · rw [present]
      exact reads_order (nonempty keys present) ends
  have size (reached : Place)
      (ends : Ends limit [.limit, .offset] ⟨filter, query.order?, none, none⟩ reached) :
      Reads limit reached (query.wordPart.map Prod.snd).flatten
        (Ends limit [.offset] ⟨filter, query.order?, query.limit?, none⟩) := by
    refine .optional (fun absent => ?_) fun word present => ?_
    · rw [absent]
      exact ends.mono (by simp)
    · rw [present]
      exact reads_limit word ends
  rw [Query.everyClause, List.map_append, List.map_append, List.flatten_append, List.flatten_append]
  refine (order.append size).append fun reached ends => ?_
  refine .optional (fun absent => ?_) fun token present => ?_
  · rw [absent]
    exact ends.mono (by simp)
  · rw [present]
    exact reads_offset token ends

/-- The clauses that a canonical text has. A limit that is not positive is lost. -/
theorem reads_clauses {filter : Filter} (nonempty : ∀ keys, query.order? = some keys → keys ≠ [])
    (ends : Ends limit [.order, .limit, .offset] ⟨filter, none, none, none⟩ place) :
    Reads limit place (query.clauseParts.map Prod.snd).flatten
      (Ends limit [] ⟨filter, query.order?, query.limit?.filter (0 < ·), query.token?⟩) :=
  reads_everyClause { query with limit? := query.limit?.filter (0 < ·) } nonempty ends

theorem ends_operandEnd {level : Level} {filter : Filter}
    (built : level.toNode.toFilter = .ok filter) :
    Ends limit [.order, .limit, .offset] ⟨filter, none, none, none⟩ (.operandEnd ⟨level, []⟩) := by
  refine ⟨ofExpression (some level.toNode), rfl, ?_, fun _ => next_clause_operandEnd level⟩
  exact Query.ofStatement_eq_ok_iff.mpr ⟨built, rfl, rfl, rfl⟩

theorem operand_of_openGroup {reached inside : Place} {column : Nat}
    (next : reached.next? limit ⟨.punctuation .openGroup, column⟩ = some inside) :
    ∃ levels, inside = .operand levels := by
  have opened {levels : Levels}
      (next : afterOperandStart? limit levels (.punctuation .openGroup) = some inside) :
      ∃ levels, inside = .operand levels := by
    rw [afterOperandStart?] at next
    split at next
    · exact ⟨levels.enter, (Option.some.inj next).symm⟩
    · cases next
  cases reached with
  | start => exact opened next
  | operand levels => exact opened next
  | operandEnd levels =>
    have atEnd : (if levels.depth = 0 then none else none) = some inside := next
    simp at atEnd
  | _ => cases next

theorem ends_start : Ends limit [.order, .limit, .offset] .matchAll .start :=
  ⟨ofExpression none, rfl, rfl, fun _ => next_clause_start⟩

end Place

namespace Filter

open Place

variable {limit : Nat} {filter : Filter}

theorem infix_intercalate_of_mem {α : Type} (separator : List α) {part : List α}
    {parts : List (List α)} (member : part ∈ parts) : part <:+: separator.intercalate parts := by
  induction parts with
  | nil => cases member
  | cons first rest ih =>
    cases rest with
    | nil =>
      have only := List.mem_singleton.mp member
      exact ⟨[], [], by rw [only, List.intercalate_singleton, List.nil_append, List.append_nil]⟩
    | cons next rest =>
      rw [List.intercalate_cons_cons]
      rcases List.mem_cons.mp member with rfl | later
      · exact ((List.prefix_append part separator).trans (List.prefix_append _ _)).isInfix
      · exact (ih later).trans (List.suffix_append _ _).isInfix

theorem exists_intercalate_eq_cons {α : Type} (separator : List α) (first : α) (front : List α)
    (parts : List (List α)) :
    ∃ rest, separator.intercalate ((first :: front) :: parts) = first :: rest := by
  cases parts with
  | nil => exact ⟨front, List.intercalate_singleton⟩
  | cons next parts => exact ⟨_, List.intercalate_cons_cons⟩

theorem beginsOperand_kinds (full : filter.Full) (nested : Bool) :
    BeginsOperand (filter.kinds nested) := by
  induction filter using tree_induction generalizing nested with
  | leaf comparison => exact ⟨_, _, rfl, fun _ => rfl⟩
  | node connective children ih =>
    cases nested with
    | true => exact ⟨_, _, rfl, fun _ => rfl⟩
    | false =>
      obtain ⟨nonempty, fullChildren⟩ := full_node_iff.mp full
      obtain ⟨first, rest, rfl⟩ := List.exists_cons_of_ne_nil nonempty
      obtain ⟨kind, others, atFirst, noClause⟩ :=
        ih first List.mem_cons_self (fullChildren first List.mem_cons_self) true
      obtain ⟨tail, whole⟩ := exists_intercalate_eq_cons [.keyword connective.keyword] kind others
        (kindsOfAll rest)
      refine ⟨kind, tail, ?_, noClause⟩
      rw [← whole, ← atFirst]
      rfl

/-- A filter without empty nodes is read from its canonical text if the nodes below its root fit
into the limit. -/
theorem reads_root (full : filter.Full) (writable : filter.Writable)
    (within : filter.nesting ≤ limit) :
    Reads limit .start (filter.kinds false)
      (Ends limit [.order, .limit, .offset] ⟨filter.regrouped, none, none, none⟩) := by
  refine .start (beginsOperand_kinds full false) ?_
  cases filter with
  | leaf comparison =>
    refine (reads_comparison (writable comparison (by simp [comparisons]))).mono ?_
    rintro _ ⟨node, built, rfl⟩
    exact ends_operandEnd built
  | node connective children =>
    obtain ⟨nonempty, fullChildren⟩ := full_node_iff.mp full
    refine (reads_children connective nonempty ?_ .empty).mono ?_
    · intro child member level
      refine reads_operand (fullChildren child member) (writable.child member) ?_
      have deeper : child.depth + 1 ≤ (node connective children).depth := depth_child member
      simp only [Levels.depth, List.length_nil, nesting] at within ⊢
      omega
    · rintro _ ⟨nodes, built, rfl⟩
      exact ends_operandEnd (toFilter_pushAll nonempty fullChildren built)

/-- A filter without empty nodes is refused if the nodes below its root do not fit into the
limit. -/
theorem refuses_root (full : filter.Full) (writable : filter.Writable)
    (beyond : limit < filter.nesting) : Refuses limit .start (filter.kinds false) := by
  refine .start (beginsOperand_kinds full false) ?_
  cases filter with
  | leaf comparison =>
    rw [nesting, depth] at beyond
    omega
  | node connective children =>
    obtain ⟨nonempty, fullChildren⟩ := full_node_iff.mp full
    obtain ⟨deep, member, atDeep⟩ := exists_depth_child connective nonempty
    have within : ([] : List Level).length ≤ limit := Nat.zero_le limit
    refine refuses_children connective fullChildren (fun child inside => writable.child inside)
      member ?_ ?_ .empty
    · intro child inside exceeds level
      exact refuses_operand (fullChildren child inside) (writable.child inside) within exceeds
    · rw [nesting, ← atDeep] at beyond
      rw [List.length_nil]
      omega

/-- A group without content is refused wherever it stands. -/
theorem refuses_emptyGroup {kinds : List TokenKind}
    (contained : [.punctuation .openGroup, .punctuation .closeGroup] <:+: kinds) (place : Place) :
    Refuses limit place kinds := by
  obtain ⟨before, after, rfl⟩ := contained
  rw [List.append_assoc]
  intro tokens same
  obtain ⟨front, back, rfl, _, atBack⟩ := List.map_eq_append_iff.mp same
  rw [run_append]
  cases run limit place front with
  | error fault => exact ⟨fault, rfl⟩
  | ok reached =>
    -- wherever a group opens, an operand has to come next
    refine Refuses.append ?_ after back atBack
    intro tokens same
    obtain ⟨⟨_, column⟩, rest, rfl, rfl, others⟩ := List.map_eq_cons_iff.mp same
    rw [run]
    cases next : reached.next? limit ⟨.punctuation .openGroup, column⟩ with
    | none => exact ⟨_, rfl⟩
    | some inside =>
      obtain ⟨levels, rfl⟩ := operand_of_openGroup next
      exact Refuses.of_next_eq_none (fun _ => rfl) rest others

/-- A node without children below the root is written as a group without content. -/
theorem emptyGroup_infix_kinds {connective : Connective} (nested : Bool)
    (member : node connective [] ∈ filter.descendants) :
    [.punctuation .openGroup, .punctuation .closeGroup] <:+: filter.kinds nested := by
  induction filter using tree_induction generalizing nested with
  | leaf comparison => simp [descendants] at member
  | node own children ih =>
    rw [descendants, descendantsOfAll_eq_flatMap] at member
    obtain ⟨child, inChildren, inChild⟩ := List.mem_flatMap.mp member
    have atChild : [.punctuation .openGroup, .punctuation .closeGroup] <:+: child.kinds true := by
      rcases List.mem_cons.mp inChild with rfl | below
      · exact List.infix_rfl
      · exact ih child inChildren true below
    have inKinds : child.kinds true ∈ kindsOfAll children := by
      rw [kindsOfAll_eq_map]
      exact List.mem_map_of_mem inChildren
    have inside := atChild.trans (infix_intercalate_of_mem [.keyword own.keyword] inKinds)
    cases nested with
    | false => exact inside
    | true => exact inside.trans ⟨[.punctuation .openGroup], [.punctuation .closeGroup], rfl⟩

end Filter

namespace Query

open Place

variable {limit : Nat} {query : Query}

theorem read_eq_ok_of_reads {text : String} {kinds : List TokenKind}
    (scans : Token.Scans text.toList kinds)
    (reads : Reads limit .start kinds (Ends limit [] query)) : read limit text = .ok query := by
  obtain ⟨tokens, scanned, same⟩ := scans.scanFrom_eq_ok 1
  obtain ⟨place, ran, statement, atEnd, built, _⟩ := reads tokens same
  exact read_eq_ok_iff.mpr ⟨tokens, place, statement, scanned, ran, atEnd, built⟩

theorem read_eq_error_of_refuses {text : String} {kinds : List TokenKind}
    (scans : Token.Scans text.toList kinds) (refuses : Refuses limit .start kinds) :
    ∃ problem, read limit text = .error problem := by
  obtain ⟨tokens, scanned, same⟩ := scans.scanFrom_eq_ok 1
  obtain ⟨⟨column, fault⟩, refused⟩ := refuses tokens same
  refine ⟨⟨column, .syntactic fault⟩, ?_⟩
  have whole : Statement.ofTokens limit tokens (endColumn text) = .error (column, fault) := by
    rw [Statement.ofTokens, refused]
    rfl
  have atText : Statement.read limit text = .error ⟨column, .syntactic fault⟩ := by
    simp only [Statement.read, Token.scan, scanned, whole]
  rw [read, atText]
  rfl

theorem filter_positive_twice (limit? : Option Int64) :
    (limit?.filter (0 < ·)).filter (0 < ·) = limit?.filter (0 < ·) := by
  rw [Option.filter_filter]
  simp only [Bool.and_self]

/-- The query that is read from the canonical text of a query. -/
def reread (query : Query) : Query :=
  { query with
    filter := query.filter.regrouped
    limit? := query.limit?.filter (0 < ·) }

/-- The canonical text of a query without empty nodes is read again if the nodes below the root
of its filter fit into the limit. -/
theorem read_render (writable : query.Writable)
    (shape : query.filter.Full ∨ query.filter = .matchAll)
    (within : query.filter.nesting ≤ limit) : read limit query.render = .ok query.reread := by
  refine read_eq_ok_of_reads (spells_render writable).scans ?_
  have root : Reads limit .start (query.filter.kinds false)
      (Ends limit [.order, .limit, .offset] ⟨query.filter.regrouped, none, none, none⟩) := by
    rcases shape with full | all
    · exact Filter.reads_root full writable.filter within
    · rw [all]
      exact .nil ends_start
  have nonempty : ∀ keys, query.order? = some keys → keys ≠ [] :=
    fun keys atOrder => (writable.order keys atOrder).1
  exact root.append fun place ends => reads_clauses nonempty ends

/-- The canonical text of a query is refused if a node below the root of its filter is empty. -/
theorem read_render_of_emptyNode (writable : query.Writable) {connective : Connective}
    (member : .node connective [] ∈ query.filter.descendants) (limit : Nat) :
    ∃ problem, read limit query.render = .error problem := by
  refine read_eq_error_of_refuses (spells_render writable).scans ?_
  exact (Filter.refuses_emptyGroup (Filter.emptyGroup_infix_kinds false member) .start).append _

/-- The canonical text of a query without empty nodes is refused if the nodes below the root of
its filter do not fit into the limit. -/
theorem read_render_of_deep (writable : query.Writable) (full : query.filter.Full)
    (beyond : limit < query.filter.nesting) :
    ∃ problem, read limit query.render = .error problem := by
  refine read_eq_error_of_refuses (spells_render writable).scans ?_
  exact (Filter.refuses_root full writable.filter beyond).append _

end Query

end RecordQuery
