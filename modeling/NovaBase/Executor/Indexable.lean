import NovaBase.Executor.Telemetry
import NovaBase.NovaQl.Lexemes
import NovaBase.NovaQl.Safety

/-!
# What an index is good for

The planner looks for a key of a given field, and telemetry lists the paths that
an index may serve. Both read the equalities that a predicate requires, from left
to right, and a path determines the field it was joined from.
-/

namespace NovaBase.Executor

open Lib NovaQl Index

section Terms

/-- The terms of a conjunction, from left to right. -/
def conjuncts : Expression → List Expression
  | .binary left .and right _ => conjuncts left ++ conjuncts right
  | e => [e]

/-- The key that an index holds for a literal. -/
def literalKey : Literal → Option IndexKey
  | .integer value => some (.int64 value)
  | .float value => some (.float64 (.new value))
  | .string value => some (.string value)
  | _ => none

/-- The term says that the field equals a literal, which has this key. -/
inductive Equates (field : List String) (key : IndexKey) : Expression → Prop
  | pathFirst {path : Path} {literal : Literal} {left right span : Span}
      (hpath : path.segments = field) (hkey : literalKey literal = some key) :
      Equates field key (.binary (.path path left) .equal (.literal literal right) span)
  | literalFirst {path : Path} {literal : Literal} {left right span : Span}
      (hpath : path.segments = field) (hkey : literalKey literal = some key) :
      Equates field key (.binary (.literal literal left) .equal (.path path right) span)

/-- The key of the leftmost term that compares the field with a literal. -/
def LeftmostKey (field : List String) (predicate : Expression) (key : IndexKey) : Prop :=
  ∃ before term after, conjuncts predicate = before ++ term :: after ∧ Equates field key term ∧
    ∀ earlier ∈ before, ∀ other, ¬Equates field other earlier

variable {field : List String} {key : IndexKey} {path literal left right e : Expression}

/-- A comparison of a path with a literal has a key when the literal has one. -/
theorem pathLiteral_eq_some : pathLiteral path literal field = some key ↔
    ∃ names value first second, path = .path names first ∧ literal = .literal value second ∧
      names.segments = field ∧ literalKey value = some key := by
  constructor
  · intro h
    unfold pathLiteral at h
    split at h
    · split at h
      · exact ⟨_, _, _, _, rfl, rfl, ‹_›, h⟩
      · cases h
    · cases h
  · rintro ⟨names, value, first, second, rfl, rfl, hfield, hkey⟩
    exact (if_pos hfield).trans hkey

/-- The path may stand on either side of the equality. -/
theorem equates_equal {span : Span} : Equates field key (.binary left .equal right span) ↔
    (pathLiteral left right field).or (pathLiteral right left field) = some key := by
  rw [Option.or_eq_some_iff]
  constructor
  · rintro (⟨hpath, hkey⟩ | ⟨hpath, hkey⟩)
    · exact .inl (pathLiteral_eq_some.mpr ⟨_, _, _, _, rfl, rfl, hpath, hkey⟩)
    · exact .inr ⟨rfl, pathLiteral_eq_some.mpr ⟨_, _, _, _, rfl, rfl, hpath, hkey⟩⟩
  · rintro (h | ⟨-, h⟩)
    · obtain ⟨names, value, first, second, rfl, rfl, hpath, hkey⟩ := pathLiteral_eq_some.mp h
      exact .pathFirst hpath hkey
    · obtain ⟨names, value, first, second, rfl, rfl, hpath, hkey⟩ := pathLiteral_eq_some.mp h
      exact .literalFirst hpath hkey

/-- An expression that is no conjunction. -/
def IsTerm (e : Expression) : Prop :=
  ∀ left right span, e ≠ .binary left .and right span

theorem isTerm_of_mem_conjuncts {term : Expression} (h : term ∈ conjuncts e) : IsTerm term := by
  fun_induction conjuncts e with
  | case1 left right span ihleft ihright => exact (List.mem_append.mp h).elim ihleft ihright
  | case2 e hterm =>
      obtain rfl := List.mem_singleton.mp h
      exact hterm

theorem sound_of_mem_conjuncts {g : Guard} {term : Expression} (he : e.Sound g)
    (hterm : term ∈ conjuncts e) : term.Sound g := by
  fun_induction conjuncts e with
  | case1 left right span ihleft ihright =>
      cases he with
      | binary _ _ hleft hright =>
          exact (List.mem_append.mp hterm).elim (ihleft hleft) (ihright hright)
  | case2 e _ => exact List.mem_singleton.mp hterm ▸ he

/-- The search through a conjunction visits its terms from left to right. -/
theorem equalityKey_eq_findSome : equalityKey field e =
    (conjuncts e).findSome? (equalityKey field) := by
  fun_induction conjuncts e with
  | case1 left right span ihleft ihright =>
      rw [equalityKey, List.findSome?_append, ← ihleft, ← ihright]
  | case2 e hterm => simp

/-- In a single term a key is found when the term equates the field with it. -/
theorem equalityKey_eq_some (hterm : IsTerm e) :
    equalityKey field e = some key ↔ Equates field key e := by
  unfold equalityKey
  split
  · exact absurd rfl (hterm _ _ _)
  · exact equates_equal.symm
  · constructor
    · nofun
    · rintro (⟨_, _⟩ | ⟨_, _⟩)
      all_goals
        exact absurd rfl (‹∀ left right span, _ ≠ Expression.binary left .equal right span› _ _ _)

/-- The key that is found is that of the leftmost term with one. -/
theorem equalityKey_leftmost : equalityKey field e = some key ↔ LeftmostKey field e key := by
  have hterm : ∀ term ∈ conjuncts e, ∀ other,
      equalityKey field term = some other ↔ Equates field other term :=
    fun term hterm _ => equalityKey_eq_some (isTerm_of_mem_conjuncts hterm)
  rw [equalityKey_eq_findSome, List.findSome?_eq_some_iff]
  constructor
  · rintro ⟨before, term, after, hterms, hkey, hnone⟩
    rw [hterms] at hterm
    refine ⟨before, term, after, hterms, (hterm term (by simp) key).mp hkey, ?_⟩
    intro earlier hearlier other hother
    have hsome := (hterm earlier (List.mem_append_left _ hearlier) other).mpr hother
    rw [hnone earlier hearlier] at hsome
    cases hsome
  · rintro ⟨before, term, after, hterms, hkey, hnone⟩
    rw [hterms] at hterm
    refine ⟨before, term, after, hterms, (hterm term (by simp) key).mpr hkey, ?_⟩
    intro earlier hearlier
    refine Option.eq_none_iff_forall_ne_some.mpr fun other hother => ?_
    exact hnone earlier hearlier other
      ((hterm earlier (List.mem_append_left _ hearlier) other).mp hother)

/-- The candidates of a conjunction are those of its terms, in order. -/
theorem collectIndexCandidates_eq_flatMap : collectIndexCandidates e =
    (conjuncts e).flatMap collectIndexCandidates := by
  fun_induction conjuncts e with
  | case1 left right span ihleft ihright =>
      rw [collectIndexCandidates, List.flatMap_append, ← ihleft, ← ihright]
  | case2 e hterm => simp

theorem indexablePathLiteral_eq_some {text : String} :
    indexablePathLiteral path literal = some text ↔
      ∃ names value first second key, path = .path names first ∧ literal = .literal value second ∧
        literalKey value = some key ∧ joinDots names.segments = text := by
  constructor
  · intro h
    unfold indexablePathLiteral at h
    split at h
    · exact ⟨_, _, _, _, _, rfl, rfl, rfl, Option.some.inj h⟩
    · exact ⟨_, _, _, _, _, rfl, rfl, rfl, Option.some.inj h⟩
    · exact ⟨_, _, _, _, _, rfl, rfl, rfl, Option.some.inj h⟩
    · cases h
  · rintro ⟨names, value, first, second, key, rfl, rfl, hkey, rfl⟩
    cases value with
    | null => cases hkey
    | boolean value => cases hkey
    | integer value => rfl
    | float value => rfl
    | string value => rfl

theorem indexablePathLiteral_of_key {names : Path} {value : Literal} {first second : Span}
    (hkey : literalKey value = some key) :
    indexablePathLiteral (.path names first) (.literal value second) =
      some (joinDots names.segments) :=
  indexablePathLiteral_eq_some.mpr ⟨names, value, first, second, key, rfl, rfl, hkey, rfl⟩

/-- A term reports the path of the field that it compares with a literal. -/
theorem mem_collectIndexCandidates_term {text : String} (hterm : IsTerm e) :
    text ∈ collectIndexCandidates e ↔ ∃ field key, joinDots field = text ∧ Equates field key e := by
  constructor
  · intro h
    unfold collectIndexCandidates at h
    split at h
    · exact absurd rfl (hterm _ _ _)
    · rcases Option.or_eq_some_iff.mp (Option.mem_toList.mp h) with h | ⟨-, h⟩
      · obtain ⟨names, value, first, second, key, rfl, rfl, hkey, htext⟩ :=
          indexablePathLiteral_eq_some.mp h
        exact ⟨_, key, htext, .pathFirst rfl hkey⟩
      · obtain ⟨names, value, first, second, key, rfl, rfl, hkey, htext⟩ :=
          indexablePathLiteral_eq_some.mp h
        exact ⟨_, key, htext, .literalFirst rfl hkey⟩
    · cases h
  · rintro ⟨_, key, rfl, ⟨rfl, hkey⟩ | ⟨rfl, hkey⟩⟩
    · rw [collectIndexCandidates, Option.mem_toList]
      exact Option.or_eq_some_iff.mpr (.inl (indexablePathLiteral_of_key hkey))
    · rw [collectIndexCandidates, Option.mem_toList]
      exact Option.or_eq_some_iff.mpr (.inr ⟨rfl, indexablePathLiteral_of_key hkey⟩)

/-- A path is a candidate when the planner finds a key for it. -/
theorem mem_collectIndexCandidates {text : String} : text ∈ collectIndexCandidates e ↔
    ∃ field, joinDots field = text ∧ (equalityKey field e).isSome = true := by
  have hterm : ∀ term ∈ conjuncts e, ∀ field key,
      equalityKey field term = some key ↔ Equates field key term :=
    fun term hterm _ _ => equalityKey_eq_some (isTerm_of_mem_conjuncts hterm)
  rw [collectIndexCandidates_eq_flatMap, List.mem_flatMap]
  constructor
  · rintro ⟨term, hmem, htext⟩
    obtain ⟨field, key, hfield, hkey⟩ :=
      (mem_collectIndexCandidates_term (isTerm_of_mem_conjuncts hmem)).mp htext
    refine ⟨field, hfield, ?_⟩
    rw [equalityKey_eq_findSome, List.findSome?_isSome_iff]
    exact ⟨term, hmem, Option.isSome_of_mem ((hterm term hmem field key).mpr hkey)⟩
  · rintro ⟨field, hfield, hkey⟩
    rw [equalityKey_eq_findSome, List.findSome?_isSome_iff] at hkey
    obtain ⟨term, hmem, hsome⟩ := hkey
    obtain ⟨key, hkey⟩ := Option.isSome_iff_exists.mp hsome
    refine ⟨term, hmem, ?_⟩
    exact (mem_collectIndexCandidates_term (isTerm_of_mem_conjuncts hmem)).mpr
      ⟨field, key, hfield, (hterm term hmem field key).mp hkey⟩

end Terms

section Names

variable [CharacterTables]

/-- A field is a list of identifiers. -/
def Named (field : List String) : Prop := ∀ segment ∈ field, Lexer.IsIdentifier segment

theorem Named.dotless {field : List String} (h : Named field) :
    ∀ segment ∈ field, '.' ∉ segment.toList := by
  intro segment hsegment hdot
  obtain ⟨first, rest, htext, hfirst, hrest⟩ := h segment hsegment
  rw [htext] at hdot
  rcases List.mem_cons.mp hdot with rfl | hdot
  · rw [Lexer.isIdentifierStart_ascii (by decide)] at hfirst
    exact absurd hfirst (by decide)
  · have hcontinue := hrest '.' hdot
    rw [Lexer.isIdentifierContinue_ascii (by decide)] at hcontinue
    exact absurd hcontinue (by decide)

/-- The path of a definition is recovered from its text, as names have no dots. -/
theorem splitDots_joinDots_of_named {field : List String} (hne : field ≠ []) (h : Named field) :
    splitDots (joinDots field) = field :=
  splitDots_joinDots hne h.dotless

/-- The path of a field that names something is the path of no other field. -/
theorem joinDots_inj_of_named {field other : List String} (hne : field ≠ []) (hfield : Named field)
    (hother : Named other) (h : joinDots other = joinDots field) : other = field := by
  cases other with
  | nil =>
      have hempty : field = [""] := by
        calc field = splitDots (joinDots field) := (splitDots_joinDots_of_named hne hfield).symm
          _ = splitDots (joinDots []) := by rw [h]
          _ = [""] := by decide
      obtain ⟨first, rest, htext, -⟩ := hfield "" (hempty ▸ List.mem_singleton.mpr rfl)
      cases htext
  | cons segment rest =>
      calc segment :: rest
          = splitDots (joinDots (segment :: rest)) :=
            (splitDots_joinDots_of_named (List.cons_ne_nil _ _) hother).symm
        _ = splitDots (joinDots field) := by rw [h]
        _ = field := splitDots_joinDots_of_named hne hfield

variable {source : String} {shallow : Prop} {e : Expression} {field : List String}

omit [CharacterTables] in
/-- The names of a field that is compared with a literal are names of the expression. -/
theorem names_of_equalityKey {g : Guard} {key : IndexKey} (he : e.Sound g)
    (h : equalityKey field e = some key) : field ≠ [] ∧ ∀ segment ∈ field, g.Name segment := by
  obtain ⟨before, term, after, hterms, hequates, -⟩ := equalityKey_leftmost.mp h
  have hterm : term.Sound g := by
    apply sound_of_mem_conjuncts he
    rw [hterms]
    exact List.mem_append_cons_self
  cases hequates with
  | pathFirst hpath hkey =>
      cases hterm with
      | binary _ _ hleft hright =>
          cases hleft with
          | path _ hnames => exact hpath ▸ ⟨hnames.wellFormed, hnames.names⟩
  | literalFirst hpath hkey =>
      cases hterm with
      | binary _ _ hleft hright =>
          cases hright with
          | path _ hnames => exact hpath ▸ ⟨hnames.wellFormed, hnames.names⟩

/-- Only fields that a source can write are compared in it. -/
theorem named_of_equalityKey {key : IndexKey} (he : e.Sound (sourceGuard source shallow))
    (h : equalityKey field e = some key) : field ≠ [] ∧ Named field :=
  names_of_equalityKey he h

/-- The planner finds a key for the fields whose paths telemetry reports. -/
theorem isSome_equalityKey (he : e.Sound (sourceGuard source shallow)) (hfield : Named field) :
    (equalityKey field e).isSome = true ↔ joinDots field ∈ collectIndexCandidates e := by
  rw [mem_collectIndexCandidates]
  constructor
  · exact fun h => ⟨field, rfl, h⟩
  · rintro ⟨other, hjoin, hsome⟩
    obtain ⟨key, hkey⟩ := Option.isSome_iff_exists.mp hsome
    obtain ⟨hne, hother⟩ := named_of_equalityKey he hkey
    rw [joinDots_inj_of_named hne hother hfield hjoin.symm]
    exact hsome

end Names

section Stages

variable {stages : List Stage}

theorem firstPredicate_of_not_filter (h : ∀ stage ∈ stages, stage.isFilter = false) :
    predicates stages = [] ∧ firstPredicate stages = none := by
  induction stages with
  | nil => exact ⟨rfl, rfl⟩
  | cons stage rest ih =>
      obtain ⟨hstage, hrest⟩ := List.forall_mem_cons.mp h
      cases stage with
      | filter predicate => cases hstage
      | _ => exact ih hrest

/-- There is one filter at most, and it comes first. -/
theorem predicates_eq (h : ∀ stage ∈ stages.tail, stage.isFilter = false) :
    predicates stages = (firstPredicate stages).toList := by
  cases stages with
  | nil => rfl
  | cons stage rest =>
      obtain ⟨hpredicates, hfirst⟩ := firstPredicate_of_not_filter h
      cases stage with
      | filter predicate => exact congrArg (predicate :: ·) hpredicates
      | _ => exact hpredicates.trans (congrArg Option.toList hfirst.symm)

theorem mem_of_firstPredicate {predicate : Expression}
    (h : firstPredicate stages = some predicate) :
    .filter predicate ∈ stages := by
  induction stages with
  | nil => cases h
  | cons stage rest ih =>
      cases stage with
      | filter other =>
          cases h
          exact List.mem_cons_self ..
      | _ => exact List.mem_cons_of_mem _ (ih h)

end Stages

section Plans

variable {source : String} {query : Query} {collection : String}
  {definitions : List IndexDefinition}

/-- An index that the query reports a use for. -/
def Serves (query : Query) (collection : String) (definition : IndexDefinition) : Prop :=
  definition.collection = collection ∧
    joinDots definition.field ∈ indexCandidatePaths query.stages

/-- The candidates of a query are those of its first predicate. -/
theorem mem_indexCandidatePaths (h : query.WellFormed) {path : String} :
    path ∈ indexCandidatePaths query.stages ↔
      ∃ predicate, firstPredicate query.stages = some predicate ∧
        path ∈ collectIndexCandidates predicate := by
  rw [indexCandidatePaths, Intelligence.mem_distinct, predicates_eq h.filter, List.mem_flatMap]
  simp only [Option.mem_toList]

/-- A path that telemetry reports is that of the index in the plan. -/
theorem exists_of_plan_indexScan (h : query.WellFormed) {scanned index : String} {key : IndexKey}
    (haccess : (plan query definitions).access = .indexScan scanned index key) :
    ∃ definition ∈ definitions, definition.name = index ∧
      joinDots definition.field ∈ indexCandidatePaths query.stages := by
  obtain ⟨-, hfound⟩ := findIndexScan_of_access haccess
  obtain ⟨definition, hmem, hname, -, predicate, hpredicate, hkey⟩ := exists_of_findIndexScan hfound
  have hreported := mem_collectIndexCandidates.mpr
    ⟨definition.field, rfl, Option.isSome_of_mem hkey⟩
  refine ⟨definition, hmem, hname, ?_⟩
  exact (mem_indexCandidatePaths h).mpr ⟨predicate, hpredicate, hreported⟩

variable [CharacterTables]

/-- Whether an index serves a query depends on its field and the first predicate. -/
theorem serves_iff (h : parse source = .ok query) {definition : IndexDefinition}
    (hfield : Named definition.field) : Serves query collection definition ↔
      definition.collection = collection ∧ ∃ predicate,
        firstPredicate query.stages = some predicate ∧
          (equalityKey definition.field predicate).isSome = true := by
  obtain ⟨shallow, hsound⟩ := sound_of_parse h
  have hkey : ∀ predicate, firstPredicate query.stages = some predicate →
      ((equalityKey definition.field predicate).isSome = true ↔
        joinDots definition.field ∈ collectIndexCandidates predicate) := by
    intro predicate hpredicate
    exact isSome_equalityKey (hsound.stages _ (mem_of_firstPredicate hpredicate)) hfield
  rw [Serves, mem_indexCandidatePaths hsound.wellFormed]
  refine and_congr_right fun _ => exists_congr fun predicate => and_congr_right fun hpredicate => ?_
  exact (hkey predicate hpredicate).symm

/-- The planner finds an index when there is one that serves. -/
theorem findIndexScan_isSome (h : parse source = .ok query)
    (hfields : ∀ definition ∈ definitions, Named definition.field) :
    (findIndexScan collection query.stages definitions).isSome = true ↔
      ∃ definition ∈ definitions, Serves query collection definition := by
  have hserves : ∀ definition ∈ definitions, (Serves query collection definition ↔ _) :=
    fun definition hmem => serves_iff h (hfields definition hmem)
  unfold findIndexScan
  split
  next hnone =>
    constructor
    · nofun
    · rintro ⟨definition, hmem, hserve⟩
      obtain ⟨-, predicate, hpredicate, -⟩ := (hserves definition hmem).mp hserve
      cases hnone.symm.trans hpredicate
  next predicate hpredicate =>
    simp only [List.findSome?_isSome_iff, List.mem_mergeSort, List.mem_filter, decide_eq_true_eq,
      Option.isSome_map]
    constructor
    · rintro ⟨definition, ⟨hmem, hcollection⟩, hsome⟩
      exact ⟨definition, hmem,
        (hserves definition hmem).mpr ⟨hcollection, predicate, hpredicate, hsome⟩⟩
    · rintro ⟨definition, hmem, hserve⟩
      obtain ⟨hcollection, other, hother, hsome⟩ := (hserves definition hmem).mp hserve
      cases hpredicate.symm.trans hother
      exact ⟨definition, ⟨hmem, hcollection⟩, hsome⟩

/-- Of the indexes that serve, the planner takes that with the least name. -/
theorem findIndexScan_least (h : parse source = .ok query)
    (hnames : (definitions.map IndexDefinition.name).Nodup)
    (hfields : ∀ definition ∈ definitions, Named definition.field) {definition : IndexDefinition}
    (hmem : definition ∈ definitions) (hserves : Serves query collection definition)
    (hleast : ∀ other ∈ definitions, Serves query collection other → definition.name ≤ other.name) :
    ∃ predicate key, .filter predicate ∈ query.stages ∧
      LeftmostKey definition.field predicate key ∧
      findIndexScan collection query.stages definitions = some (definition.name, key) := by
  obtain ⟨hcollection, predicate, hpredicate, hsome⟩ :=
    (serves_iff h (hfields definition hmem)).mp hserves
  obtain ⟨key, hkey⟩ := Option.isSome_iff_exists.mp hsome
  refine ⟨predicate, key, mem_of_firstPredicate hpredicate, equalityKey_leftmost.mp hkey, ?_⟩
  rw [findIndexScan, hpredicate]
  apply findSome?_mergeSort
  · exact hnames.sublist (List.filter_sublist.map _)
  · exact List.mem_filter.mpr ⟨hmem, decide_eq_true hcollection⟩
  · rw [hkey]
    rfl
  · intro other hother hfound
    obtain ⟨hother, hcollection⟩ := List.mem_filter.mp hother
    apply hleast other hother
    rw [Option.isSome_map] at hfound
    exact (serves_iff h (hfields other hother)).mpr
      ⟨of_decide_eq_true hcollection, predicate, hpredicate, hfound⟩

/-- A plan scans an index when one serves the query. -/
theorem plan_indexScan_iff (h : parse source = .ok query)
    (hselected : selectedCollection query.command = some collection)
    (hfields : ∀ definition ∈ definitions, Named definition.field) :
    (∃ scanned index key, (plan query definitions).access = .indexScan scanned index key) ↔
      ∃ definition ∈ definitions, Serves query collection definition := by
  rw [← findIndexScan_isSome h hfields, plan_access hselected]
  cases findIndexScan collection query.stages definitions with
  | none => simp
  | some found => simp

omit [CharacterTables] in
/-- A reported path was joined from names of the query. -/
theorem names_of_candidate {g : Guard} (hsound : query.Sound g) {path : String}
    (hpath : path ∈ indexCandidatePaths query.stages) :
    ∃ field, field ≠ [] ∧ (∀ segment ∈ field, g.Name segment) ∧ joinDots field = path := by
  obtain ⟨predicate, hpredicate, hmem⟩ := (mem_indexCandidatePaths hsound.wellFormed).mp hpath
  obtain ⟨field, hjoin, hsome⟩ := mem_collectIndexCandidates.mp hmem
  obtain ⟨key, hkey⟩ := Option.isSome_iff_exists.mp hsome
  obtain ⟨hne, hnames⟩ :=
    names_of_equalityKey (hsound.stages _ (mem_of_firstPredicate hpredicate)) hkey
  exact ⟨field, hne, hnames, hjoin⟩

/-- The field that a reported path was joined from. -/
theorem named_splitDots (h : parse source = .ok query) {path : String}
    (hpath : path ∈ indexCandidatePaths query.stages) :
    Named (splitDots path) ∧ joinDots (splitDots path) = path := by
  obtain ⟨shallow, hsound⟩ := sound_of_parse h
  obtain ⟨field, hne, hfield, rfl⟩ := names_of_candidate hsound hpath
  rw [splitDots_joinDots_of_named hne hfield]
  exact ⟨hfield, rfl⟩

/-- A query that selects documents uses an index exactly where telemetry reports the path of one;
it takes the one with the least name and the literal of the leftmost equality on its field. An
index that is made on a reported path is used. -/
theorem plan_agrees_with_candidates (h : parse source = .ok query)
    (hselected : selectedCollection query.command = some collection)
    (hnames : (definitions.map IndexDefinition.name).Nodup)
    (hfields : ∀ definition ∈ definitions, Named definition.field) :
    ((∃ scanned index key, (plan query definitions).access = .indexScan scanned index key) ↔
      ∃ definition ∈ definitions, Serves query collection definition) ∧
    (∀ definition ∈ definitions, Serves query collection definition →
      (∀ other ∈ definitions, Serves query collection other → definition.name ≤ other.name) →
      ∃ predicate key, .filter predicate ∈ query.stages ∧
        LeftmostKey definition.field predicate key ∧
        (plan query definitions).access = .indexScan collection definition.name key) ∧
    ∀ path ∈ indexCandidatePaths query.stages, ∀ name, ∃ index key,
      (plan query (definitions ++ [⟨name, collection, splitDots path⟩])).access =
        .indexScan collection index key := by
  refine ⟨plan_indexScan_iff h hselected hfields, ?_, ?_⟩
  · intro definition hmem hserves hleast
    obtain ⟨predicate, key, hpredicate, hleftmost, hfound⟩ :=
      findIndexScan_least h hnames hfields hmem hserves hleast
    refine ⟨predicate, key, hpredicate, hleftmost, ?_⟩
    rw [plan_access hselected, hfound]
  · intro path hpath name
    obtain ⟨hnamed, hjoin⟩ := named_splitDots h hpath
    have hextended : ∀ definition ∈ definitions ++ [⟨name, collection, splitDots path⟩],
        Named definition.field :=
      List.forall_mem_append.mpr ⟨hfields, List.forall_mem_singleton.mpr hnamed⟩
    have hserves : Serves query collection ⟨name, collection, splitDots path⟩ :=
      ⟨rfl, hjoin.symm ▸ hpath⟩
    obtain ⟨⟨index, key⟩, hfound⟩ := Option.isSome_iff_exists.mp
      ((findIndexScan_isSome h hextended).mpr
        ⟨_, List.mem_append_right _ (List.mem_singleton.mpr rfl), hserves⟩)
    refine ⟨index, key, ?_⟩
    rw [plan_access hselected, hfound]

end Plans

/-- Of two indexes on one field, the one whose name comes first is used. -/
theorem plan_agrees_with_candidates_students : let _ := CharacterTables.ascii
    ∃ query, parse "students.get\x7bactive==true and profile.score==90\x7d" = .ok query ∧
      ∃ predicate key, LeftmostKey ["profile", "score"] predicate key ∧
        (plan query [⟨"z_score", "students", ["profile", "score"]⟩,
          ⟨"a_score", "students", ["profile", "score"]⟩]).access =
            .indexScan "students" "a_score" key := by
  intro _
  have hselected : (parse "students.get\x7bactive==true and profile.score==90\x7d").toOption.map
      (fun query => selectedCollection query.command) = some (some "students") := by
    decide +kernel
  have hpaths : (parse "students.get\x7bactive==true and profile.score==90\x7d").toOption.map
      (fun query => indexCandidatePaths query.stages) = some ["profile.score"] := by
    decide +kernel
  cases hparse : parse "students.get\x7bactive==true and profile.score==90\x7d" with
  | error fault =>
      rw [hparse] at hselected
      cases hselected
  | ok query =>
      rw [hparse] at hselected hpaths
      have hpaths : indexCandidatePaths query.stages = ["profile.score"] := Option.some.inj hpaths
      have hpath : joinDots ["profile", "score"] ∈ indexCandidatePaths query.stages := by
        rw [hpaths]
        decide
      have hnamed : Named ["profile", "score"] := by
        refine List.forall_mem_cons.mpr ⟨⟨'p', _, rfl, by decide, ?_⟩, List.forall_mem_cons.mpr
          ⟨⟨'s', _, rfl, by decide, ?_⟩, List.forall_mem_nil _⟩⟩
        all_goals exact List.all_eq_true.mp (by decide)
      obtain ⟨-, hchosen, -⟩ := @plan_agrees_with_candidates _ query "students"
        [⟨"z_score", "students", ["profile", "score"]⟩,
          ⟨"a_score", "students", ["profile", "score"]⟩] _ hparse (Option.some.inj hselected)
        (by decide) (by simp [hnamed])
      obtain ⟨predicate, key, -, hleftmost, haccess⟩ :=
        hchosen ⟨"a_score", "students", ["profile", "score"]⟩ (by decide) ⟨rfl, hpath⟩
          (by simp)
      exact ⟨query, rfl, predicate, key, hleftmost, haccess⟩

end NovaBase.Executor
