import NovaBase.NovaQl.Expressions
import NovaBase.NovaQl.Lexemes

/-!
# The parser inverts the documented grammar

From expressions to stages, commands and whole queries: a query that keeps the
documented restrictions is parsed from the tokens it is written as, in every
spelling, up to ranges.
-/

namespace NovaBase.NovaQl

open Lib

variable {spelling : Spelling} {frames : Nat}

section Stages

/-- A token behind a stage. -/
def Ends (kind : TokenKind) : Prop := kind = .pipe ∨ kind = .semicolon ∨ kind = .eof

theorem Ends.stops {kind : TokenKind} (h : Ends kind) : Stops 1 kind := by
  rcases h with rfl | rfl | rfl <;> exact ⟨nofun, nofun⟩

theorem Ends.ne_comma {kind : TokenKind} (h : Ends kind) : kind ≠ .comma := by
  rcases h with rfl | rfl | rfl <;> nofun

/-- A list that nothing closes: behind a comma there is always an item. -/
theorem itemized_open {β δ : Type} {item : Parser β} {render : β → List TokenKind}
    {erase : β → δ} {all : List β} {follow : TokenKind → Prop} (after : TokenKind → Prop)
    (hitem : ∀ x ∈ all, Parses input item (render x) follow (fun y => erase y = erase x))
    (hcomma : follow .comma) (hends : ∀ k, after k → follow k ∧ k ≠ .comma) :
    Itemized (fun _ => item) (pure false) render erase false all follow after where
  item done x rest _ hall _ := hitem x (by simp [hall])
  comma := hcomma
  ends := hends
  goesOn _ _ _ _ := Parses.pure rfl
  closes := nofun

theorem parses_path_list {paths : List Path} (hne : paths ≠ [])
    (hpaths : ∀ path ∈ paths, path.WellFormed) :
    Parses input parsePathList (separated .comma false (paths.map Path.render))
      (fun k => k ≠ .dot ∧ k ≠ .comma)
      (fun parsed => parsed.map Path.erase = paths.map Path.erase) := by
  have hitems := itemized_open (fun k => k ≠ .dot ∧ k ≠ .comma)
    (fun path hpath => parses_path (hpaths path hpath)) nofun fun _ hk => hk
  apply parses_rounds
  intro bound hbound
  exact hitems.parses hne [] [] rfl rfl hbound

theorem parses_sort_key (spelling : Spelling) {key : SortKey} (h : key.path.WellFormed) :
    Parses input parseSortKey (key.render spelling) (fun k => Ends k ∨ k = .comma)
      (fun parsed => parsed.erase = key.erase) := by
  have hfollow : ∀ k, Ends k ∨ k = .comma → k ≠ .dot ∧ k ≠ .keyword .desc ∧ k ≠ .keyword .asc := by
    rintro _ ((rfl | rfl | rfl) | rfl) <;> exact ⟨nofun, nofun, nofun⟩
  obtain ⟨path, direction⟩ := key
  rw [SortKey.render]
  apply (parses_path h).bind
  · intro parsed hparsed
    cases direction with
    | descending =>
        apply parses_taken
        exact Parses.pure (by rw [SortKey.erase, SortKey.erase, hparsed])
    | ascending =>
        have hkey : SortKey.erase ⟨parsed, .ascending⟩ = SortKey.erase ⟨path, .ascending⟩ := by
          rw [SortKey.erase, SortKey.erase, hparsed]
        cases hexplicit : spelling.explicitAscending with
        | true =>
            apply parses_not_taken
            · exact fun _ _ => nofun
            · exact parses_consume.map fun _ _ => hkey
        | false =>
            apply parses_not_taken
            · exact fun k hk => (hfollow k hk).2.1
            · have habsent := parses_consume_not.weaken
                (fun k hk => (hfollow k hk).2.2) fun _ h => h
              exact habsent.map fun _ _ => hkey
  · intro k hk
    cases direction with
    | descending => nofun
    | ascending =>
        cases hexplicit : spelling.explicitAscending with
        | true => nofun
        | false => exact (hfollow k hk).1

theorem parses_assignment (spelling : Spelling) {assignment : Assignment}
    (hpath : assignment.path.WellFormed)
    (hvalue : assignment.value.WellFormed)
    (hroom : 4 * (assignment.render spelling).length < frames) :
    Parses input (parseAssignment frames) (assignment.render spelling) (Stops 1)
      (fun parsed => parsed.erase = assignment.erase) := by
  rw [Assignment.render, List.length_append, List.length_cons] at hroom
  apply (parses_path hpath).bind
  · intro path hparsed
    apply (parses_expect (by nofun)).cons
    intro _ _
    apply (parses_expression hvalue (by omega)).map
    intro value hvalue
    rw [Assignment.erase, Assignment.erase, hparsed, hvalue]
  · exact fun _ _ => nofun

theorem parses_count {count : UInt64} {expected : String} {follow : TokenKind → Prop}
    (h : count.toNat < countBound) :
    Parses input (expectNonnegativeInteger expected) [.integer count.toInt64] follow
      (· = count) := by
  have hnonneg : 0 ≤ count.toInt64 := by
    have hint : count.toInt64.toInt = count.toNat :=
      BitVec.toInt_eq_toNat_of_lt (by unfold countBound at h; simp; omega)
    rw [Int64.le_iff_toInt_le, hint]
    exact Int.natCast_nonneg _
  apply (parses_advance (by nofun)).finish
  intro token htoken
  simp only [htoken, if_pos hnonneg]
  exact Parses.pure count.toUInt64_toInt64

/-- A projection behind its pipe. -/
theorem parses_project_stage {paths : List Path} (h : (Stage.project paths).WellFormed) :
    Parses input (parseStage frames) ((Stage.project paths).render spelling) Ends
      (fun parsed => parsed.erase = (Stage.project paths).erase) := by
  apply parses_at_token
  intro token htoken
  simp only [htoken]
  apply (parses_advance (by nofun)).cons
  intro _ _
  apply ((parses_path_list h.1 h.2).weaken _ fun _ hp => hp).map
  · intro parsed hparsed
    rw [Stage.erase, Stage.erase, hparsed]
  · exact fun _ hk => ⟨hk.stops.1, hk.ne_comma⟩

/-- A sort behind its pipe. -/
theorem parses_sort_stage {keys : List SortKey} (h : (Stage.sort keys).WellFormed) :
    Parses input (parseStage frames) ((Stage.sort keys).render spelling) Ends
      (fun parsed => parsed.erase = (Stage.sort keys).erase) := by
  have hitems := itemized_open Ends
    (fun key hkey => parses_sort_key spelling (h.2 key hkey)) (.inr rfl)
    fun _ hk => ⟨.inl hk, hk.ne_comma⟩
  apply parses_at_token
  intro token htoken
  simp only [htoken]
  apply (parses_advance (by nofun)).cons
  intro _ _
  apply parses_rounds
  intro bound hbound
  apply (hitems.parses h.1 [] [] rfl rfl hbound).map
  intro parsed hparsed
  rw [Stage.erase, Stage.erase, hparsed]

/-- Assignments behind their pipe. -/
theorem parses_set_stage {assignments : List Assignment}
    (h : (Stage.set assignments).WellFormed)
    (hroom : 4 * ((Stage.set assignments).render spelling).length < frames) :
    Parses input (parseStage frames) ((Stage.set assignments).render spelling) Ends
      (fun parsed => parsed.erase = (Stage.set assignments).erase) := by
  have hassignments : ∀ assignment ∈ assignments, Parses input (parseAssignment frames)
      (assignment.render spelling) (Stops 1) (fun parsed => parsed.erase = assignment.erase) := by
    intro assignment hassignment
    have hlength := length_le_separated (Assignment.render spelling) false hassignment
    rw [Stage.render, List.length_cons] at hroom
    exact parses_assignment spelling (h.2 assignment hassignment).1
      (h.2 assignment hassignment).2 (by omega)
  have hitems := itemized_open Ends hassignments ⟨nofun, nofun⟩
    fun _ hk => ⟨hk.stops, hk.ne_comma⟩
  apply parses_at_token
  intro token htoken
  simp only [htoken]
  apply (parses_advance (by nofun)).cons
  intro _ _
  apply parses_rounds
  intro bound hbound
  apply (hitems.parses h.1 [] [] rfl rfl hbound).map
  intro parsed hparsed
  rw [Stage.erase, Stage.erase, hparsed]

/-- A stage behind its pipe. -/
theorem parses_stage {stage : Stage} (h : stage.WellFormed) (hfilter : stage.isFilter = false)
    (hroom : 4 * (stage.render spelling).length < frames) :
    Parses input (parseStage frames) (stage.render spelling) Ends
      (fun parsed => parsed.erase = stage.erase) := by
  cases stage with
  | filter predicate => cases hfilter
  | project paths => exact parses_project_stage h
  | sort keys => exact parses_sort_stage h
  | limit count =>
      apply parses_at_token
      intro token htoken
      simp only [htoken]
      apply (parses_advance (by nofun)).cons
      intro _ _
      apply (parses_count h).map
      rintro _ rfl
      rfl
  | skip count =>
      apply parses_at_token
      intro token htoken
      simp only [htoken]
      apply (parses_advance (by nofun)).cons
      intro _ _
      apply (parses_count h).map
      rintro _ rfl
      rfl
  | set assignments => exact parses_set_stage h hroom

/-- The stages behind a command, up to a token that is no pipe. -/
theorem parses_stages {command : Command} {stages : List Stage}
    (hcommand : stages ≠ [] → command.acceptsPipeline = true)
    (hstages : ∀ stage ∈ stages, stage.WellFormed ∧ stage.isFilter = false)
    (before : List Stage) {bound : Nat}
    (hbound : (stages.flatMap fun stage => .pipe :: stage.render spelling).length < bound)
    (hroom : 4 * (stages.flatMap fun stage => .pipe :: stage.render spelling).length < frames) :
    Parses input (parseStages frames command bound before)
      (stages.flatMap fun stage => .pipe :: stage.render spelling)
      (fun k => k = .semicolon ∨ k = .eof)
      (fun parsed => parsed.map Stage.erase = (before ++ stages).map Stage.erase) := by
  induction stages generalizing before bound with
  | nil =>
      obtain ⟨bound, rfl⟩ := Nat.exists_eq_add_of_lt hbound
      apply parses_not_taken
      · rintro _ (rfl | rfl) <;> nofun
      · exact Parses.pure (by rw [List.append_nil])
  | cons stage rest ih =>
      obtain ⟨bound, rfl⟩ : ∃ n, bound = n + 1 := Nat.exists_eq_succ_of_ne_zero (by omega)
      obtain ⟨hstage, hrest⟩ := List.forall_mem_cons.mp hstages
      rw [List.flatMap_cons, List.cons_append, List.length_cons, List.length_append] at hbound hroom
      rw [List.flatMap_cons, List.cons_append]
      apply parses_taken
      rw [if_pos (hcommand (by simp))]
      apply (parses_stage hstage.1 hstage.2 (by omega)).bind
      · intro parsed hparsed
        have hrounds :
            (rest.flatMap fun stage => .pipe :: stage.render spelling).length < bound := by
          omega
        apply (ih (fun _ => hcommand (by simp)) hrest (before ++ [parsed]) hrounds
          (by omega)).weaken fun _ hk => hk
        intro all hall
        rw [hall]
        simp [hparsed]
      · intro k hk
        cases rest with
        | nil => exact .inr hk
        | cons next rest => exact .inl rfl

end Stages

section Commands

theorem parses_filter_body {predicate : Option Expression}
    (h : ∀ e ∈ predicate, e.WellFormed)
    (hroom : 4 * (renderFilter spelling predicate).length < frames) {follow : TokenKind → Prop} :
    Parses input (parseFilterBody frames) (renderFilter spelling predicate) follow
      (fun parsed =>
        parsed.map Stage.erase = (predicate.toList.map Stage.filter).map Stage.erase) := by
  apply (parses_expect (by nofun)).cons
  intro _ _
  cases predicate with
  | none =>
      apply parses_taken
      exact Parses.pure rfl
  | some e =>
      have he : e.WellFormed := h e rfl
      obtain ⟨kind, kinds, hkinds, hstarts⟩ := starts_expression spelling he
      apply parses_not_taken
      · intro k _
        rw [Option.map_some, Option.getD_some, hkinds]
        exact hstarts.2
      · simp only [renderFilter, Option.map_some, Option.getD_some, List.length_cons,
          List.length_append] at hroom
        apply (parses_expression he (by omega)).bind
        · intro parsed hparsed
          apply (parses_expect (by nofun)).map
          intro _ _
          simp [Stage.erase, hparsed]
        · exact fun _ _ => ⟨nofun, nofun⟩

theorem isObject_erase (e : Expression) : (eraseExpression e).isObject = e.isObject := by
  cases e <;> rfl

theorem parses_insert {collection : String} {document : Expression}
    (hobject : document.isObject = true) (h : document.WellFormed)
    (hroom : 4 * (renderExpression spelling document).length < frames) :
    Parses input (parseInsert frames collection) (renderExpression spelling document) (Stops 1)
      (fun parsed => parsed.erase = (Command.insert collection document).erase) := by
  apply (parses_expression h hroom).finish
  intro parsed hparsed
  have hparsedObject : parsed.isObject = true := by
    rw [← isObject_erase, hparsed, isObject_erase, hobject]
  rw [if_pos hparsedObject]
  exact Parses.pure (by rw [Command.erase, Command.erase, hparsed])

theorem parses_collection_command {collection : String} {kinds : List TokenKind}
    {follow : TokenKind → Prop} {R : Command × List Stage → Prop}
    (h : Parses input (parseOperation frames collection) kinds follow R) :
    Parses input (parseCommand frames) (.identifier collection :: .dot :: kinds) follow R := by
  apply parses_at_token
  intro token htoken
  simp only [htoken]
  apply parses_expect_identifier.cons
  rintro _ rfl
  apply (parses_expect (by nofun)).cons
  intro _ _
  exact h

theorem parses_create {command : Command} {kinds : List TokenKind} {follow : TokenKind → Prop}
    (h : Parses input parseCreate (.keyword .create :: kinds) follow (·.erase = command.erase)) :
    Parses input (parseCommand frames) (.keyword .create :: kinds) follow
      (fun parsed => parsed.1.erase = command.erase ∧ parsed.2.map Stage.erase = []) := by
  apply parses_at_token
  intro token htoken
  simp only [htoken]
  exact h.map fun _ hparsed => ⟨hparsed, rfl⟩

theorem parses_drop {command : Command} {kinds : List TokenKind} {follow : TokenKind → Prop}
    (h : Parses input parseDrop (.keyword .drop :: kinds) follow (·.erase = command.erase)) :
    Parses input (parseCommand frames) (.keyword .drop :: kinds) follow
      (fun parsed => parsed.1.erase = command.erase ∧ parsed.2.map Stage.erase = []) := by
  apply parses_at_token
  intro token htoken
  simp only [htoken]
  exact h.map fun _ hparsed => ⟨hparsed, rfl⟩

/-- An operation that takes a predicate. -/
theorem parses_filter_operation {command : Command} {operation : Keyword}
    {predicate : Option Expression} (h : ∀ e ∈ predicate, e.WellFormed)
    (hroom : 4 * (renderFilter spelling predicate).length < frames) :
    Parses input (do
        let _ ← advance
        let stages ← parseFilterBody frames
        return (command, stages))
      (.keyword operation :: renderFilter spelling predicate) Ends
      (fun parsed => parsed.1.erase = command.erase ∧
        parsed.2.map Stage.erase = (predicate.toList.map Stage.filter).map Stage.erase) := by
  apply (parses_advance (by nofun)).cons
  intro _ _
  exact (parses_filter_body h hroom).map fun _ hstages => ⟨rfl, hstages⟩

theorem parses_insert_operation {collection : String} {document : Expression}
    (h : (Command.insert collection document).WellFormed)
    (hroom : 4 * (renderExpression spelling document).length < frames) :
    Parses input (parseOperation frames collection)
      (.keyword .insert :: renderExpression spelling document) Ends
      (fun parsed => parsed.1.erase = (Command.insert collection document).erase ∧
        parsed.2.map Stage.erase = []) := by
  apply parses_at_token
  intro token htoken
  simp only [htoken]
  apply (parses_advance (by nofun)).cons
  intro _ _
  have hinsert : Parses input (parseInsert frames collection)
      (renderExpression spelling document) Ends
      (·.erase = (Command.insert collection document).erase) :=
    (parses_insert h.1 h.2 hroom).weaken (fun _ hk => hk.stops) fun _ hparsed => hparsed
  exact hinsert.map fun _ hparsed => ⟨hparsed, rfl⟩

theorem parses_create_collection {name : String} :
    Parses input parseCreate [.keyword .create, .keyword .collection, .identifier name] Ends
      (·.erase = (Command.createCollection name).erase) := by
  apply (parses_advance (by nofun)).cons
  intro _ _
  apply parses_taken
  apply parses_expect_identifier.map
  rintro _ rfl
  rfl

theorem parses_create_index {name collection : String} {fields : List Path}
    (h : (Command.createIndex name collection fields).WellFormed) :
    Parses input parseCreate
      ((Command.createIndex name collection fields).render spelling none) Ends
      (·.erase = (Command.createIndex name collection fields).erase) := by
  apply (parses_advance (by nofun)).cons
  intro _ _
  apply parses_not_taken
  · exact fun _ _ => nofun
  apply parses_taken
  apply parses_expect_identifier.cons
  rintro _ rfl
  apply parses_expect_keyword.cons
  intro _ _
  apply parses_expect_identifier.cons
  rintro _ rfl
  apply (parses_expect (by nofun)).cons
  intro _ _
  apply (parses_path_list h.1 h.2).bind
  · intro parsed hparsed
    apply (parses_expect (by nofun)).map
    intro _ _
    rw [Command.erase, Command.erase, hparsed]
  · exact fun _ _ => ⟨nofun, nofun⟩

theorem parses_drop_collection {name : String} :
    Parses input parseDrop [.keyword .drop, .keyword .collection, .identifier name] Ends
      (·.erase = (Command.dropCollection name).erase) := by
  apply (parses_advance (by nofun)).cons
  intro _ _
  apply parses_taken
  apply parses_expect_identifier.map
  rintro _ rfl
  rfl

theorem parses_drop_index {name : String} :
    Parses input parseDrop [.keyword .drop, .keyword .index, .identifier name] Ends
      (·.erase = (Command.dropIndex name).erase) := by
  apply (parses_advance (by nofun)).cons
  intro _ _
  apply parses_not_taken
  · exact fun _ _ => nofun
  apply parses_taken
  apply parses_expect_identifier.map
  rintro _ rfl
  rfl

theorem parses_command {command : Command} (h : command.WellFormed)
    {predicate : Option Expression} (hpredicate : ∀ e ∈ predicate, e.WellFormed)
    (haccepts : predicate ≠ none → command.acceptsPipeline = true)
    (hroom : 4 * (command.render spelling predicate).length < frames) :
    Parses input (parseCommand frames) (command.render spelling predicate) Ends
      (fun parsed => parsed.1.erase = command.erase ∧
        parsed.2.map Stage.erase = (predicate.toList.map Stage.filter).map Stage.erase) := by
  have hnone : command.acceptsPipeline = false → predicate = none := by
    intro hrefuses
    by_contra hsome
    cases (haccepts hsome).symm.trans hrefuses
  cases command with
  | get collection | update collection | delete collection =>
      rw [Command.render, List.length_append] at hroom
      apply parses_collection_command
      apply parses_at_token
      intro token htoken
      simp only [htoken]
      exact parses_filter_operation hpredicate (by omega)
  | insert collection document =>
      rw [hnone rfl]
      rw [Command.render, List.length_append] at hroom
      exact parses_collection_command (parses_insert_operation h (by omega))
  | createCollection name =>
      rw [hnone rfl]
      exact parses_create parses_create_collection
  | dropCollection name =>
      rw [hnone rfl]
      exact parses_drop parses_drop_collection
  | createIndex name collection fields =>
      rw [hnone rfl]
      have hcreate : Parses _ parseCreate
          ((Command.createIndex name collection fields).render spelling none) Ends _ :=
        parses_create_index h
      exact parses_create hcreate
  | dropIndex name =>
      rw [hnone rfl]
      exact parses_drop parses_drop_index

end Commands

section Queries

theorem acceptsPipeline_erase (command : Command) :
    command.erase.acceptsPipeline = command.acceptsPipeline := by
  cases command <;> rfl

theorem isUpdate_erase (command : Command) : command.erase.isUpdate = command.isUpdate := by
  cases command <;> rfl

theorem isSet_erase (stage : Stage) : stage.erase.isSet = stage.isSet := by
  cases stage <;> rfl

theorem any_isSet_erase (stages : List Stage) :
    (stages.map Stage.erase).any Stage.isSet = stages.any Stage.isSet := by
  rw [List.any_map]
  exact congrArg (stages.any ·) (funext isSet_erase)

namespace Query

theorem stages_eq (query : Query) :
    query.stages = query.predicate.toList.map Stage.filter ++ query.pipeline := by
  rw [predicate, pipeline]
  rcases query.stages with _ | ⟨stage, rest⟩
  · rfl
  · cases stage <;> rfl

theorem mem_pipeline {query : Query} (h : query.WellFormed) {stage : Stage}
    (hstage : stage ∈ query.pipeline) : stage.WellFormed ∧ stage.isFilter = false := by
  have hmem : stage ∈ query.stages := by
    rw [stages_eq]
    exact List.mem_append_right _ hstage
  constructor
  · exact h.stages stage hmem
  · have hfilter := h.filter
    rw [pipeline] at hstage
    rcases hstages : query.stages with _ | ⟨first, rest⟩
    · rw [hstages] at hmem
      cases hmem
    · rw [hstages] at hstage hfilter
      cases first with
      | filter predicate => exact hfilter stage hstage
      | _ =>
          rcases List.mem_cons.mp hstage with rfl | hrest
          · rfl
          · exact hfilter stage hrest

theorem wellFormed_predicate {query : Query} (h : query.WellFormed) :
    ∀ e ∈ query.predicate, e.WellFormed := by
  intro e he
  apply h.stages (.filter e)
  rw [stages_eq, Option.mem_def.mp he]
  exact List.mem_cons_self ..

end Query

/-- The word `explain`, which no command begins with. -/
theorem parses_explain {α : Type} {query : Query} {next : Bool → Parser α} {kinds : List TokenKind}
    {follow : TokenKind → Prop} {R : α → Prop}
    (h : Parses input (next query.explain)
      (query.command.render spelling query.predicate ++ kinds) follow R) :
    Parses input (consumeKeyword .explain >>= next)
      ((if query.explain then [.keyword .explain] else []) ++
        (query.command.render spelling query.predicate ++ kinds)) follow R := by
  cases hexplain : query.explain with
  | true =>
      apply parses_consume.cons
      rintro _ rfl
      rwa [hexplain] at h
  | false =>
      apply Parses.look (Q := (· = false))
      · intro k _
        apply parses_consume_not.weaken
        · rintro _ rfl
          cases query.command <;> nofun
        · exact fun _ h => h
      rintro _ rfl
      rwa [hexplain] at h

/-- A semicolon, which may be there. -/
theorem parses_semicolon {α : Type} {next : Bool → Parser α} {R : α → Prop}
    (h : ∀ taken, Parses input (next taken) [] (· = .eof) R) :
    Parses input (consumeSimple .semicolon >>= next)
      (if spelling.semicolon then [.semicolon] else []) (· = .eof) R := by
  cases spelling.semicolon with
  | true => exact parses_consume.cons fun taken _ => h taken
  | false =>
      have habsent : Parses input (consumeSimple .semicolon) [] (· = .eof) (· = false) := by
        apply parses_consume_not.weaken
        · rintro _ rfl
          nofun
        · exact fun _ h => h
      exact habsent.finish fun taken _ => h taken

theorem parses_query_within {query : Query} (h : query.WellFormed)
    (hroom : 4 * (query.render spelling).length < frames) :
    Parses input (parseQueryWithin frames) (query.render spelling) (· = .eof)
      (fun parsed => parsed.erase = query.erase) := by
  have hpipeline : query.stages ≠ [] → query.command.acceptsPipeline = true := h.pipeline
  rw [Query.stages_eq] at hpipeline
  simp only [Query.render, List.length_append] at hroom
  apply Parses.look (Q := fun _ => True)
  · exact fun _ _ => parses_current.weaken (fun _ hk => hk) fun _ _ => trivial
  intro first _
  apply parses_explain
  have hpredicate : query.predicate ≠ none → query.command.acceptsPipeline = true := by
    intro hne
    apply hpipeline
    cases hsome : query.predicate with
    | none => exact absurd hsome hne
    | some e => simp
  apply (parses_command h.command (Query.wellFormed_predicate h) hpredicate (by omega)).bind
  · rintro ⟨command, filters⟩ ⟨hcommand, hfilters⟩
    have haccepts : query.pipeline ≠ [] → command.acceptsPipeline = true := by
      intro hne
      rw [← acceptsPipeline_erase, hcommand, acceptsPipeline_erase]
      exact hpipeline (by simp [hne])
    apply parses_rounds
    intro bound hbound
    rw [List.length_append] at hbound
    apply (parses_stages haccepts (fun _ => Query.mem_pipeline h) filters (by omega)
      (by omega)).bind
    · intro stages hstages
      have hsame : stages.map Stage.erase = query.stages.map Stage.erase := by
        rw [hstages, List.map_append, hfilters, Query.stages_eq, List.map_append]
      have hupdate : command.isUpdate = query.command.isUpdate := by
        rw [← isUpdate_erase, hcommand, isUpdate_erase]
      have hset : stages.any Stage.isSet = command.isUpdate := by
        rw [← any_isSet_erase, hsame, any_isSet_erase, h.set, hupdate]
      rw [if_neg (by simp [hset]), if_neg (by simp [hset])]
      apply parses_semicolon
      intro _
      apply parses_current.finish
      intro last hlast
      apply parses_expect_eof.map
      intro _ _
      rw [Query.erase, Query.erase, hcommand, hsame]
    · rintro _ rfl
      cases hsemicolon : spelling.semicolon with
      | true => exact .inl rfl
      | false => exact .inr rfl
  · rintro _ rfl
    cases hstages : query.pipeline with
    | nil =>
        cases hsemicolon : spelling.semicolon with
        | true => exact .inr (.inl rfl)
        | false => exact .inr (.inr rfl)
    | cons stage rest => exact .inl rfl

theorem parses_query {query : Query} (h : query.WellFormed) :
    Parses input parseQuery (query.render spelling) (· = .eof)
      (fun parsed => parsed.erase = query.erase) := by
  apply parses_rounds
  intro bound hbound
  exact parses_query_within h (by omega)

/-- A text that is read as the tokens of a query is parsed as this query, up to ranges. -/
theorem parse_of_readAs [CharacterTables] {query : Query} (h : query.WellFormed) {text : List Char}
    (hread : Lexer.ReadAs text text (query.render spelling ++ [.eof])) :
    ∃ parsed, parse (String.ofList text) = .ok parsed ∧ parsed.erase = query.erase := by
  obtain ⟨tokens, hlex, hkinds⟩ := Lexer.lex_of_readAs hread
  obtain ⟨front, ends, rfl, hfront, hends⟩ := List.map_eq_append_iff.mp hkinds
  obtain ⟨⟨kind, stop⟩, rfl, hlast⟩ := List.map_eq_singleton_iff.mp hends
  obtain rfl : kind = .eof := hlast
  obtain ⟨parsed, hrun, herase⟩ :=
    parses_query h front [⟨.eof, stop⟩] (List.cons_ne_nil _ _) hfront rfl
  have hquery : parseQuery (front ++ [⟨.eof, stop⟩]) = (.ok parsed, [⟨.eof, stop⟩]) := hrun
  refine ⟨parsed, ?_, herase⟩
  rw [parse_of_lex hlex, hquery]
  rfl

/-- A query within the documented restrictions is parsed from the tokens it is written as, all of
them, and comes back up to ranges. -/
theorem parseQuery_render (spelling : Spelling) {query : Query} (h : query.WellFormed)
    {tokens : List Token} (stop : Span) (htokens : tokens.map Token.kind = query.render spelling) :
    ∃ parsed, parseQuery (tokens ++ [⟨.eof, stop⟩]) = (.ok parsed, [⟨.eof, stop⟩]) ∧
      parsed.erase = query.erase :=
  parses_query h tokens [⟨.eof, stop⟩] (List.cons_ne_nil _ _) htokens rfl

/-- `orders.update { not (a and b) } | set total = a - (b - a), tags = [1] | limit 3`. -/
def discountQuery : Query :=
  let field (name : String) : Path := ⟨[name], .none⟩
  let read (name : String) : Expression := .path (field name) .none
  ⟨false, .update "orders",
    [.filter (.unary .not (.binary (read "a") .and (read "b") .none) .none),
      .set [⟨field "total", .binary (read "a") .subtract
          (.binary (read "b") .subtract (read "a") .none) .none⟩,
        ⟨field "tags", .array [.literal (.integer 1) .none] .none⟩],
      .limit 3],
    .none⟩

theorem wellFormed_discountQuery : discountQuery.WellFormed where
  command := trivial
  stages := by
    have hread (name : String) : Expression.WellFormed (.path ⟨[name], .none⟩ .none) :=
      .path _ (List.cons_ne_nil _ _)
    have hone : Expression.WellFormed (.array [.literal (.integer 1) .none] .none) :=
      .array _ fun value hvalue => List.mem_singleton.mp hvalue ▸ .literal _ _
    intro stage hstage
    simp only [discountQuery, List.mem_cons, List.not_mem_nil, or_false] at hstage
    rcases hstage with rfl | rfl | rfl
    · exact .unary _ _ (.binary _ _ (hread "a") (hread "b"))
    · refine ⟨List.cons_ne_nil _ _, ?_⟩
      intro assignment hassignment
      simp only [List.mem_cons, List.not_mem_nil, or_false] at hassignment
      rcases hassignment with rfl | rfl
      · exact ⟨List.cons_ne_nil _ _, .binary _ _ (hread "a") (.binary _ _ (hread "b") (hread "a"))⟩
      · exact ⟨List.cons_ne_nil _ _, hone⟩
    · show (3 : UInt64).toNat < countBound
      decide
  filter := by
    intro stage hstage
    simp only [discountQuery, List.tail_cons, List.mem_cons, List.not_mem_nil, or_false] at hstage
    rcases hstage with rfl | rfl <;> rfl
  pipeline _ := rfl
  set := rfl

theorem parseQuery_render_discountQuery : ∃ parsed,
    parseQuery (([.identifier "orders", .dot, .keyword .update, .leftBrace, .keyword .not,
      .leftParen,
        .identifier "a", .keyword .and, .identifier "b", .rightParen, .rightBrace, .pipe,
        .keyword .set, .identifier "total", .equal, .identifier "a", .minus, .leftParen,
        .identifier "b", .minus, .identifier "a", .rightParen, .comma, .identifier "tags", .equal,
        .leftBracket, .integer 1, .comma, .rightBracket, .pipe, .keyword .limit, .integer 3,
        .semicolon].map fun kind => ⟨kind, ⟨0, 1⟩⟩) ++ [⟨.eof, ⟨1, 1⟩⟩]) =
      (.ok parsed, [⟨.eof, ⟨1, 1⟩⟩]) ∧
      parsed.erase = discountQuery.erase :=
  parseQuery_render ⟨false, false, false, true, false, true⟩ wellFormed_discountQuery ⟨1, 1⟩ rfl

end Queries

end NovaBase.NovaQl
