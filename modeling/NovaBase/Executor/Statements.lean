import Mathlib.Data.List.Perm.Subperm
import NovaBase.Executor.Execute
import NovaBase.Executor.Assignments
import NovaBase.Executor.Sorting

/-!
# Statements

What the stages of a pipeline leave comes from the documents that they were given:
none is left twice, and a property that assignments keep is kept. A property of
a backend that all its calls keep is kept by every statement, and so by every
sequence of statements of which some may fail.
-/

namespace NovaBase.Executor

open Lib NovaQl Index

section Stages

/-- The documents come from others, none of them twice, with a property that those have. -/
structure Derives (P : Document → Prop) (documents left : List Document) : Prop where
  ids : (left.map DocumentOf.id).Subperm (documents.map DocumentOf.id)
  all : (∀ document ∈ documents, P document) → ∀ document ∈ left, P document

variable {P : Document → Prop} {documents left : List Document}

theorem Derives.refl (P : Document → Prop) (documents : List Document) :
    Derives P documents documents := ⟨.refl _, id⟩

theorem Derives.trans {last : List Document} (hfirst : Derives P documents left)
    (hsecond : Derives P left last) : Derives P documents last :=
  ⟨hsecond.ids.trans hfirst.ids, fun h => hsecond.all (hfirst.all h)⟩

theorem derives_sublist (h : left.Sublist documents) : Derives P documents left :=
  ⟨(h.map _).subperm, fun hall document hmem => hall document (h.subset hmem)⟩

theorem derives_perm (h : left.Perm documents) : Derives P documents left :=
  ⟨(h.map _).subperm, fun hall document hmem => hall document (h.mem_iff.mp hmem)⟩

/-- A filter that succeeds leaves the documents for which the predicate holds. -/
theorem filterDocuments_eq_ok {predicate : Expression} :
    filterDocuments predicate documents = .ok left ↔
      (∀ document ∈ documents, ∃ kept, evaluatePredicate predicate document = .ok kept) ∧
        left = documents.filter fun document =>
          (evaluatePredicate predicate document).toOption = some true := by
  induction documents generalizing left with
  | nil => simp [filterDocuments, eq_comm]
  | cons document rest ih =>
      simp only [filterDocuments, bind_eq_ok, pure_eq_ok, Except.ok.injEq, List.forall_mem_cons]
      constructor
      · rintro ⟨kept, hkept, others, hothers, rfl⟩
        obtain ⟨hrest, rfl⟩ := ih.mp hothers
        refine ⟨⟨⟨kept, hkept⟩, hrest⟩, ?_⟩
        rw [List.filter_cons, hkept]
        cases kept <;> rfl
      · rintro ⟨⟨⟨kept, hkept⟩, hrest⟩, rfl⟩
        refine ⟨kept, hkept, _, ih.mpr ⟨hrest, rfl⟩, ?_⟩
        rw [List.filter_cons, hkept]
        cases kept <;> rfl

/-- A sort that succeeds leaves the same documents. -/
theorem perm_of_sortDocuments {keys : List SortKey}
    (h : sortDocuments keys documents = (.ok (), left)) : left.Perm documents := by
  rw [sortDocuments] at h
  split at h
  · cases h
  · obtain ⟨-, rfl⟩ := Prod.mk.inj h
    have hwritten : writeFrom (documents[·]) (sortOrder documents keys) 0 documents =
        (sortOrder documents keys).map documents.get :=
      writeFrom_zero _ (length_sortOrder documents keys).symm
    have hperm : (sortOrder documents keys).Perm (List.finRange documents.length) :=
      List.mergeSort_perm _ _
    have hall := hperm.map documents.get
    rw [hwritten]
    rwa [List.map_get_finRange] at hall

/-- Without a new identifier the assignment fails where it needs one, and has changed nothing. -/
theorem setSegments_starved {document : Document} {segment : String} {rest : List String}
    {value : NovaValue} {ids : IdSource} {cause : NovaError} (hrest : rest ≠ [])
    (hget : document.get segment = none) (hid : ids 0 = .error cause) :
    setSegments value (segment :: rest) (document, ids) =
      (.error (.error cause), document, ids.rest) := by
  obtain ⟨next, rest, rfl⟩ := List.exists_cons_of_ne_nil hrest
  have habsent : (Action.reads fun draft : Draft => .ok (draft.1.get segment).isSome :
      Action Failure Draft Bool) (document, ids) = (.ok false, document, ids) := by
    rw [Action.reads_apply, hget]
    rfl
  have hgenerate : (Action.zoom Prod.snd (fun draft ids => (draft.1, ids)) generate :
      Action Failure Draft NovaId) (document, ids) =
        (.error (.error cause), document, ids.rest) := by
    have hids : generate ids = (.error (.error cause), ids.rest) := by
      rw [generate, hid]
      rfl
    simp only [Action.zoom, hids]
  rw [setSegments.eq_3 _ _ _ (by simp), Action.bind_of_ok habsent]
  simp only [Bool.false_eq_true, ↓reduceIte]
  exact Action.bind_of_error hgenerate

/-- Assignments put values into documents: the value itself, and on the way to it documents that are
new or that were there. What this keeps at each of them, it keeps. -/
theorem preserves_setSegments {P : Document → Prop} {Q : NovaValue → Prop}
    (hinsert : ∀ {document value} segment, P document → Q value →
      P (DocumentOf.insert document segment value).2)
    (hget : ∀ {document : Document} {segment value}, P document →
      document.get segment = some value → Q value)
    (hnew : ∀ id, P (.new id)) (hdocument : ∀ document, Q (.document document) ↔ P document)
    {value : NovaValue} (hvalue : Q value) (path : List String) :
    (setSegments value path).Preserves fun draft => P draft.1 := by
  induction path with
  | nil => exact Action.Preserves.ofExcept _
  | cons segment rest ih =>
      rintro ⟨document, ids⟩ h
      by_cases hrest : rest = []
      · subst hrest
        exact hinsert segment h hvalue
      · cases hfound : document.get segment with
        | none =>
            cases hid : ids 0 with
            | error cause =>
                rw [setSegments_starved hrest hfound hid]
                exact h
            | ok id =>
                have hinner := ih (.new id, ids.rest) (hnew id)
                rw [setSegments_absent hrest hfound hid rfl]
                exact hinsert segment (hinsert segment h ((hdocument _).mpr (hnew id)))
                  ((hdocument _).mpr hinner)
        | some found =>
            cases found with
            | document nested =>
                have hinner := ih (nested, ids) ((hdocument nested).mp (hget h hfound))
                rw [setSegments_present hrest hfound rfl]
                exact hinsert segment h ((hdocument _).mpr hinner)
            | _ =>
                obtain ⟨cause, hset⟩ := @setSegments_scalar document ids value segment rest hrest _
                  hfound rfl
                rw [hset]
                exact h

/-- Assigning to fields keeps the identifier. -/
theorem keeps_id_setSegments (value : NovaValue) (path : List String) :
    (setSegments value path).Keeps fun draft => draft.1.id := by
  rintro ⟨document, ids⟩
  cases path with
  | nil => rfl
  | cons segment rest =>
      by_cases hrest : rest = []
      · subst hrest
        rfl
      · cases hfound : document.get segment with
        | none =>
            cases hid : ids 0 with
            | error cause => rw [setSegments_starved hrest hfound hid]
            | ok id =>
                rw [setSegments_absent hrest hfound hid rfl]
                rfl
        | some found =>
            cases found with
            | document nested =>
                rw [setSegments_present hrest hfound rfl]
                rfl
            | _ =>
                obtain ⟨cause, hset⟩ := @setSegments_scalar document ids value segment rest hrest _
                  hfound rfl
                rw [hset]

/-- Assignments keep the identifiers of documents. -/
theorem keeps_id_applyAssignment (assignment : Assignment) :
    (applyAssignment assignment).Keeps fun draft => draft.1.id := by
  apply (Action.Keeps.reads _).bind
  intro result
  apply Action.Keeps.bind
  · exact fun _ => rfl
  · intro value
    rw [setPath]
    split
    · exact Action.Keeps.ofExcept _
    · exact keeps_id_setSegments value assignment.path.segments

/-- A property of documents that assignments keep, and that new documents have. -/
structure Admissible (P : Document → Prop) : Prop where
  assigned : ∀ assignment, (applyAssignment assignment).Preserves fun draft => P draft.1
  created : ∀ expression ids, (newDocument expression).Ends ids (fun document _ => P document)
    (fun _ _ => True)

theorem admissible_true : Admissible fun _ => True where
  assigned _ _ _ := trivial
  created expression ids := by
    rcases hcreated : newDocument expression ids with ⟨result, ids'⟩
    cases result with
    | ok document => exact .inl ⟨document, ids', hcreated, trivial⟩
    | error cause => exact .inr ⟨cause, ids', hcreated, trivial⟩

/-- Assignments leave as many documents as there are, with their identifiers. -/
theorem assignAll_keeps (hassigned : ∀ assignment,
      (applyAssignment assignment).Preserves fun draft => P draft.1)
    (assignments : List Assignment) (documents : List Document) (ids : IdSource) :
    (assignAll assignments documents).Ends ids
      (fun left _ => left.map DocumentOf.id = documents.map DocumentOf.id ∧
        ((∀ document ∈ documents, P document) → ∀ document ∈ left, P document))
      (fun _ _ => True) := by
  induction documents generalizing ids with
  | nil => exact .pure ⟨rfl, fun h => h⟩
  | cons document rest ih =>
      have hid := Action.Keeps.forM keeps_id_applyAssignment assignments (document, ids)
      have hkeeps := Action.Preserves.forM hassigned assignments (document, ids)
      have hfirst : Action.Ends (fun ids : IdSource =>
          let draft := applyAssignments assignments (document, ids)
          (draft.1.map fun _ => draft.2.1, draft.2.2)) ids
          (fun changed _ => changed.id = document.id ∧ (P document → P changed))
          (fun _ _ => True) := by
        rcases hchanged : applyAssignments assignments (document, ids) with ⟨result, changed, ids'⟩
        rw [applyAssignments] at hchanged
        rw [hchanged] at hid hkeeps
        cases result with
        | error cause =>
            exact .inr ⟨cause, ids', by simp only [applyAssignments, hchanged]; rfl, trivial⟩
        | ok _ =>
            exact .inl ⟨changed, ids', by simp only [applyAssignments, hchanged]; rfl, hid, hkeeps⟩
      apply hfirst.bind
      rintro changed ids' ⟨hsame, hchanged⟩
      apply (ih ids').bind
      rintro others last ⟨hothers, hall⟩
      refine .pure ⟨?_, fun h => ?_⟩
      · rw [List.map_cons, List.map_cons, hsame, hothers]
      · obtain ⟨hdocument, hrest⟩ := List.forall_mem_cons.mp h
        exact List.forall_mem_cons.mpr ⟨hchanged hdocument, hall hrest⟩

/-- Assignments to all documents keep the property that each of them keeps. -/
theorem assignAll_ends (hassigned : ∀ assignment,
      (applyAssignment assignment).Preserves fun draft => P draft.1)
    (assignments : List Assignment) (documents : List Document) (ids : IdSource) :
    (assignAll assignments documents).Ends ids (fun left _ => Derives P documents left)
      (fun _ _ => True) := by
  apply (assignAll_keeps hassigned assignments documents ids).weaken
  · exact fun left _ hleft => ⟨hleft.1 ▸ .refl _, hleft.2⟩
  · exact fun _ _ _ => trivial

/-- The stages of a command that changes documents. -/
def Writing (stages : List Stage) : Prop := ∀ paths, Stage.project paths ∉ stages

/-- Updates and deletions have no stage that makes other documents. -/
theorem writing_of_validateStages {stages : List Stage} {kind : CommandKind}
    (h : validateStages stages kind = .ok ()) (hkind : kind = .update ∨ kind = .delete) :
    Writing stages := by
  intro paths hmem
  have hallowed := List.all_eq_true.mp (require_eq_ok.mp h) _ hmem
  rcases hkind with rfl | rfl
  · cases hallowed
  · cases hallowed

/-- The documents behind a stage derive from those before it. -/
theorem runStage_ends (hassigned : ∀ assignment,
      (applyAssignment assignment).Preserves fun draft => P draft.1)
    {stage : Stage} (hstage : ∀ paths, stage ≠ .project paths) (documents : List Document)
    (ids : IdSource) :
    (runStage documents stage).Ends ids (fun left _ => Derives P documents left)
      (fun _ _ => True) := by
  cases stage with
  | filter predicate =>
      cases hfilter : filterDocuments predicate documents with
      | error cause => exact .inr ⟨.error cause, ids, by rw [runStage, hfilter]; rfl, trivial⟩
      | ok left =>
          obtain ⟨-, rfl⟩ := filterDocuments_eq_ok.mp hfilter
          exact .inl ⟨_, ids, by rw [runStage, hfilter]; rfl, derives_sublist List.filter_sublist⟩
  | project paths => exact absurd rfl (hstage paths)
  | sort keys =>
      rcases hsort : sortDocuments keys documents with ⟨result, sorted⟩
      cases result with
      | error cause => exact .inr ⟨.error cause, ids, by rw [runStage, hsort]; rfl, trivial⟩
      | ok _ =>
          exact .inl ⟨sorted, ids, by rw [runStage, hsort]; rfl,
            derives_perm (perm_of_sortDocuments hsort)⟩
  | limit count => exact .pure (derives_sublist (List.take_sublist _ _))
  | skip count => exact .pure (derives_sublist (List.drop_sublist _ _))
  | set assignments => exact assignAll_ends hassigned assignments documents ids

/-- So do those behind all stages. -/
theorem runPipeline_ends (hassigned : ∀ assignment,
      (applyAssignment assignment).Preserves fun draft => P draft.1)
    {stages : List Stage} (hstages : Writing stages) (documents : List Document) (ids : IdSource) :
    (runPipeline documents stages).Ends ids (fun left _ => Derives P documents left)
      (fun _ _ => True) := by
  induction stages generalizing documents ids with
  | nil => exact .pure (.refl P documents)
  | cons stage rest ih =>
      have hstage : ∀ paths, stage ≠ .project paths :=
        fun paths h => hstages paths (h ▸ List.mem_cons_self)
      have hrest : Writing rest := fun paths h => hstages paths (List.mem_cons_of_mem _ h)
      rw [runPipeline, List.foldlM_cons]
      apply (runStage_ends hassigned hstage documents ids).bind
      intro left ids' hleft
      apply (ih hrest left ids').weaken
      · exact fun _ _ hlast => hleft.trans hlast
      · exact fun _ _ _ => trivial

end Stages

section Statements

variable {β : Type} [ExecutionBackend β]

/-- What every call keeps, where all documents that are stored have a property. -/
structure CallsKeep (P : Document → Prop) (I : β → Prop) : Prop where
  scan : ∀ {backend} collection, I backend → (ExecutionBackend.scan collection).Ends backend
    (fun documents next => I next ∧ ∀ document ∈ documents, P document) (fun _ next => I next)
  scanIndex : ∀ {backend} collection index key, I backend →
    (ExecutionBackend.scanIndex collection index key).Ends backend
      (fun documents next => I next ∧ ∀ document ∈ documents, P document) (fun _ next => I next)
  insert : ∀ collection {document}, P document →
    (ExecutionBackend.insert collection document).Preserves I
  replace : ∀ collection {document}, P document →
    (ExecutionBackend.replace collection document).Preserves I
  delete : ∀ collection id, (ExecutionBackend.delete collection id).Preserves I
  createCollection : ∀ name, (ExecutionBackend.createCollection name).Preserves I
  dropCollection : ∀ name, (ExecutionBackend.dropCollection name).Preserves I
  createIndex : ∀ name collection field,
    (ExecutionBackend.createIndex name collection field).Preserves I
  dropIndex : ∀ name, (ExecutionBackend.dropIndex name).Preserves I

variable {P : Document → Prop} {I : β → Prop} {run : Run β}

omit [ExecutionBackend β] in
theorem Run.preserves_onBackend {α : Type} {call : Action Failure β α} (h : call.Preserves I) :
    (Run.onBackend call).Preserves fun run : Run β => I run.backend :=
  h.zoom (fun _ hrun => hrun) fun _ _ _ hnext => hnext

omit [ExecutionBackend β] in
/-- A call of the store keeps the supply of identifiers. -/
theorem Run.onBackend_ends {α : Type} {call : Action Failure β α} {Q : α → β → Prop}
    {E : Failure → β → Prop} (h : call.Ends run.backend Q E) :
    (Run.onBackend call).Ends run (fun result next => Q result next.backend ∧ next.ids = run.ids)
      (fun cause next => E cause next.backend ∧ next.ids = run.ids) := by
  have hzoom : (Run.onBackend call).Ends run _ _ := h.zoom
  apply hzoom.weaken
  · rintro _ _ ⟨backend, rfl, hbackend⟩
    exact ⟨hbackend, rfl⟩
  · rintro _ _ ⟨backend, rfl, hbackend⟩
    exact ⟨hbackend, rfl⟩

omit [ExecutionBackend β] in
theorem Run.onIds_ends {α : Type} {call : Action Failure IdSource α} {Q : α → IdSource → Prop}
    {E : Failure → IdSource → Prop} (h : call.Ends run.ids Q E) :
    (Run.onIds call).Ends run (fun result next => next.backend = run.backend ∧ Q result next.ids)
      (fun cause next => next.backend = run.backend ∧ E cause next.ids) := by
  have hzoom : (Run.onIds call).Ends run _ _ := h.zoom
  apply hzoom.weaken
  · rintro _ _ ⟨ids, rfl, hids⟩
    exact ⟨rfl, hids⟩
  · rintro _ _ ⟨ids, rfl, hids⟩
    exact ⟨rfl, hids⟩

/-- Documents are read by a scan of an index or of the collection. -/
theorem accessDocuments_ends {Q : List Document → β → Prop} {E : Failure → β → Prop}
    (plan : QueryPlan) (collection : String)
    (hindex : ∀ scanned index key, plan.access = .indexScan scanned index key →
      (ExecutionBackend.scanIndex collection index key).Ends run.backend Q E)
    (hscan : ∀ scanned, plan.access = .collectionScan scanned →
      (ExecutionBackend.scan collection).Ends run.backend Q E)
    (hcommand : ∀ cause, E cause run.backend) :
    (accessDocuments plan collection).Ends run
      (fun documents next => Q documents next.backend ∧ next.ids = run.ids)
      (fun cause next => E cause next.backend) := by
  have hread : ∀ {call : Action Failure β (List Document)}, call.Ends run.backend Q E →
      Action.Ends (do
        let documents ← Run.onBackend call
        Action.modify fun run : Run β => { run with examined := documents.length }
        return documents) run (fun documents next => Q documents next.backend ∧ next.ids = run.ids)
        (fun cause next => E cause next.backend) := by
    intro call hcall
    apply (Run.onBackend_ends hcall).seq
    · rintro documents next hnext
      exact .inl ⟨documents, { next with examined := documents.length }, rfl, hnext⟩
    · exact fun _ _ hfailed => hfailed.1
  rw [accessDocuments]
  cases haccess : plan.access with
  | indexScan scanned index key => exact hread (hindex scanned index key haccess)
  | collectionScan scanned => exact hread (hscan scanned haccess)
  | command => exact hread (.inr ⟨_, _, rfl, hcommand _⟩)

/-- The documents that are selected to be written satisfy the property. -/
theorem CallsKeep.selectDocuments_ends (h : CallsKeep P I) (hP : Admissible P) (query : Query)
    (plan : QueryPlan) {kind : CommandKind} (hkind : kind = .update ∨ kind = .delete)
    (collection : String) (hrun : I run.backend) :
    (selectDocuments query plan kind collection).Ends run
      (fun documents next => I next.backend ∧ ∀ document ∈ documents, P document)
      (fun _ next => I next.backend) := by
  cases hvalid : validateStages query.stages kind with
  | error cause =>
      refine .inr ⟨.error cause, run, Action.bind_of_error ?_, hrun⟩
      rw [Action.ofExcept_apply, hvalid]
      rfl
  | ok _ =>
      have hstages := writing_of_validateStages hvalid hkind
      have hchecked : (Action.ofExcept (validateStages query.stages kind).lift :
          Action Failure (Run β) Unit) run = (.ok (), run) := by
        rw [Action.ofExcept_apply, hvalid]
        rfl
      apply Action.Ends.after hchecked
      have hread := accessDocuments_ends plan collection
        (fun _ index key _ => h.scanIndex collection index key hrun)
        (fun _ _ => h.scan collection hrun)
        (fun _ => hrun)
      apply hread.seq
      · rintro documents next ⟨⟨hnext, hall⟩, -⟩
        have hpipeline := runPipeline_ends hP.assigned hstages documents next.ids
        apply (Run.onIds_ends hpipeline).weaken
        · rintro left last ⟨hsame, hleft⟩
          exact ⟨hsame ▸ hnext, hleft.all hall⟩
        · rintro _ last ⟨hsame, -⟩
          exact hsame ▸ hnext
      · exact fun _ _ hfailed => hfailed

theorem CallsKeep.insert_preserves (h : CallsKeep P I) (hP : Admissible P) (collection : String)
    (document : Expression) :
    Action.Preserves (do
      let inserted ← Run.onIds (newDocument document)
      let id ← Run.onBackend (ExecutionBackend.insert collection inserted)
      return ExecutionResult.inserted id) fun run : Run β => I run.backend := by
  apply Action.Preserves.of_ends
  intro run hrun
  apply (Run.onIds_ends (hP.created document run.ids)).seq
  · rintro inserted next ⟨hsame, hinserted⟩
    have hcall := Run.preserves_onBackend (h.insert collection hinserted)
    exact (hcall.bind fun _ => Action.Preserves.pure _).ends (hsame ▸ hrun)
  · rintro _ next ⟨hsame, -⟩
    exact hsame ▸ hrun

/-- Documents that have been selected are written back or deleted, one by one. -/
theorem CallsKeep.change_preserves (h : CallsKeep P I) (hP : Admissible P) (query : Query)
    (plan : QueryPlan) {kind : CommandKind} (hkind : kind = .update ∨ kind = .delete)
    (collection : String) {change : Document → Action Failure β Unit}
    (hchange : ∀ document, P document → (change document).Preserves I)
    (result : List Document → ExecutionResult) :
    Action.Preserves (do
      let documents ← selectDocuments query plan kind collection
      documents.forM fun document => Run.onBackend (change document)
      return result documents) fun run : Run β => I run.backend := by
  apply Action.Preserves.of_ends
  intro run hrun
  apply (h.selectDocuments_ends hP query plan hkind collection hrun).seq
  · rintro documents next ⟨hnext, hall⟩
    have hloop : (documents.forM fun document => Run.onBackend (change document)).Preserves
        fun run : Run β => I run.backend := by
      apply Action.Preserves.forM_of_mem
      exact fun document hmem => Run.preserves_onBackend (hchange document (hall document hmem))
    exact (hloop.bind fun _ => Action.Preserves.pure _).ends hnext
  · exact fun _ _ hfailed => hfailed

/-- Every command keeps the invariant that the calls keep. -/
theorem CallsKeep.executeCommand (h : CallsKeep P I) (hP : Admissible P) (query : Query)
    (plan : QueryPlan) (command : Command) :
    (executeCommand query plan command).Preserves fun run : Run β => I run.backend := by
  cases command with
  | get collection =>
      apply Action.Preserves.bind
      · rw [selectDocuments]
        refine (Action.Preserves.ofExcept _).bind fun _ => ?_
        apply Action.Preserves.bind
        · apply Action.Preserves.of_ends
          intro run hrun
          have hread := accessDocuments_ends plan collection
            (fun _ index key _ => h.scanIndex collection index key hrun)
            (fun _ _ => h.scan collection hrun)
            (fun _ => hrun)
          apply hread.weaken
          · exact fun _ _ hnext => hnext.1.1
          · exact fun _ _ hfailed => hfailed
        · exact fun _ _ hrun => hrun
      · exact fun _ => Action.Preserves.pure _
  | insert collection document => exact h.insert_preserves hP collection document
  | update collection =>
      exact h.change_preserves hP query plan (.inl rfl) collection
        (fun document hdocument => h.replace collection hdocument) fun documents =>
          .updated documents.length
  | delete collection =>
      exact h.change_preserves hP query plan (.inr rfl) collection
        (fun document _ => h.delete collection document.id) fun documents =>
          .deleted documents.length
  | createCollection name =>
      exact (Run.preserves_onBackend (h.createCollection name)).bind fun _ =>
        Action.Preserves.pure _
  | dropCollection name =>
      exact (Run.preserves_onBackend (h.dropCollection name)).bind fun _ => Action.Preserves.pure _
  | createIndex name collection fields =>
      match fields with
      | [field] =>
          exact (Run.preserves_onBackend (h.createIndex name collection field.segments)).bind
            fun _ => Action.Preserves.pure _
      | [] => exact Action.Preserves.ofExcept _
      | _ :: _ :: _ => exact Action.Preserves.ofExcept _
  | dropIndex name =>
      exact (Run.preserves_onBackend (h.dropIndex name)).bind fun _ => Action.Preserves.pure _

/-- A statement keeps what all calls keep. -/
theorem CallsKeep.execute (h : CallsKeep P I) (hP : Admissible P) (query : Query) :
    (execute query).Preserves fun run : Run β => I run.backend := by
  intro run hrun
  rw [Executor.execute, executePlanned]
  split
  · exact hrun
  · exact h.executeCommand hP query _ query.command { run with examined := 0 } hrun

/-- The state after statements of which some may fail. -/
def executeAll : List Query → Run β → Run β
  | [], run => run
  | query :: queries, run => executeAll queries (Executor.execute query run).2

/-- So do statements one after the other. -/
theorem CallsKeep.executeAll (h : CallsKeep P I) (hP : Admissible P) (queries : List Query)
    (hrun : I run.backend) : I (executeAll queries run).backend := by
  induction queries generalizing run with
  | nil => exact hrun
  | cons query queries ih => exact ih (h.execute hP query run hrun)

end Statements

end NovaBase.Executor
