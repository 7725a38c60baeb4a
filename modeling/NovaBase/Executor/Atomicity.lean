import NovaBase.Executor.Mirrored
import NovaBase.Executor.Store

/-!
# What statements leave

On a store in memory a statement has its effect or changes nothing. On an indexed
store an update is not undone when an index refuses one of its documents: those
before it have been replaced. Nor is a change undone with which the snapshot of an
index becomes too large to be written. Otherwise a statement that fails changes
nothing. The files of the indexes are taken to be written and removed without an
I/O error.
-/

namespace NovaBase.Executor

open Lib NovaQl Index

/-- A statement on a store in memory changes nothing when it fails. -/
theorem memory_execute_ends (queries : List Query) (ids : IdSource) (query : Query) :
    let run : Run MemoryBackend := executeAll queries ⟨.new, ids, 0⟩
    (execute query).Ends run
      (fun result last =>
        query.explain = true ∧ last.backend = run.backend ∧ result = .explained (plan query []) ∨
          query.explain = false ∧ Effect query.stages run.ids (fun _ => True) query.command
            run.backend.contents result last.backend.contents)
      (fun _ last => last.backend = run.backend) := by
  intro run
  have hnew : Keyed MemoryBackend.new.documents := nofun
  have hrun := @StoreView.Lawful.executeAll _ _ _ ⟨MemoryBackend.new, ids, 0⟩
    MemoryBackend.lawful queries hnew
  have hwanted : MemoryBackend.view.Wanted query run.backend = fun _ => True :=
    MemoryBackend.wanted_eq query run.backend
  apply (MemoryBackend.lawful.execute_ends query hrun).weaken
  · exact fun result last hlast => hlast.imp_right fun heffect => ⟨heffect.1, hwanted ▸ heffect.2.2⟩
  · rintro cause last ⟨-, hsame | hstopped | ⟨⟨⟩, -⟩⟩
    · exact Eq.symm hsame
    · exact (MemoryBackend.not_stopped hstopped).elim

/-- After any statements on a store in memory, another has its effect or changes nothing. -/
theorem memory_statements_all_or_nothing (queries : List Query) (ids : IdSource) (query : Query) :
    let run : Run MemoryBackend := executeAll queries ⟨.new, ids, 0⟩
    match execute query run with
    | (.ok result, last) =>
        query.explain = true ∧ last.backend = run.backend ∧ result = .explained (plan query []) ∨
          query.explain = false ∧ Effect query.stages run.ids (fun _ => True) query.command
            run.backend.contents result last.backend.contents
    | (.error _, last) => last.backend = run.backend := by
  intro run
  have hends : (execute query).Ends run _ _ := memory_execute_ends queries ids query
  rcases hends with ⟨result, last, hexecute, hlast⟩ | ⟨cause, last, hexecute, hlast⟩
  · rw [hexecute]
    exact hlast
  · rw [hexecute]
    exact hlast

namespace IndexedBackend

variable [CharacterTables] {backend : IndexedBackend MemoryBackend}

/-- A snapshot that is too large excuses a change that has been made. -/
def view : StoreView (IndexedBackend MemoryBackend) where
  Invariant := Coherent
  contents := contents
  Same := SameContents
  Excused := Index.Oversized

/-- Coherent indexed backends satisfy the laws of a store, their indexes included. -/
theorem lawful : view.Lawful where
  refl := SameContents.refl
  defined h _ hmem := Coherent.defined h hmem
  scan collection h := by
    apply (scan_ends h collection).weaken
    · rintro _ _ ⟨rfl, stored, hstored, hlist, hsorted, -⟩
      exact ⟨rfl, stored, hstored, lists_all hlist hsorted⟩
    · exact fun _ _ hfailed => hfailed.1
  scanIndex key h hdefined := Coherent.scanIndex_ends h hdefined key
  insert {backend} collection document h := by
    have hput : ∀ {id next}, backend.Changed (MemoryBackend.insert collection document) id next →
        id = document.id ∧ Inserted collection document backend.contents next.contents := by
      intro id next hnext
      obtain ⟨hid, stored, hstored, hnew, hdocuments⟩ :=
        (MemoryBackend.insert_ends backend.inner collection document).of_ok hnext.inner
      exact ⟨hid, stored, hstored, hnew, contents_eq_put hnext.defines hdocuments⟩
    apply (insert_ends h collection document).weaken
    · exact fun _ _ hnext => ⟨hnext.coherent, hput hnext⟩
    · rintro cause _ (⟨rfl, -⟩ | ⟨hover, _, hnext⟩)
      · exact ⟨h, .inl (.refl backend)⟩
      · exact ⟨hnext.coherent, .inr ⟨hover, (hput hnext).2⟩⟩
  replace {backend} collection stored document old h hstored hold := by
    have hput : ∀ {next}, backend.Changed (MemoryBackend.replace collection document) () next →
        next.contents = backend.contents.put collection
          (Function.update stored document.id (some document)) := by
      intro next hnext
      obtain ⟨found, _, hfound, -, hdocuments⟩ :=
        (MemoryBackend.replace_ends backend.inner collection document).of_ok hnext.inner
      obtain rfl := Option.some.inj (hstored.symm.trans hfound)
      exact contents_eq_put hnext.defines hdocuments
    apply (replace_ends h collection document).weaken
    · exact fun _ _ hnext => ⟨hnext.coherent, hput hnext⟩
    · rintro cause _ (⟨rfl, hrefused | hlacks⟩ | ⟨hover, _, hnext⟩)
      · exact ⟨h, .inl ⟨rfl, mt h.accepts_iff.mp hrefused⟩⟩
      · cases (hlacks stored hstored).symm.trans hold
      · exact ⟨hnext.coherent, .inr ⟨hover, hput hnext⟩⟩
  delete {backend} collection stored id old h hstored hold := by
    have hput : ∀ {next}, backend.Changed (MemoryBackend.delete collection id) () next →
        next.contents = backend.contents.put collection (Function.update stored id none) := by
      intro next hnext
      obtain ⟨found, _, hfound, -, hdocuments⟩ :=
        (MemoryBackend.delete_ends backend.inner collection id).of_ok hnext.inner
      obtain rfl := Option.some.inj (hstored.symm.trans hfound)
      exact contents_eq_put hnext.defines hdocuments
    apply (delete_ends h collection id).weaken
    · exact fun _ _ hnext => ⟨hnext.coherent, hput hnext⟩
    · rintro cause _ (⟨rfl, hlacks⟩ | ⟨hover, _, hnext⟩)
      · cases (hlacks stored hstored).symm.trans hold
      · exact ⟨hnext.coherent, hover, hput hnext⟩
  createCollection {backend} name h := by
    apply (createCollection_ends h name).weaken
    · intro _ next hnext
      obtain ⟨hnew, hdocuments⟩ :=
        (MemoryBackend.createCollection_ends backend.inner name).of_ok hnext.inner
      exact ⟨hnext.coherent, hnew, contents_eq_put hnext.defines hdocuments⟩
    · rintro _ _ rfl
      exact ⟨h, .refl backend⟩
  dropCollection {backend} name h := by
    apply (dropCollection_ends h name).weaken
    · exact fun _ _ hnext => ⟨hnext.1, hnext.2.1, hnext.2.2.1⟩
    · rintro _ _ rfl
      exact ⟨h, .refl backend⟩
  createIndex {backend} name collection field h := by
    apply (createIndex_ends h name collection field).weaken
    · exact fun _ _ hnext => ⟨hnext.1, hnext.2.2⟩
    · exact fun _ _ hfailed => hfailed
  dropIndex {backend} name h := by
    apply (dropIndex_ends h name).weaken
    · exact fun _ _ hnext => ⟨hnext.1, hnext.2.2⟩
    · rintro _ _ rfl
      exact ⟨h, .refl backend⟩

/-- How a statement ends on an indexed store: the indexes answer exactly in either case. -/
theorem execute_ends (queries : List Query) (ids : IdSource) (query : Query) :
    let run : Run (IndexedBackend MemoryBackend) := executeAll queries ⟨empty, ids, 0⟩
    let wanted := run.backend.contents.Wants (plan query run.backend.indexes.definitions).access
    (execute query).Ends run
      (fun result last => last.backend.Answers ∧
        (query.explain = true ∧ last.backend = run.backend ∧
            result = .explained (plan query run.backend.indexes.definitions) ∨
          query.explain = false ∧ Effect query.stages run.ids wanted query.command
            run.backend.contents result last.backend.contents))
      (fun cause last => last.backend.Answers ∧
        (run.backend.SameContents last.backend ∨
          Stopped query.stages run.ids wanted query.command run.backend.contents
            last.backend.contents ∨
          cause = .error sizeError ∧ Overrun query.stages run.ids wanted query.command
            run.backend.contents last.backend.contents)) := by
  intro run wanted
  have hrun : run.backend.Coherent :=
    @StoreView.Lawful.executeAll _ _ _ ⟨empty, ids, 0⟩ lawful queries coherent_empty
  apply (lawful.execute_ends query hrun).weaken
  · rintro result last (⟨hexplain, hsame, hresult⟩ | ⟨hexplain, hcoherent, heffect⟩)
    · exact ⟨hsame ▸ hrun.answers, .inl ⟨hexplain, hsame, hresult⟩⟩
    · exact ⟨Coherent.answers hcoherent, .inr ⟨hexplain, heffect⟩⟩
  · exact fun cause last hlast => ⟨Coherent.answers hlast.1, hlast.2⟩

end IndexedBackend

end NovaBase.Executor
