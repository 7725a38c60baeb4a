import NovaBase.Executor.Projection

/-!
# Assignments

An assignment writes one path. It fails only where something on the way is not a
document, and then nothing has been made yet; where it succeeds, what it leaves is
known at every path: the value and what is in it, documents on the way, and
everything else as before.
-/

namespace NovaBase.Executor

open Lib NovaQl

/-- The identifiers after the first one. -/
def IdSource.rest (ids : IdSource) : IdSource := fun n => ids (n + 1)

/-- The generator never fails. -/
def Generates (ids : IdSource) : Prop := ∀ n, ∃ id, ids n = .ok id

theorem Generates.rest {ids : IdSource} (h : Generates ids) : Generates ids.rest :=
  fun n => h (n + 1)

/-- Something on the way to a path is not a document. -/
def Blocked (document : Document) (path : List String) : Prop :=
  ∃ segments found, segments <+: path ∧ segments ≠ path ∧
    Document.lookupParts document segments = some found ∧ isDocument found = false

/-- What a document is after a value was written at a path, seen from every path. -/
structure Written (before after : Document) (path : List String) (value : NovaValue) : Prop where
  id : after.id = before.id
  target : Document.lookupParts after path = some value
  /-- There are documents on the way, and those that were there before keep their identifiers. -/
  way : ∀ segments, segments ≠ [] → segments <+: path → segments ≠ path →
    ∃ nested, Document.lookupParts after segments = some (.document nested) ∧
      ∀ old, Document.lookupParts before segments = some (.document old) → nested.id = old.id
  /-- What is beside the path stays as it was. -/
  beside : ∀ segments, ¬ segments <+: path → ¬ path <+: segments →
    Document.lookupParts after segments = Document.lookupParts before segments

section Lookups

variable {document nested : Document} {part : String} {rest : List String}

/-- Behind its first part, a path goes on in the nested document. -/
theorem lookupParts_nested (hget : document.get part = some (.document nested))
    (hrest : rest ≠ []) :
    Document.lookupParts document (part :: rest) = Document.lookupParts nested rest := by
  obtain ⟨next, rest, rfl⟩ := List.exists_cons_of_ne_nil hrest
  rw [lookupParts_cons, hget]

/-- A lookup depends on the field at the head of its path only. -/
theorem lookupParts_congr {other : Document} (hget : document.get part = other.get part) :
    Document.lookupParts document (part :: rest) = Document.lookupParts other (part :: rest) := by
  cases rest with
  | nil => exact hget
  | cons next rest => rw [lookupParts_cons, lookupParts_cons, hget]

theorem lookupParts_new (id : NovaId) (segments : List String) :
    Document.lookupParts (DocumentOf.new id) segments = none := by
  cases segments with
  | nil => rfl
  | cons part rest => exact lookupParts_of_none rfl rest

/-- A lookup goes on from where a part of it has arrived. -/
theorem lookupParts_append {segments : List String} (hsegments : segments ≠ [])
    (hrest : rest ≠ []) :
    Document.lookupParts document (segments ++ rest) =
      match Document.lookupParts document segments with
      | some (.document nested) => Document.lookupParts nested rest
      | _ => none := by
  induction segments generalizing document with
  | nil => exact absurd rfl hsegments
  | cons part next ih =>
      by_cases hnext : next = []
      · subst hnext
        obtain ⟨first, rest, rfl⟩ := List.exists_cons_of_ne_nil hrest
        rfl
      · have hmore : next ++ rest ≠ [] := by simp [hnext]
        rw [List.cons_append]
        cases hget : document.get part with
        | none => rw [lookupParts_of_none hget, lookupParts_of_none hget]
        | some value =>
            obtain ⟨first, next, rfl⟩ := List.exists_cons_of_ne_nil hnext
            cases value with
            | document nested =>
                rw [lookupParts_nested hget hmore, lookupParts_nested hget hnext]
                exact ih hnext
            | _ =>
                rw [List.cons_append, lookupParts_scalar hget rfl, lookupParts_scalar hget rfl]

end Lookups

section Steps

variable {document nested : Document} {ids : IdSource} {value : NovaValue} {segment : String}
  {rest : List String}

theorem setSegments_last :
    setSegments value [segment] (document, ids) =
      (.ok (), (document.insert segment value).2, ids) :=
  rfl

/-- A document in the way is taken out, changed and put back. -/
theorem setSegments_present (hrest : rest ≠ [])
    (hget : document.get segment = some (.document nested)) {result : Except Failure Unit}
    {inner : Document} {ids' : IdSource}
    (hinner : setSegments value rest (nested, ids) = (result, inner, ids')) :
    setSegments value (segment :: rest) (document, ids) =
      (result, (document.insert segment (.document inner)).2, ids') := by
  obtain ⟨next, rest, rfl⟩ := List.exists_cons_of_ne_nil hrest
  have hpresent : (Action.reads fun draft : Draft => .ok (draft.1.get segment).isSome :
      Action Failure Draft Bool) (document, ids) = (.ok true, document, ids) := by
    rw [Action.reads_apply, hget]
    rfl
  rw [setSegments.eq_3 _ _ _ (by simp), Action.bind_of_ok hpresent]
  simp only [↓reduceIte, hget, hinner]

/-- A scalar in the way stops the assignment before it has changed anything. -/
theorem setSegments_scalar (hrest : rest ≠ []) {found : NovaValue}
    (hget : document.get segment = some found) (hfound : isDocument found = false) :
    ∃ cause, setSegments value (segment :: rest) (document, ids) =
      (.error cause, document, ids) := by
  obtain ⟨next, rest, rfl⟩ := List.exists_cons_of_ne_nil hrest
  have hpresent : (Action.reads fun draft : Draft => .ok (draft.1.get segment).isSome :
      Action Failure Draft Bool) (document, ids) = (.ok true, document, ids) := by
    rw [Action.reads_apply, hget]
    rfl
  rw [setSegments.eq_3 _ _ _ (by simp), Action.bind_of_ok hpresent]
  simp only [↓reduceIte, hget]
  cases found <;> first | exact ⟨_, rfl⟩ | cases hfound

/-- Where a field is missing, a new document is put there and filled. -/
theorem setSegments_absent (hrest : rest ≠ []) (hget : document.get segment = none)
    {id : NovaId} (hid : ids 0 = .ok id) {result : Except Failure Unit} {inner : Document}
    {ids' : IdSource}
    (hinner : setSegments value rest (.new id, ids.rest) = (result, inner, ids')) :
    setSegments value (segment :: rest) (document, ids) =
      (result, ((document.insert segment (.document (.new id))).2.insert segment
        (.document inner)).2, ids') := by
  obtain ⟨next, rest, rfl⟩ := List.exists_cons_of_ne_nil hrest
  have habsent : (Action.reads fun draft : Draft => .ok (draft.1.get segment).isSome :
      Action Failure Draft Bool) (document, ids) = (.ok false, document, ids) := by
    rw [Action.reads_apply, hget]
    rfl
  have hgenerate : (Action.zoom Prod.snd (fun draft ids => (draft.1, ids)) generate :
      Action Failure Draft NovaId) (document, ids) = (.ok id, document, ids.rest) := by
    have hids : generate ids = (.ok id, ids.rest) := by
      rw [generate, hid]
      rfl
    simp only [Action.zoom, hids]
  have hmodify : (Action.modify fun draft : Draft =>
      ((draft.1.insert segment (.document (.new id))).2, draft.2) : Action Failure Draft Unit)
      (document, ids.rest) =
      (.ok (), (document.insert segment (.document (.new id))).2, ids.rest) := rfl
  rw [setSegments.eq_3 _ _ _ (by simp), Action.bind_of_ok habsent]
  simp only [Bool.false_eq_true, ↓reduceIte]
  refine (Action.bind_of_ok hgenerate).trans ((Action.bind_of_ok hmodify).trans ?_)
  simp only [DocumentOf.get_insert, ↓reduceIte, hinner]

end Steps

section Blocking

variable {document nested : Document} {segment : String} {rest : List String}

theorem not_blocked_singleton : ¬ Blocked document [segment] := by
  rintro ⟨segments, found, hfront, hne, hlookup, -⟩
  cases segments with
  | nil => cases hlookup
  | cons part parts =>
      obtain ⟨rfl, hparts⟩ := List.cons_prefix_cons.mp hfront
      exact hne (by rw [List.prefix_nil.mp hparts])

theorem blocked_of_scalar (hrest : rest ≠ []) {found : NovaValue}
    (hget : document.get segment = some found) (hfound : isDocument found = false) :
    Blocked document (segment :: rest) := by
  refine ⟨[segment], found, ⟨rest, rfl⟩, ?_, hget, hfound⟩
  simpa using hrest.symm

/-- What blocks a path behind a document blocks it inside that document. -/
theorem blocked_nested_iff (hget : document.get segment = some (.document nested)) :
    Blocked document (segment :: rest) ↔ Blocked nested rest := by
  constructor
  · rintro ⟨segments, found, hfront, hne, hlookup, hfound⟩
    cases segments with
    | nil => cases hlookup
    | cons part parts =>
        obtain ⟨rfl, hparts⟩ := List.cons_prefix_cons.mp hfront
        by_cases hnil : parts = []
        · subst hnil
          cases hget.symm.trans hlookup
          cases hfound
        · rw [lookupParts_nested hget hnil] at hlookup
          exact ⟨parts, found, hparts, fun h => hne (by rw [h]), hlookup, hfound⟩
  · rintro ⟨segments, found, hfront, hne, hlookup, hfound⟩
    have hnil : segments ≠ [] := by
      rintro rfl
      cases hlookup
    refine ⟨segment :: segments, found, List.cons_prefix_cons.mpr ⟨rfl, hfront⟩, ?_, ?_, hfound⟩
    · simpa using hne
    · rw [lookupParts_nested hget hnil, hlookup]

/-- A path that leaves the document at once meets nothing. -/
theorem not_blocked_of_none (hget : document.get segment = none) :
    ¬ Blocked document (segment :: rest) := by
  rintro ⟨segments, found, hfront, -, hlookup, -⟩
  cases segments with
  | nil => cases hlookup
  | cons part parts =>
      obtain ⟨rfl, -⟩ := List.cons_prefix_cons.mp hfront
      cases (lookupParts_of_none hget parts).symm.trans hlookup

theorem not_blocked_new (id : NovaId) (path : List String) : ¬ Blocked (.new id) path := by
  rintro ⟨segments, found, -, -, hlookup, -⟩
  cases (lookupParts_new id segments).symm.trans hlookup

end Blocking

section Writing

variable {document nested inner after : Document} {segment : String} {rest : List String}
  {value : NovaValue}

theorem written_last : Written document (document.insert segment value).2 [segment] value where
  id := rfl
  target := (DocumentOf.get_insert _ _ _ _).trans (if_pos rfl)
  way := by
    intro segments hnil hfront hne
    obtain ⟨part, parts, rfl⟩ := List.exists_cons_of_ne_nil hnil
    obtain ⟨rfl, hparts⟩ := List.cons_prefix_cons.mp hfront
    exact absurd (by rw [List.prefix_nil.mp hparts]) hne
  beside := by
    intro segments hfront hextends
    cases segments with
    | nil => exact absurd List.nil_prefix hfront
    | cons part parts =>
        have hpart : segment ≠ part := by
          rintro rfl
          exact hextends ⟨parts, rfl⟩
        exact lookupParts_congr ((DocumentOf.get_insert _ _ _ _).trans (if_neg hpart))

/-- A path is written in a document when its rest is written in the document behind its first
field, which may be new. -/
theorem Written.cons (hinner : Written nested inner rest value) (hrest : rest ≠ [])
    (hid : after.id = document.id) (hget : after.get segment = some (.document inner))
    (hothers : ∀ other, segment ≠ other → after.get other = document.get other)
    (hbefore : document.get segment = some (.document nested) ∨
      document.get segment = none ∧ ∃ id, nested = .new id) :
    Written document after (segment :: rest) value where
  id := hid
  target := (lookupParts_nested hget hrest).trans hinner.target
  way := by
    intro segments hnil hfront hne
    obtain ⟨part, parts, rfl⟩ := List.exists_cons_of_ne_nil hnil
    obtain ⟨rfl, hparts⟩ := List.cons_prefix_cons.mp hfront
    by_cases hempty : parts = []
    · subst hempty
      refine ⟨inner, hget, fun old hold => ?_⟩
      rcases hbefore with hsome | ⟨hnone, -⟩
      · cases hsome.symm.trans hold
        exact hinner.id
      · cases hnone.symm.trans hold
    · obtain ⟨found, hfound, hsame⟩ := hinner.way parts hempty hparts fun h => hne (by rw [h])
      refine ⟨found, (lookupParts_nested hget hempty).trans hfound, fun old hold => hsame old ?_⟩
      rcases hbefore with hsome | ⟨hnone, -⟩
      · rwa [lookupParts_nested hsome hempty] at hold
      · cases (lookupParts_of_none hnone parts).symm.trans hold
  beside := by
    intro segments hfront hextends
    cases segments with
    | nil => exact absurd List.nil_prefix hfront
    | cons part parts =>
        by_cases hpart : segment = part
        · subst hpart
          have hparts : ¬ parts <+: rest := fun h => hfront (List.cons_prefix_cons.mpr ⟨rfl, h⟩)
          have hparts' : ¬ rest <+: parts := fun h => hextends (List.cons_prefix_cons.mpr ⟨rfl, h⟩)
          have hempty : parts ≠ [] := by
            rintro rfl
            exact hparts List.nil_prefix
          rw [lookupParts_nested hget hempty, hinner.beside parts hparts hparts']
          rcases hbefore with hsome | ⟨hnone, id, rfl⟩
          · rw [lookupParts_nested hsome hempty]
          · rw [lookupParts_of_none hnone, lookupParts_new]
        · exact lookupParts_congr (hothers part hpart)

end Writing

/-- An assignment to a path that is blocked changes nothing. Any other writes the path. -/
theorem setSegments_cases {document : Document} (h : Document.WellFormed document)
    {value : NovaValue} (hvalue : value.WellFormed) {path : List String} (hpath : path ≠ [])
    {ids : IdSource} (hids : Generates ids) :
    (Blocked document path ∧
        ∃ cause, setSegments value path (document, ids) = (.error cause, document, ids)) ∨
      (¬ Blocked document path ∧ ∃ after ids',
        setSegments value path (document, ids) = (.ok (), after, ids') ∧
        Written document after path value ∧ Document.WellFormed after ∧ Generates ids') := by
  induction path generalizing document ids with
  | nil => exact absurd rfl hpath
  | cons segment rest ih =>
      by_cases hrest : rest = []
      · subst hrest
        exact .inr ⟨not_blocked_singleton, _, _, setSegments_last, written_last,
          Document.wellFormed_insert h segment hvalue, hids⟩
      · cases hget : document.get segment with
        | none =>
            obtain ⟨id, hid⟩ := hids 0
            have hnew : (NovaValue.document (.new id)).WellFormed := Document.wellFormed_new id
            rcases ih (Document.wellFormed_new id) hrest hids.rest with
              ⟨hblocked, -⟩ | ⟨-, inner, ids', hset, hwritten, hformed, hids'⟩
            · exact absurd hblocked (not_blocked_new id rest)
            · refine .inr ⟨not_blocked_of_none hget, _, _, setSegments_absent hrest hget hid hset,
                hwritten.cons hrest rfl ?_ ?_ (.inr ⟨hget, id, rfl⟩), ?_, hids'⟩
              · simp
              · intro other hother
                simp [hother]
              · exact Document.wellFormed_insert (Document.wellFormed_insert h segment hnew) segment
                  (show (NovaValue.document inner).WellFormed from hformed)
        | some found =>
            cases found with
            | document nested =>
                rw [blocked_nested_iff hget]
                rcases ih (Document.wellFormed_nested h hget) hrest hids with
                  ⟨hblocked, cause, hset⟩ | ⟨hblocked, inner, ids', hset, hwritten, hformed, hids'⟩
                · refine .inl ⟨hblocked, cause, ?_⟩
                  rw [setSegments_present hrest hget hset,
                    Document.insert_of_get (Document.wellFormed_iff.mp h).1 hget]
                · refine .inr ⟨hblocked, _, _, setSegments_present hrest hget hset,
                    hwritten.cons hrest rfl ?_ ?_ (.inl hget), ?_, hids'⟩
                  · simp
                  · intro other hother
                    simp [hother]
                  · exact Document.wellFormed_insert h segment
                      (show (NovaValue.document inner).WellFormed from hformed)
            | _ => exact .inl ⟨blocked_of_scalar hrest hget rfl, setSegments_scalar hrest hget rfl⟩

/-- An assignment that fails: to the identifier, or behind something that is not a document. -/
def Rejected (document : Document) (path : Path) : Prop :=
  path.segments.head? = some "_id" ∨ Blocked document path.segments

/-- An assignment is rejected without effect, or writes its path. -/
theorem setPath_cases {document : Document} (h : Document.WellFormed document) {value : NovaValue}
    (hvalue : value.WellFormed) {path : Path} (hpath : path.segments ≠ []) {ids : IdSource}
    (hids : Generates ids) :
    (Rejected document path ∧
        ∃ cause, setPath path value (document, ids) = (.error cause, document, ids)) ∨
      (¬ Rejected document path ∧ ∃ after ids',
        setPath path value (document, ids) = (.ok (), after, ids') ∧
        Written document after path.segments value ∧ Document.WellFormed after ∧
        Generates ids') := by
  unfold setPath Rejected
  by_cases hid : path.segments.head? = some "_id"
  · rw [if_pos hid]
    exact .inl ⟨.inl hid, _, rfl⟩
  · rw [if_neg hid]
    rcases setSegments_cases h hvalue hpath hids with ⟨hblocked, herror⟩ | ⟨hblocked, hok⟩
    · exact .inl ⟨.inr hblocked, herror⟩
    · exact .inr ⟨not_or.mpr ⟨hid, hblocked⟩, hok⟩

/-- Neither of two paths leads to or through the other. -/
def Incomparable (path other : List String) : Prop := ¬ path <+: other ∧ ¬ other <+: path

theorem Incomparable.symm {path other : List String} (h : Incomparable path other) :
    Incomparable other path :=
  ⟨h.2, h.1⟩

/-- The same document up to the identifiers of documents on the way to two paths that were not
there before. -/
def UpToNewIds (before : Document) (path other : List String) (a b : Document) : Prop :=
  a.id = b.id ∧ ∀ segments,
    Document.lookupParts a segments = Document.lookupParts b segments ∨
      (segments <+: path ∨ segments <+: other) ∧
        ∃ nested nested', Document.lookupParts a segments = some (.document nested) ∧
          Document.lookupParts b segments = some (.document nested') ∧
          ∀ old, Document.lookupParts before segments = some (.document old) →
            nested.id = nested'.id

section Commuting

variable {before middle after : Document} {path other : List String} {value otherValue : NovaValue}

/-- What is written at a path does not block an incomparable one, nor make way for it. -/
theorem Written.blocked_iff (h : Written before middle path value) (hfree : ¬ Blocked before path)
    (hpaths : Incomparable path other) : Blocked middle other ↔ Blocked before other := by
  constructor
  · rintro ⟨segments, found, hfront, hne, hlookup, hfound⟩
    have hextends : ¬ path <+: segments := fun h => hpaths.1 (h.trans hfront)
    by_cases hway : segments <+: path
    · have hproper : segments ≠ path := by
        rintro rfl
        exact hextends List.prefix_rfl
      have hnil : segments ≠ [] := by
        rintro rfl
        cases hlookup
      obtain ⟨nested, hnested, -⟩ := h.way segments hnil hway hproper
      cases hnested.symm.trans hlookup
      cases hfound
    · rw [h.beside segments hway hextends] at hlookup
      exact ⟨segments, found, hfront, hne, hlookup, hfound⟩
  · rintro ⟨segments, found, hfront, hne, hlookup, hfound⟩
    have hextends : ¬ path <+: segments := fun h => hpaths.1 (h.trans hfront)
    by_cases hway : segments <+: path
    · have hproper : segments ≠ path := by
        rintro rfl
        exact hextends List.prefix_rfl
      exact absurd ⟨segments, found, hway, hproper, hlookup, hfound⟩ hfree
    · exact ⟨segments, found, hfront, hne,
        (h.beside segments hway hextends).trans hlookup, hfound⟩

/-- On the way to two paths that were written there are documents, and those that were there
before keep their identifiers. -/
theorem Written.way_twice (hfirst : Written before middle path value)
    (hsecond : Written middle after other otherValue) {segments : List String}
    (hnil : segments ≠ []) (hfront : segments <+: path ∨ segments <+: other)
    (hpath : ¬ path <+: segments) (hother : ¬ other <+: segments) :
    ∃ nested, Document.lookupParts after segments = some (.document nested) ∧
      ∀ old, Document.lookupParts before segments = some (.document old) → nested.id = old.id := by
  have hproper : segments ≠ path := by
    rintro rfl
    exact hpath List.prefix_rfl
  have hproper' : segments ≠ other := by
    rintro rfl
    exact hother List.prefix_rfl
  by_cases hway : segments <+: other
  · obtain ⟨nested, hnested, hsame⟩ := hsecond.way segments hnil hway hproper'
    refine ⟨nested, hnested, fun old hold => ?_⟩
    by_cases hway' : segments <+: path
    · obtain ⟨found, hfound, hfoundSame⟩ := hfirst.way segments hnil hway' hproper
      exact (hsame found hfound).trans (hfoundSame old hold)
    · exact hsame old ((hfirst.beside segments hway' hpath).trans hold)
  · obtain ⟨found, hfound, hsame⟩ :=
      hfirst.way segments hnil (hfront.resolve_right hway) hproper
    exact ⟨found, (hsecond.beside segments hway hother).trans hfound, hsame⟩

/-- A path that was written first leads to its value in the end, and into it. -/
theorem Written.lookup_behind (hsecond : Written middle after other otherValue)
    (hpaths : Incomparable path other) {segments : List String} (hfront : path <+: segments) :
    Document.lookupParts after segments = Document.lookupParts middle segments := by
  refine hsecond.beside segments (fun h => hpaths.1 (hfront.trans h)) fun h => ?_
  rcases List.prefix_or_prefix_of_prefix hfront h with h | h
  · exact hpaths.1 h
  · exact hpaths.2 h

/-- Documents that agree at a path agree on everything behind it. -/
theorem lookupParts_of_same {a b : Document} (hne : path ≠ [])
    (h : Document.lookupParts a path = Document.lookupParts b path) {segments : List String}
    (hfront : path <+: segments) :
    Document.lookupParts a segments = Document.lookupParts b segments := by
  obtain ⟨rest, rfl⟩ := hfront
  by_cases hrest : rest = []
  · rw [hrest, List.append_nil, h]
  · rw [lookupParts_append hne hrest, lookupParts_append hne hrest, h]

/-- Two incomparable paths may be written in either order. -/
theorem written_comm {middle' after' : Document} (hpath : path ≠ []) (hother : other ≠ [])
    (hpaths : Incomparable path other)
    (hfirst : Written before middle path value) (hsecond : Written middle after other otherValue)
    (hfirst' : Written before middle' other otherValue)
    (hsecond' : Written middle' after' path value) :
    UpToNewIds before path other after after' := by
  refine ⟨?_, fun segments => ?_⟩
  · rw [hsecond.id, hfirst.id, hsecond'.id, hfirst'.id]
  · by_cases hextends : path <+: segments
    · left
      rw [hsecond.lookup_behind hpaths hextends]
      exact lookupParts_of_same hpath (hfirst.target.trans hsecond'.target.symm) hextends
    · by_cases hextends' : other <+: segments
      · left
        rw [hsecond'.lookup_behind hpaths.symm hextends']
        exact lookupParts_of_same hother (hsecond.target.trans hfirst'.target.symm) hextends'
      · by_cases hway : segments <+: path ∨ segments <+: other
        · by_cases hnil : segments = []
          · exact .inl (by rw [hnil]; rfl)
          · obtain ⟨nested, hnested, hsame⟩ :=
              hfirst.way_twice hsecond hnil hway hextends hextends'
            obtain ⟨nested', hnested', hsame'⟩ :=
              hfirst'.way_twice hsecond' hnil hway.symm hextends' hextends
            exact .inr ⟨hway, nested, nested', hnested, hnested', fun old hold =>
              (hsame old hold).trans (hsame' old hold).symm⟩
        · rw [not_or] at hway
          left
          rw [hsecond.beside segments hway.2 hextends', hfirst.beside segments hway.1 hextends,
            hsecond'.beside segments hway.1 hextends, hfirst'.beside segments hway.2 hextends']

end Commuting

section Paths

variable {document : Document} {path other : Path} {value otherValue : NovaValue} {ids : IdSource}

/-- Two assignments, one after the other. -/
def setTwice (path : Path) (value : NovaValue) (other : Path) (otherValue : NovaValue) :
    Action Failure Draft Unit := do
  setPath path value
  setPath other otherValue

/-- Of two assignments either one is rejected, or both have written their paths. -/
theorem setTwice_cases (h : Document.WellFormed document) (hvalue : value.WellFormed)
    (hotherValue : otherValue.WellFormed) (hpath : path.segments ≠ [])
    (hother : other.segments ≠ []) (hids : Generates ids)
    (hpaths : Incomparable path.segments other.segments) :
    ((Rejected document path ∨ Rejected document other) ∧
        ∃ cause, (setTwice path value other otherValue (document, ids)).1 = .error cause) ∨
      (¬ Rejected document path ∧ ¬ Rejected document other ∧ ∃ middle after ids',
        setTwice path value other otherValue (document, ids) = (.ok (), after, ids') ∧
        Written document middle path.segments value ∧
        Written middle after other.segments otherValue) := by
  rcases setPath_cases h hvalue hpath hids with
    ⟨hrejected, cause, hset⟩ | ⟨hfree, middle, ids', hset, hwritten, hformed, hids'⟩
  · refine .inl ⟨.inl hrejected, cause, ?_⟩
    rw [setTwice, Action.bind_of_error hset]
  · have hblocked : ¬ Blocked document path.segments := fun hb => hfree (.inr hb)
    have hsame : Rejected middle other ↔ Rejected document other := by
      rw [Rejected, Rejected, hwritten.blocked_iff hblocked hpaths]
    rw [setTwice, Action.bind_of_ok hset]
    rcases setPath_cases hformed hotherValue hother hids' with
      ⟨hrejected, cause, hset'⟩ | ⟨hfree', after, last, hset', hwritten', -, -⟩
    · exact .inl ⟨.inr (hsame.mp hrejected), cause, by rw [hset']⟩
    · exact .inr ⟨hfree, fun hr => hfree' (hsame.mpr hr), middle, after, last, hset', hwritten,
        hwritten'⟩

/-- Two assignments whose paths are no extensions of each other succeed in either order or in
none, and leave the same document up to the identifiers of new documents. -/
theorem setTwice_comm (h : Document.WellFormed document) (hvalue : value.WellFormed)
    {other : Path} {otherValue : NovaValue} (hotherValue : otherValue.WellFormed)
    (hpath : path.segments ≠ []) (hother : other.segments ≠ []) (hids : Generates ids)
    (hpaths : Incomparable path.segments other.segments) :
    let once := setTwice path value other otherValue (document, ids)
    let twice := setTwice other otherValue path value (document, ids)
    (once.1 = .ok () ↔ twice.1 = .ok ()) ∧
      (once.1 = .ok () →
        UpToNewIds document path.segments other.segments once.2.1 twice.2.1) := by
  intro once twice
  have hfirst := setTwice_cases h hvalue hotherValue hpath hother hids hpaths
  have hsecond := setTwice_cases h hotherValue hvalue hother hpath hids hpaths.symm
  rcases hfirst with ⟨hrejected, cause, hset⟩ | ⟨hfree, hfree', middle, changed, _, hset, hw, hw'⟩
  · rcases hsecond with ⟨-, cause', hset'⟩ | ⟨hfree, hfree', -⟩
    · refine ⟨⟨fun hok => ?_, fun hok => ?_⟩, fun hok => ?_⟩
      · cases hset.symm.trans hok
      · cases hset'.symm.trans hok
      · cases hset.symm.trans hok
    · exact absurd hrejected (not_or.mpr ⟨hfree', hfree⟩)
  · rcases hsecond with ⟨hrejected, -⟩ | ⟨-, -, middle', changed', _, hset', hv, hv'⟩
    · exact absurd hrejected (not_or.mpr ⟨hfree', hfree⟩)
    · refine ⟨⟨fun _ => congrArg Prod.fst hset', fun _ => congrArg Prod.fst hset⟩, fun _ => ?_⟩
      have honce : once.2.1 = changed := congrArg (fun s => s.2.1) hset
      have htwice : twice.2.1 = changed' := congrArg (fun s => s.2.1) hset'
      rw [honce, htwice]
      exact written_comm hpath hother hpaths hw hw' hv hv'

/-- An assignment writes one path and nothing else, or fails and changes nothing. Assignments to
incomparable paths commute up to the identifiers of what they make on the way. -/
theorem setPath_spec (h : Document.WellFormed document) (hvalue : value.WellFormed)
    (hpath : path.segments ≠ []) (hids : Generates ids) :
    let after := setPath path value (document, ids)
    ((∃ cause, after.1 = .error cause) ↔ path.segments.head? = some "_id" ∨
        ∃ segments found, segments <+: path.segments ∧ segments ≠ path.segments ∧
          Document.lookupParts document segments = some found ∧ isDocument found = false) ∧
      ((∃ cause, after.1 = .error cause) → after.2.1 = document) ∧
      (after.1 = .ok () →
        Document.lookupParts after.2.1 path.segments = some value ∧ after.2.1.id = document.id ∧
        (∀ segments nested, segments <+: path.segments → segments ≠ path.segments →
          Document.lookupParts document segments = some (.document nested) →
          ∃ changed, Document.lookupParts after.2.1 segments = some (.document changed) ∧
            changed.id = nested.id) ∧
        ∀ other : Path, ¬ other.segments <+: path.segments → ¬ path.segments <+: other.segments →
          readPath after.2.1 other = readPath document other) ∧
      ∀ (other : Path) (otherValue : NovaValue), otherValue.WellFormed → other.segments ≠ [] →
        Incomparable path.segments other.segments →
        let once := setTwice path value other otherValue (document, ids)
        let twice := setTwice other otherValue path value (document, ids)
        (once.1 = .ok () ↔ twice.1 = .ok ()) ∧
          (once.1 = .ok () →
            UpToNewIds document path.segments other.segments once.2.1 twice.2.1) := by
  intro after
  refine ⟨?_, ?_, ?_, ?_⟩
  · rcases setPath_cases h hvalue hpath hids with ⟨hrejected, cause, hset⟩ | ⟨hfree, _, _, hset, -⟩
    · exact ⟨fun _ => hrejected, fun _ => ⟨cause, congrArg Prod.fst hset⟩⟩
    · refine ⟨?_, fun hr => absurd hr hfree⟩
      rintro ⟨cause, hcause⟩
      cases (congrArg Prod.fst hset).symm.trans hcause
  · rintro ⟨cause, hcause⟩
    rcases setPath_cases h hvalue hpath hids with ⟨-, _, hset⟩ | ⟨-, _, _, hset, -⟩
    · exact congrArg (fun s => s.2.1) hset
    · cases (congrArg Prod.fst hset).symm.trans hcause
  · intro hok
    rcases setPath_cases h hvalue hpath hids with
      ⟨-, cause, hset⟩ | ⟨-, changed, ids', hset, hwritten, -, -⟩
    · cases (congrArg Prod.fst hset).symm.trans hok
    · have hafter : after.2.1 = changed := congrArg (fun s => s.2.1) hset
      rw [hafter]
      refine ⟨hwritten.target, hwritten.id, ?_, ?_⟩
      · intro segments nested hfront hne hlookup
        have hnil : segments ≠ [] := by
          rintro rfl
          cases hlookup
        obtain ⟨found, hfound, hsame⟩ := hwritten.way segments hnil hfront hne
        exact ⟨found, hfound, hsame nested hlookup⟩
      · intro other hfront hextends
        rw [readPath, readPath, hwritten.id, hwritten.beside _ hfront hextends]
  · intro other otherValue hotherValue hother hpaths
    exact setTwice_comm h hvalue hotherValue hpath hother hids hpaths

/-- A person with a name moves. The address keeps its identifier and the name stays, a part of the
city cannot be set, and it does not matter whether the office is noted before or after. -/
theorem setPath_spec_person :
    let named := (person.insert "name" (.string "Asha")).2
    let ids : IdSource := fun _ => .ok (.filled 3)
    let city : Path := ⟨["address", "city"], ⟨0, 12⟩⟩
    let ward : Path := ⟨["address", "city", "ward"], ⟨0, 17⟩⟩
    let name : Path := ⟨["name"], ⟨0, 4⟩⟩
    let office : Path := ⟨["work", "office"], ⟨0, 11⟩⟩
    let after := setPath city (.string "Delhi") (named, ids)
    after.1 = .ok () ∧ Document.lookupParts after.2.1 city.segments = some (.string "Delhi") ∧
      after.2.1.id = named.id ∧
      (∃ changed, Document.lookupParts after.2.1 ["address"] = some (.document changed) ∧
        changed.id = .filled 2) ∧
      readPath after.2.1 name = readPath named name ∧
      (∃ cause, (setPath ward .null (named, ids)).1 = .error cause) ∧
      (setPath ward .null (named, ids)).2.1 = named ∧
      UpToNewIds named city.segments office.segments
        (setTwice city (.string "Delhi") office (.string "B2") (named, ids)).2.1
        (setTwice office (.string "B2") city (.string "Delhi") (named, ids)).2.1 := by
  intro named ids city ward name office after
  have hnamed : Document.WellFormed named :=
    Document.wellFormed_insert wellFormed_person "name" trivial
  have hids : Generates ids := fun _ => ⟨_, rfl⟩
  obtain ⟨-, -, hok, htwice⟩ := @setPath_spec named city (.string "Delhi") ids hnamed trivial
    (List.cons_ne_nil _ _) hids
  obtain ⟨htarget, hid, hway, hbeside⟩ := hok rfl
  obtain ⟨hfails, hkept, -, -⟩ := @setPath_spec named ward .null ids hnamed trivial
    (List.cons_ne_nil _ _) hids
  have hblocked : ∃ cause, (setPath ward .null (named, ids)).1 = .error cause :=
    hfails.mpr (.inr ⟨["address", "city"], .string "Pune", ⟨["ward"], rfl⟩, by decide, rfl, rfl⟩)
  refine ⟨rfl, htarget, hid, ?_, ?_, hblocked, hkept hblocked, ?_⟩
  · exact hway ["address"] _ ⟨["city"], rfl⟩ (by decide) rfl
  · exact hbeside name (by decide) (by decide)
  · exact (htwice office (.string "B2") trivial (List.cons_ne_nil _ _)
      ⟨by decide, by decide⟩).2 rfl

end Paths

end NovaBase.Executor
