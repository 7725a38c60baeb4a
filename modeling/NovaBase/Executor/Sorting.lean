import NovaBase.Executor.Order
import NovaBase.Executor.Pipeline

/-!
# Sorting

What a sort has to do is said without its algorithm: the documents are arranged
by the first key in which they differ, and those that differ in none stay as they
were. The validation of each key makes every comparison of the sort succeed, and
then the comparisons are those of one linear order.
-/

namespace NovaBase.Executor

open Lib NovaQl RuntimeValue

/-- The values of a sort key. -/
def column (documents : List Document) (key : SortKey) : List RuntimeValue :=
  documents.map (readPath · key.path)

/-- A value that has no order, or values of different kinds beside missing and null. -/
def Unsortable (values : List RuntimeValue) : Prop :=
  (∃ value ∈ values, ¬ value.Sortable) ∨
    ∃ value ∈ values, ∃ other ∈ values, value.isConcrete = true ∧ other.isConcrete = true ∧
      value.kind ≠ other.kind

section Arrangement

/-- The place of a document in the order of a sort key. -/
def place (key : SortKey) (document : Document) : OrderKey :=
  (readPath document key.path).orderKey

/-- One key comes before another in a direction. -/
def Precedes (direction : SortDirection) (a b : OrderKey) : Prop :=
  match direction with
  | .ascending => a < b
  | .descending => b < a

/-- The first key in which two documents differ puts one before the other. -/
def Before : List SortKey → Document → Document → Prop
  | [], _, _ => False
  | key :: keys, a, b =>
      Precedes key.direction (place key a) (place key b) ∨
        place key a = place key b ∧ Before keys a b

/-- A rearrangement of documents by sort keys that keeps the order of those the keys do not
tell apart. -/
def Arranged (keys : List SortKey) (documents sorted : List Document) : Prop :=
  ∃ order : List (Fin documents.length), order.Perm (List.finRange documents.length) ∧
    sorted = order.map documents.get ∧
    order.Pairwise fun i j => Before keys (documents.get i) (documents.get j) ∨
      ¬ Before keys (documents.get j) (documents.get i) ∧ i < j

end Arrangement

section Validation

/-- A sequence of checks succeeds when both of them do. -/
theorem then_eq_ok {ε : Type} {first next : Except ε Unit} :
    (first >>= fun _ => next) = .ok () ↔ first = .ok () ∧ next = .ok () := by
  rw [bind_eq_ok]
  constructor
  · rintro ⟨⟨⟩, hfirst, hnext⟩
    exact ⟨hfirst, hnext⟩
  · rintro ⟨hfirst, hnext⟩
    exact ⟨(), hfirst, hnext⟩

theorem forM_eq_ok {ε α : Type} {f : α → Except ε Unit} {items : List α} :
    items.forM f = .ok () ↔ ∀ item ∈ items, f item = .ok () := by
  induction items with
  | nil => exact ⟨fun _ => nofun, fun _ => rfl⟩
  | cons item rest ih =>
      have hcons : (item :: rest).forM f = (f item >>= fun _ => rest.forM f) := rfl
      rw [hcons, then_eq_ok, List.forall_mem_cons, ih]

/-- Validation accepts exactly the comparable pairs. -/
theorem compareForSort_ok {a b : RuntimeValue} :
    (do let _ ← a.compareForSort b : Result Unit) = .ok () ↔ Comparable a b := by
  by_cases h : Comparable a b
  · simp [compareForSort_of_comparable h, h]
  · obtain ⟨cause, hcause⟩ := compareForSort_of_not_comparable h
    simp [hcause, h]

theorem sortable_of_not_concrete {a : RuntimeValue} (h : a.isConcrete = false) : a.Sortable :=
  Nat.lt_of_le_of_lt (isConcrete_eq_false.mp h) (by decide)

theorem comparable_self {a : RuntimeValue} : Comparable a a ↔ a.Sortable := by
  constructor
  · rintro (h | h | ⟨-, h⟩)
    · exact sortable_of_not_concrete h
    · exact sortable_of_not_concrete h
    · exact h
  · intro h
    exact .inr (.inr ⟨rfl, h⟩)

/-- One concrete value is enough to compare all others with. -/
theorem validateSortValues_eq_ok {values : List RuntimeValue} :
    validateSortValues values = .ok () ↔ ∀ a ∈ values, ∀ b ∈ values, Comparable a b := by
  rw [validateSortValues, then_eq_ok, forM_eq_ok]
  simp only [compareForSort_ok, comparable_self]
  constructor
  · rintro ⟨hsortable, hreference⟩ a ha b hb
    by_cases hconcrete : a.isConcrete = true ∧ b.isConcrete = true
    · obtain ⟨hconcrete, hconcrete'⟩ := hconcrete
      cases hfind : values.find? isConcrete with
      | none => exact absurd hconcrete (List.find?_eq_none.mp hfind a ha)
      | some reference =>
          simp only [hfind, forM_eq_ok, compareForSort_ok, List.mem_filter] at hreference
          have hfound : reference.isConcrete = true := List.find?_some hfind
          have hsame {c : RuntimeValue} (hc : c ∈ values) (hcc : c.isConcrete = true) :
              reference.kind = c.kind := by
            rcases hreference c ⟨hc, hcc⟩ with h | h | h
            · simp [hfound] at h
            · simp [hcc] at h
            · exact h.1
          exact .inr (.inr ⟨(hsame ha hconcrete).symm.trans (hsame hb hconcrete'), hsortable a ha⟩)
    · rw [not_and_or, Bool.not_eq_true, Bool.not_eq_true] at hconcrete
      exact hconcrete.imp_right .inl
  · intro h
    refine ⟨fun a ha => comparable_self.mp (h a ha a ha), ?_⟩
    cases hfind : values.find? isConcrete with
    | none => rfl
    | some reference =>
        simp only [forM_eq_ok, compareForSort_ok, List.mem_filter]
        intro a ha
        exact h reference (List.mem_of_find?_eq_some hfind) a ha.1

/-- What makes a sort fail is a pair of values that cannot be compared. -/
theorem unsortable_iff {values : List RuntimeValue} :
    Unsortable values ↔ ¬ ∀ a ∈ values, ∀ b ∈ values, Comparable a b := by
  constructor
  · rintro (⟨a, ha, hsortable⟩ | ⟨a, ha, b, hb, hconcrete, hconcrete', hkind⟩) h
    · exact hsortable (comparable_self.mp (h a ha a ha))
    · rcases h a ha b hb with hnot | hnot | ⟨hsame, -⟩
      · simp [hnot] at hconcrete
      · simp [hnot] at hconcrete'
      · exact hkind hsame
  · intro h
    push Not at h
    obtain ⟨a, ha, b, hb, hnot⟩ := h
    simp only [Comparable, not_or, not_and, Bool.not_eq_false] at hnot
    obtain ⟨hconcrete, hconcrete', hkind⟩ := hnot
    by_cases hsame : a.kind = b.kind
    · exact .inl ⟨a, ha, hkind hsame⟩
    · exact .inr ⟨a, ha, b, hb, hconcrete, hconcrete', hsame⟩

end Validation

section Order

variable {keys : List SortKey} {a b c : Document}

/-- Of two keys one precedes the other, or they are equal. -/
theorem precedes_trichotomy (direction : SortDirection) (x y : OrderKey) :
    Precedes direction x y ∨ x = y ∨ Precedes direction y x := by
  cases direction with
  | ascending => exact lt_trichotomy x y
  | descending => exact (lt_trichotomy y x).imp_right (Or.imp_left Eq.symm)

theorem Precedes.asymm {direction : SortDirection} {x y : OrderKey} (h : Precedes direction x y) :
    ¬ Precedes direction y x := by
  cases direction with
  | ascending => exact lt_asymm h
  | descending => exact lt_asymm h

theorem Precedes.ne {direction : SortDirection} {x y : OrderKey} (h : Precedes direction x y) :
    x ≠ y := by
  rintro rfl
  exact h.asymm h

theorem Precedes.trans {direction : SortDirection} {x y z : OrderKey}
    (hxy : Precedes direction x y) (hyz : Precedes direction y z) : Precedes direction x z := by
  cases direction with
  | ascending => exact lt_trans hxy hyz
  | descending => exact lt_trans hyz hxy

/-- No two documents each come before the other. -/
theorem Before.asymm (h : Before keys a b) : ¬ Before keys b a := by
  induction keys with
  | nil => exact h.elim
  | cons key keys ih =>
      rintro (hba | ⟨heq, hrest⟩)
      · rcases h with hab | ⟨heq, -⟩
        · exact hab.asymm hba
        · exact hba.ne heq.symm
      · rcases h with hab | ⟨-, hrest'⟩
        · exact hab.ne heq.symm
        · exact ih hrest' hrest

/-- What does not come before what does not come before a third does not come before it. -/
theorem not_before_trans (hab : ¬ Before keys b a) (hbc : ¬ Before keys c b) :
    ¬ Before keys c a := by
  induction keys with
  | nil => exact id
  | cons key keys ih =>
      simp only [Before, not_or, not_and] at hab hbc ⊢
      obtain ⟨hab, habrest⟩ := hab
      obtain ⟨hbc, hbcrest⟩ := hbc
      have hle {x y : OrderKey} (h : ¬ Precedes key.direction y x) :
          Precedes key.direction x y ∨ x = y := by
        rcases precedes_trichotomy key.direction x y with hlt | heq | hgt
        · exact .inl hlt
        · exact .inr heq
        · exact absurd hgt h
      rcases hle hab with hab | hab <;> rcases hle hbc with hbc | hbc
      · exact ⟨(hab.trans hbc).asymm, fun heq => absurd heq.symm (hab.trans hbc).ne⟩
      · exact ⟨hbc ▸ hab.asymm, fun heq => absurd (hbc.trans heq).symm hab.ne⟩
      · exact ⟨hab ▸ hbc.asymm, fun heq => absurd (heq.trans hab).symm hbc.ne⟩
      · refine ⟨fun h => h.ne (hab.trans hbc).symm, fun _ => ?_⟩
        exact ih (habrest hab.symm) (hbcrest hbc.symm)

theorem apply_compare_of_precedes {direction : SortDirection} {x y : OrderKey}
    (h : Precedes direction x y) : SortDirection.apply direction (compare x y) = .lt := by
  cases direction with
  | ascending => exact compare_lt_iff_lt.mpr h
  | descending => exact congrArg Ordering.swap (compare_gt_iff_gt.mpr h)

theorem apply_compare_of_precedes_symm {direction : SortDirection} {x y : OrderKey}
    (h : Precedes direction y x) : SortDirection.apply direction (compare x y) = .gt := by
  cases direction with
  | ascending => exact compare_gt_iff_gt.mpr h
  | descending => exact congrArg Ordering.swap (compare_lt_iff_lt.mpr h)

theorem apply_compare_self (direction : SortDirection) (x : OrderKey) :
    SortDirection.apply direction (compare x x) = .eq := by
  cases direction <;> simp [SortDirection.apply]

/-- The comparator of the sort puts one document before another as the keys do. -/
theorem isLE_compareKeys
    (h : ∀ key ∈ keys, Comparable (readPath a key.path) (readPath b key.path)) :
    (compareKeys keys (keys.map (readPath a ·.path)) (keys.map (readPath b ·.path))).isLE = true ↔
      ¬ Before keys b a := by
  induction keys with
  | nil => exact ⟨fun _ => id, fun _ => rfl⟩
  | cons key keys ih =>
      rw [List.forall_mem_cons] at h
      have hrest := ih h.2
      have hplaces : compareKeys (key :: keys) ((key :: keys).map (readPath a ·.path))
          ((key :: keys).map (readPath b ·.path)) =
          (SortDirection.apply key.direction (compare (place key a) (place key b))).then
            (compareKeys keys (keys.map (readPath a ·.path)) (keys.map (readPath b ·.path))) := by
        simp only [List.map_cons, compareKeys, compareForSort_of_comparable h.1, Except.toOption,
          Option.getD_some, place]
      rw [hplaces, Before, not_or, not_and]
      rcases precedes_trichotomy key.direction (place key a) (place key b) with hlt | heq | hgt
      · rw [apply_compare_of_precedes hlt]
        exact ⟨fun _ => ⟨hlt.asymm, fun heq => absurd heq.symm hlt.ne⟩, fun _ => rfl⟩
      · rw [heq, apply_compare_self, Ordering.eq_then, hrest]
        exact ⟨fun hnot => ⟨fun hpre => hpre.ne rfl, fun _ => hnot⟩, fun hboth => hboth.2 rfl⟩
      · rw [apply_compare_of_precedes_symm hgt]
        exact ⟨fun hle => Bool.noConfusion hle, fun hboth => absurd hgt hboth.1⟩

end Order

section Sorting

variable {documents sorted : List Document} {keys : List SortKey}

/-- The order of indices that a stable sort by the keys is to find. -/
theorem stablySorted_iff {le : Fin documents.length → Fin documents.length → Bool}
    (hle : ∀ i j, le i j = true ↔ ¬ Before keys (documents.get j) (documents.get i))
    {order : List (Fin documents.length)} :
    StablySorted le order ↔ order.Pairwise fun i j =>
      Before keys (documents.get i) (documents.get j) ∨
        ¬ Before keys (documents.get j) (documents.get i) ∧ i < j := by
  have hrelation (i j : Fin documents.length) : (le i j = true ∧ (le j i = true → i < j)) ↔
      (Before keys (documents.get i) (documents.get j) ∨
        ¬ Before keys (documents.get j) (documents.get i) ∧ i < j) := by
    rw [hle i j, hle j i]
    constructor
    · rintro ⟨hnot, hlt⟩
      by_cases hbefore : Before keys (documents.get i) (documents.get j)
      · exact .inl hbefore
      · exact .inr ⟨hnot, hlt hbefore⟩
    · rintro (hbefore | ⟨hnot, hlt⟩)
      · exact ⟨hbefore.asymm, fun hnot => absurd hbefore hnot⟩
      · exact ⟨hnot, fun _ => hlt⟩
  simp only [StablySorted, hrelation]

/-- There is one arrangement of documents by sort keys. -/
theorem Arranged.unique {other : List Document} (h : Arranged keys documents sorted)
    (hother : Arranged keys documents other) : sorted = other := by
  classical
  obtain ⟨order, hperm, rfl, hsorted⟩ := h
  obtain ⟨order', hperm', rfl, hsorted'⟩ := hother
  let le (i j : Fin documents.length) : Bool :=
    decide (¬ Before keys (documents.get j) (documents.get i))
  have hle (i j : Fin documents.length) :
      le i j = true ↔ ¬ Before keys (documents.get j) (documents.get i) := decide_eq_true_iff
  have horder : order = order' := ((stablySorted_iff hle).mpr hsorted).unique
    ((stablySorted_iff hle).mpr hsorted') (hperm.trans hperm'.symm)
  rw [horder]

/-- Sorting is refused when a column cannot be sorted. -/
theorem validate_eq_ok :
    (keys.forM fun key => validateSortValues (documents.map (readPath · key.path))) = .ok () ↔
      ¬ ∃ key ∈ keys, Unsortable (column documents key) := by
  simp only [forM_eq_ok, validateSortValues_eq_ok, unsortable_iff, column, not_exists, not_and,
    not_not]

theorem length_sortOrder (documents : List Document) (keys : List SortKey) :
    (sortOrder documents keys).length = documents.length := by
  simp [sortOrder]

/-- Once the values of every key can be compared, the sort finds the arrangement. -/
theorem arranged_sortOrder
    (hpairs : ∀ a ∈ documents, ∀ b ∈ documents, ∀ key ∈ keys,
      Comparable (readPath a key.path) (readPath b key.path)) :
    Arranged keys documents ((sortOrder documents keys).map documents.get) := by
  let row (index : Fin documents.length) := keys.map (readPath (documents.get index) ·.path)
  let le (left right : Fin documents.length) : Bool :=
    (compareKeys keys (row left) (row right)).isLE
  have hle (i j : Fin documents.length) :
      le i j = true ↔ ¬ Before keys (documents.get j) (documents.get i) :=
    isLE_compareKeys (hpairs _ (List.getElem_mem _) _ (List.getElem_mem _))
  refine ⟨sortOrder documents keys, List.mergeSort_perm _ _, rfl, (stablySorted_iff hle).mp ?_⟩
  refine stablySorted_mergeSort ?_ ?_
  · intro i j k hij hjk
    exact (hle i k).mpr (not_before_trans ((hle i j).mp hij) ((hle j k).mp hjk))
  · intro i j
    rw [Bool.or_eq_true, hle, hle, ← not_and_or]
    rintro ⟨hji, hij⟩
    exact hij.asymm hji

/-- A sort fails, and leaves the list as it is, where the values of some key cannot be compared.
Otherwise it arranges the list in the only way, and every comparison that it makes succeeds. -/
theorem sortDocuments_spec (documents : List Document) (keys : List SortKey) :
    ((∃ cause, (sortDocuments keys documents).1 = .error cause) ↔
        ∃ key ∈ keys, Unsortable (column documents key)) ∧
      (∀ cause, (sortDocuments keys documents).1 = .error cause →
        (sortDocuments keys documents).2 = documents) ∧
      ((sortDocuments keys documents).1 = .ok () →
        Arranged keys documents (sortDocuments keys documents).2 ∧
        (∀ other, Arranged keys documents other → other = (sortDocuments keys documents).2) ∧
        ∀ key ∈ keys, ∀ a ∈ documents, ∀ b ∈ documents,
          ∃ ordering, (readPath a key.path).compareForSort (readPath b key.path) =
            .ok ordering) := by
  have hvalidate : (keys.forM fun key =>
      validateSortValues (documents.map (readPath · key.path))) = .ok () ↔
        ¬ ∃ key ∈ keys, Unsortable (column documents key) := validate_eq_ok
  cases hresult : keys.forM fun key => validateSortValues (documents.map (readPath · key.path)) with
  | error cause =>
      have hsort : sortDocuments keys documents = (.error cause, documents) := by
        rw [sortDocuments, hresult]
      rw [hresult] at hvalidate
      simp only [reduceCtorEq, false_iff, not_not] at hvalidate
      rw [hsort]
      exact ⟨⟨fun _ => hvalidate, fun _ => ⟨cause, rfl⟩⟩, fun _ _ => rfl, nofun⟩
  | ok done =>
      have hsort : sortDocuments keys documents =
          (.ok (), (sortOrder documents keys).map documents.get) := by
        rw [sortDocuments, hresult]
        exact congrArg (Prod.mk _) (writeFrom_zero _ (length_sortOrder documents keys).symm)
      have hcolumns := hvalidate.mp hresult
      have hpairs : ∀ a ∈ documents, ∀ b ∈ documents, ∀ key ∈ keys,
          Comparable (readPath a key.path) (readPath b key.path) := by
        intro a ha b hb key hkey
        have hcolumn : ¬ Unsortable (column documents key) := fun h => hcolumns ⟨key, hkey, h⟩
        rw [unsortable_iff, not_not] at hcolumn
        exact hcolumn _ (List.mem_map_of_mem ha) _ (List.mem_map_of_mem hb)
      have harranged := arranged_sortOrder hpairs
      rw [hsort]
      refine ⟨⟨nofun, fun h => absurd h hcolumns⟩, nofun, fun _ => ⟨harranged, ?_, ?_⟩⟩
      · intro other hother
        exact hother.unique harranged
      · intro key hkey a ha b hb
        exact ⟨_, compareForSort_of_comparable (hpairs a ha b hb key hkey)⟩

end Sorting

end NovaBase.Executor
