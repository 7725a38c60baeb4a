import Mathlib.Order.WithBot
import NovaBase.Index.BPlusTree

/-!
# The leaf level

Read from left to right, the leaves of a tree cut the keys into intervals: each
leaf holds the keys from its lower bound up to the bound of the next leaf. An
insertion or removal changes one leaf and perhaps adds one; everything that
lookups and range scans say is decided on this level.
-/

namespace NovaBase.Index

open Lib

/-- The pairs of a list of entries, in order. -/
def pairs (entries : List LeafEntry) : List (IndexKey × NovaId) :=
  entries.flatMap fun entry => entry.2.map fun id => (entry.1, id)

/-- The order of pairs: by key, then by id. -/
def PairLt (a b : IndexKey × NovaId) : Prop := a.1 < b.1 ∨ a.1 = b.1 ∧ a.2 < b.2

/-- Keys and ids are strictly increasing, and no key is without ids. -/
structure Sorted (entries : List LeafEntry) : Prop where
  keys : (entries.map Prod.fst).Pairwise (· < ·)
  ids : ∀ e ∈ entries, e.2 ≠ [] ∧ e.2.Pairwise (· < ·)

theorem mem_pairs {entries : List LeafEntry} {key : IndexKey} {id : NovaId} :
    (key, id) ∈ pairs entries ↔ ∃ e ∈ entries, e.1 = key ∧ id ∈ e.2 := by
  simp only [pairs, List.mem_flatMap, List.mem_map, Prod.mk.injEq]
  constructor
  · rintro ⟨e, he, i, hi, hkey, hid⟩
    exact ⟨e, he, hkey, hid ▸ hi⟩
  · rintro ⟨e, he, hkey, hid⟩
    exact ⟨e, he, id, hid, hkey, rfl⟩

theorem pairs_append (a b : List LeafEntry) : pairs (a ++ b) = pairs a ++ pairs b :=
  List.flatMap_append

theorem pairs_sorted {entries : List LeafEntry} (h : Sorted entries) :
    (pairs entries).Pairwise PairLt := by
  refine List.pairwise_flatMap.mpr ⟨fun e he => ?_, ?_⟩
  · refine List.pairwise_map.mpr ((h.ids e he).2.imp fun hlt => .inr ⟨rfl, hlt⟩)
  · refine (List.pairwise_map.mp h.keys).imp fun {a b} hlt x hx y hy => .inl ?_
    obtain ⟨i, -, rfl⟩ := List.mem_map.mp hx
    obtain ⟨j, -, rfl⟩ := List.mem_map.mp hy
    exact hlt

section Entries

variable {entries before after : List LeafEntry} {key : IndexKey} {ids : List NovaId}

theorem Sorted.of_append (h : Sorted (before ++ after)) : Sorted before ∧ Sorted after := by
  have hkeys := h.keys
  rw [List.map_append, List.pairwise_append] at hkeys
  exact ⟨⟨hkeys.1, fun e he => h.ids e (List.mem_append_left _ he)⟩,
    ⟨hkeys.2.1, fun e he => h.ids e (List.mem_append_right _ he)⟩⟩

theorem Sorted.append (hbefore : Sorted before) (hafter : Sorted after)
    (h : ∀ a ∈ before, ∀ b ∈ after, a.1 < b.1) : Sorted (before ++ after) := by
  refine ⟨?_, fun e he => ?_⟩
  · rw [List.map_append, List.pairwise_append]
    refine ⟨hbefore.keys, hafter.keys, fun x hx y hy => ?_⟩
    obtain ⟨a, ha, rfl⟩ := List.mem_map.mp hx
    obtain ⟨b, hb, rfl⟩ := List.mem_map.mp hy
    exact h a ha b hb
  · exact (List.mem_append.mp he).elim (hbefore.ids e) (hafter.ids e)

/-- The entries on both sides of one. -/
theorem Sorted.around (h : Sorted (before ++ (key, ids) :: after)) :
    Sorted before ∧ Sorted after := by
  obtain ⟨hbefore, hrest⟩ := h.of_append
  have hrest : Sorted ([(key, ids)] ++ after) := hrest
  exact ⟨hbefore, hrest.of_append.2⟩

theorem sorted_singleton (key : IndexKey) (hne : ids ≠ []) (hids : ids.Pairwise (· < ·)) :
    Sorted [(key, ids)] :=
  ⟨List.pairwise_singleton _ _, fun e he => by rw [List.mem_singleton.mp he]; exact ⟨hne, hids⟩⟩

/-- One entry between those with smaller and those with larger keys. -/
theorem Sorted.middle (hbefore : Sorted before) (hafter : Sorted after)
    (hlow : ∀ e ∈ before, e.1 < key) (hhigh : ∀ e ∈ after, key < e.1) (hne : ids ≠ [])
    (hids : ids.Pairwise (· < ·)) : Sorted (before ++ (key, ids) :: after) := by
  have hrest : Sorted ([(key, ids)] ++ after) := by
    refine (sorted_singleton key hne hids).append hafter fun a ha b hb => ?_
    rw [List.mem_singleton.mp ha]
    exact hhigh b hb
  refine hbefore.append hrest fun a ha b hb => ?_
  rcases List.mem_cons.mp hb with rfl | hmem
  · exact hlow a ha
  · exact (hlow a ha).trans (hhigh b hmem)

/-- Searching sorted entries for a key cuts them at it. -/
theorem searchEntries_cases (h : Sorted entries) (key : IndexKey) :
    ∃ before after, (∀ e ∈ before, e.1 < key) ∧ (∀ e ∈ after, key < e.1) ∧
      ((∃ ids, entries = before ++ (key, ids) :: after ∧
          binarySearch (entries.map Prod.fst) key = .ok before.length) ∨
        (entries = before ++ after ∧
          binarySearch (entries.map Prod.fst) key = .error before.length)) := by
  obtain ⟨lows, highs, hlow, hhigh, hcases⟩ := binarySearch_cases h.keys key
  rcases hcases with ⟨hkeys, hsearch⟩ | ⟨hkeys, hsearch⟩
  · obtain ⟨before, tail, rfl, rfl, htail⟩ := List.map_eq_append_iff.mp hkeys
    obtain ⟨⟨k, ids⟩, after, rfl, hk, rfl⟩ := List.map_eq_cons_iff.mp htail
    subst hk
    refine ⟨before, after, fun e he => hlow _ (List.mem_map_of_mem he),
      fun e he => hhigh _ (List.mem_map_of_mem he), .inl ⟨ids, rfl, ?_⟩⟩
    rw [hsearch, List.length_map]
  · obtain ⟨before, after, rfl, rfl, rfl⟩ := List.map_eq_append_iff.mp hkeys
    refine ⟨before, after, fun e he => hlow _ (List.mem_map_of_mem he),
      fun e he => hhigh _ (List.mem_map_of_mem he), .inr ⟨rfl, ?_⟩⟩
    rw [hsearch, List.length_map]

/-- The ids under a key are those of its entry. -/
theorem mem_pairs_middle (hbefore : ∀ e ∈ before, e.1 < key) (hafter : ∀ e ∈ after, key < e.1)
    {id : NovaId} : (key, id) ∈ pairs (before ++ (key, ids) :: after) ↔ id ∈ ids := by
  rw [mem_pairs]
  constructor
  · rintro ⟨e, he, hkey, hid⟩
    rcases List.mem_append.mp he with hmem | hmem
    · exact absurd hkey (hbefore e hmem).ne
    · rcases List.mem_cons.mp hmem with rfl | hmem
      · exact hid
      · exact absurd hkey (hafter e hmem).ne'
  · intro hid
    exact ⟨(key, ids), by simp, rfl, hid⟩

theorem not_mem_pairs (hbefore : ∀ e ∈ before, e.1 < key) (hafter : ∀ e ∈ after, key < e.1)
    (id : NovaId) : (key, id) ∉ pairs (before ++ after) := by
  rw [mem_pairs]
  rintro ⟨e, he, hkey, -⟩
  rcases List.mem_append.mp he with hmem | hmem
  · exact absurd hkey (hbefore e hmem).ne
  · exact absurd hkey (hafter e hmem).ne'

end Entries

theorem mem_pairs_around {before after : List LeafEntry} {key : IndexKey} {ids : List NovaId}
    (p : IndexKey × NovaId) :
    p ∈ pairs (before ++ (key, ids) :: after) ↔
      p ∈ pairs before ∨ (p.1 = key ∧ p.2 ∈ ids) ∨ p ∈ pairs after := by
  have hmiddle : p ∈ pairs [(key, ids)] ↔ p.1 = key ∧ p.2 ∈ ids := by
    obtain ⟨k, i⟩ := p
    rw [mem_pairs]
    simp [eq_comm]
  have hcons : pairs ((key, ids) :: after) = pairs [(key, ids)] ++ pairs after :=
    pairs_append [(key, ids)] after
  rw [pairs_append, hcons, List.mem_append, List.mem_append, hmiddle]

theorem pairs_skip (before after : List LeafEntry) (key : IndexKey) :
    pairs (before ++ (key, []) :: after) = pairs (before ++ after) := by
  simp [pairs]

theorem key_of_mem_pairs {entries : List LeafEntry} {p : IndexKey × NovaId}
    (h : p ∈ pairs entries) : ∃ e ∈ entries, e.1 = p.1 := by
  obtain ⟨e, he, hkey, -⟩ := mem_pairs.mp h
  exact ⟨e, he, hkey⟩

/-- A pair in a leaf where one entry has been replaced. -/
theorem mem_pairs_replaced {before after : List LeafEntry} {key : IndexKey} {ids ids' : List NovaId}
    {id : NovaId} (hids : ∀ i, i ∈ ids' ↔ i = id ∨ i ∈ ids) (p : IndexKey × NovaId) :
    p ∈ pairs (before ++ (key, ids') :: after) ↔
      p = (key, id) ∨ p ∈ pairs (before ++ (key, ids) :: after) := by
  rw [mem_pairs_around, mem_pairs_around, hids, Prod.ext_iff]
  grind

/-- What an inserted pair makes of the entries of a leaf. -/
structure Inserted (key : IndexKey) (id : NovaId) (entries entries' : List LeafEntry) : Prop where
  sorted : Sorted entries'
  length_le : entries'.length ≤ entries.length + 1
  keys : ∀ e ∈ entries', e.1 = key ∨ ∃ d ∈ entries, d.1 = e.1
  pairs : ∀ p, p ∈ pairs entries' ↔ p = (key, id) ∨ p ∈ pairs entries

/-- Inserting a pair that a leaf has already changes nothing. -/
theorem insertEntry_spec {entries : List LeafEntry} (h : Sorted entries) (key : IndexKey)
    (id : NovaId) :
    (insertEntry entries key id = .ok none ∧ (key, id) ∈ pairs entries) ∨
      ∃ entries', insertEntry entries key id = .ok (some entries') ∧
        Inserted key id entries entries' := by
  obtain ⟨before, after, hbefore, hafter, ⟨ids, rfl, hsearch⟩ | ⟨rfl, hsearch⟩⟩ :=
    searchEntries_cases h key
  · have hentry : (before ++ (key, ids) :: after)[before.length]? = some (key, ids) := by simp
    obtain ⟨hne, hids⟩ := h.ids (key, ids) (by simp)
    obtain ⟨lows, highs, hlow, hhigh, hcases⟩ := binarySearch_cases hids id
    rcases hcases with ⟨rfl, hidSearch⟩ | ⟨rfl, hidSearch⟩
    · refine .inl ⟨?_, (mem_pairs_middle hbefore hafter).mpr (by simp)⟩
      simp only [insertEntry, hsearch, indexed_of hentry, ok_bind, hidSearch, pure_eq_ok]
    · refine .inr ⟨before ++ (key, lows ++ id :: highs) :: after, ?_, ?_⟩
      · simp only [insertEntry, hsearch, indexed_of hentry, ok_bind, hidSearch, pure_eq_ok,
          insertIdx_append, set_append]
      · obtain ⟨hsortedBefore, hsortedAfter⟩ := h.around
        have hincreasing : (lows ++ id :: highs).Pairwise (· < ·) := by
          rw [List.pairwise_append] at hids ⊢
          refine ⟨hids.1, List.pairwise_cons.mpr ⟨hhigh, hids.2.1⟩, fun a ha b hb => ?_⟩
          rcases List.mem_cons.mp hb with rfl | hb
          · exact hlow a ha
          · exact hids.2.2 a ha b hb
        refine ⟨hsortedBefore.middle hsortedAfter hbefore hafter (by simp) hincreasing, by simp,
          fun e he => .inr ?_, mem_pairs_replaced fun i => ?_⟩
        · rcases List.mem_append.mp he with hmem | hmem
          · exact ⟨e, by simp [hmem], rfl⟩
          · rcases List.mem_cons.mp hmem with rfl | hmem
            · exact ⟨(key, lows ++ highs), by simp, rfl⟩
            · exact ⟨e, by simp [hmem], rfl⟩
        · simp only [List.mem_append, List.mem_cons]
          grind
  · refine .inr ⟨before ++ (key, [id]) :: after, ?_, ?_⟩
    · simp only [insertEntry, hsearch, insertIdx_append, pure_eq_ok]
    · obtain ⟨hsortedBefore, hsortedAfter⟩ := h.of_append
      refine ⟨hsortedBefore.middle hsortedAfter hbefore hafter (by simp) (by simp),
        by simp [Nat.add_assoc], fun e he => ?_, fun p => ?_⟩
      · rcases List.mem_append.mp he with hmem | hmem
        · exact .inr ⟨e, by simp [hmem], rfl⟩
        · rcases List.mem_cons.mp hmem with rfl | hmem
          · exact .inl rfl
          · exact .inr ⟨e, by simp [hmem], rfl⟩
      · rw [← pairs_skip before after key]
        exact mem_pairs_replaced (by simp) p

/-- What a lookup in a leaf gives. -/
theorem lookupEntry_spec {entries : List LeafEntry} (h : Sorted entries) (key : IndexKey) :
    ∃ ids, lookupEntry entries key = .ok ids ∧ ids.Pairwise (· < ·) ∧
      ∀ id, id ∈ ids ↔ (key, id) ∈ pairs entries := by
  obtain ⟨before, after, hbefore, hafter, ⟨ids, rfl, hsearch⟩ | ⟨rfl, hsearch⟩⟩ :=
    searchEntries_cases h key
  · have hentry : (before ++ (key, ids) :: after)[before.length]? = some (key, ids) := by simp
    refine ⟨ids, ?_, (h.ids (key, ids) (by simp)).2, fun id => ?_⟩
    · simp only [lookupEntry, hsearch, indexed_of hentry, ok_bind, pure_eq_ok]
    · exact (mem_pairs_middle hbefore hafter).symm
  · refine ⟨[], ?_, List.Pairwise.nil, fun id => ?_⟩
    · simp only [lookupEntry, hsearch, pure_eq_ok]
    · simpa using not_mem_pairs hbefore hafter id

/-- What a removed pair leaves of the entries of a leaf. -/
structure Removed (key : IndexKey) (id : NovaId) (entries entries' : List LeafEntry) : Prop where
  sorted : Sorted entries'
  length_le : entries'.length ≤ entries.length
  keys : ∀ e ∈ entries', ∃ d ∈ entries, d.1 = e.1
  present : (key, id) ∈ pairs entries
  pairs : ∀ p, p ∈ pairs entries' ↔ p ≠ (key, id) ∧ p ∈ pairs entries

/-- A pair in a leaf where one id of an entry has been left out. -/
theorem mem_pairs_without {before after : List LeafEntry} {key : IndexKey}
    (hbefore : ∀ e ∈ before, e.1 < key) (hafter : ∀ e ∈ after, key < e.1) {lows highs : List NovaId}
    {id : NovaId} (hlow : ∀ i ∈ lows, i < id) (hhigh : ∀ i ∈ highs, id < i)
    (p : IndexKey × NovaId) :
    p ∈ pairs (before ++ (key, lows ++ highs) :: after) ↔
      p ≠ (key, id) ∧ p ∈ pairs (before ++ (key, lows ++ id :: highs) :: after) := by
  have houtside : p = (key, id) → p ∉ pairs before ∧ p ∉ pairs after ∧ p.2 ∉ lows ++ highs := by
    rintro rfl
    refine ⟨fun hmem => ?_, fun hmem => ?_, fun hmem => ?_⟩
    · obtain ⟨e, he, hkey⟩ := key_of_mem_pairs hmem
      exact (hbefore e he).ne hkey
    · obtain ⟨e, he, hkey⟩ := key_of_mem_pairs hmem
      exact (hafter e he).ne' hkey
    · rcases List.mem_append.mp hmem with hmem | hmem
      · exact lt_irrefl _ (hlow id hmem)
      · exact lt_irrefl _ (hhigh id hmem)
  have hids : p.2 ∈ lows ++ id :: highs ↔ p.2 = id ∨ p.2 ∈ lows ++ highs := by
    simp only [List.mem_append, List.mem_cons]
    grind
  rw [mem_pairs_around, mem_pairs_around, hids]
  rw [Prod.ext_iff] at houtside
  rw [ne_eq, Prod.ext_iff]
  grind

theorem removeEntry_spec {entries : List LeafEntry} (h : Sorted entries) (key : IndexKey)
    (id : NovaId) :
    (removeEntry entries key id = .ok none ∧ (key, id) ∉ pairs entries) ∨
      ∃ entries', removeEntry entries key id = .ok (some entries') ∧
        Removed key id entries entries' := by
  obtain ⟨before, after, hbefore, hafter, ⟨ids, rfl, hsearch⟩ | ⟨rfl, hsearch⟩⟩ :=
    searchEntries_cases h key
  · have hentry : (before ++ (key, ids) :: after)[before.length]? = some (key, ids) := by simp
    have hids := (h.ids (key, ids) (by simp)).2
    obtain ⟨lows, highs, hlow, hhigh, ⟨rfl, hidSearch⟩ | ⟨rfl, hidSearch⟩⟩ :=
      binarySearch_cases hids id
    · obtain ⟨hsortedBefore, hsortedAfter⟩ := h.around
      have herase := eraseIdx_append lows highs id
      have hincreasing : (lows ++ highs).Pairwise (· < ·) := by
        rw [← herase]
        exact hids.sublist (List.eraseIdx_sublist _ _)
      have hpresent : (key, id) ∈ pairs (before ++ (key, lows ++ id :: highs) :: after) :=
        (mem_pairs_middle hbefore hafter).mpr (by simp)
      have hmem (p : IndexKey × NovaId) : p ∈ pairs (before ++ (key, lows ++ highs) :: after) ↔
          p ≠ (key, id) ∧ p ∈ pairs (before ++ (key, lows ++ id :: highs) :: after) :=
        mem_pairs_without hbefore hafter hlow hhigh p
      by_cases hempty : lows ++ highs = []
      · refine .inr ⟨before ++ after, ?_, ?_⟩
        · simp only [removeEntry, hsearch, indexed_of hentry, ok_bind, hidSearch, herase,
            if_pos hempty, pure_eq_ok, eraseIdx_append]
        · refine ⟨hsortedBefore.append hsortedAfter fun a ha b hb =>
            (hbefore a ha).trans (hafter b hb), by simp, fun e he => ⟨e, ?_, rfl⟩, hpresent,
            fun p => ?_⟩
          · rcases List.mem_append.mp he with hmem | hmem <;> simp [hmem]
          · rw [← hmem, hempty, pairs_skip]
      · refine .inr ⟨before ++ (key, lows ++ highs) :: after, ?_, ?_⟩
        · simp only [removeEntry, hsearch, indexed_of hentry, ok_bind, hidSearch, herase,
            if_neg hempty, pure_eq_ok, set_append]
        · refine ⟨hsortedBefore.middle hsortedAfter hbefore hafter hempty hincreasing, by simp,
            fun e he => ?_, hpresent, hmem⟩
          rcases List.mem_append.mp he with hmem | hmem
          · exact ⟨e, by simp [hmem], rfl⟩
          · rcases List.mem_cons.mp hmem with rfl | hmem
            · exact ⟨(key, lows ++ id :: highs), by simp, rfl⟩
            · exact ⟨e, by simp [hmem], rfl⟩
    · refine .inl ⟨?_, fun hmem => ?_⟩
      · simp only [removeEntry, hsearch, indexed_of hentry, ok_bind, hidSearch, pure_eq_ok]
      · rcases List.mem_append.mp ((mem_pairs_middle hbefore hafter).mp hmem) with hmem | hmem
        · exact lt_irrefl _ (hlow id hmem)
        · exact lt_irrefl _ (hhigh id hmem)
  · refine .inl ⟨?_, not_mem_pairs hbefore hafter id⟩
    simp only [removeEntry, hsearch, pure_eq_ok]

/-- One leaf, with the bound below its keys and its place in the vector of nodes. -/
structure Cell where
  lower : WithBot IndexKey
  id : Nat
  entries : List LeafEntry
  next : Option Nat

/-- The entries of a row of leaves. -/
def entriesOf (cells : List Cell) : List LeafEntry := cells.flatMap Cell.entries

/-- A row of leaves whose intervals follow one another. -/
structure Ordered (maxKeys : Nat) (cells : List Cell) : Prop where
  separated : cells.Pairwise fun c d =>
    c.lower < d.lower ∧ ∀ e ∈ c.entries, (e.1 : WithBot IndexKey) < d.lower
  above : ∀ c ∈ cells, ∀ e ∈ c.entries, c.lower ≤ (e.1 : WithBot IndexKey)
  sorted : ∀ c ∈ cells, Sorted c.entries
  capacity : ∀ c ∈ cells, c.entries.length ≤ maxKeys

/-- Each leaf names the next one, and the last leaf names `last`. -/
def LinkedTo (last : Option Nat) : List Cell → Prop
  | [] => True
  | c :: rest => c.next = (rest.head?.map Cell.id).or last ∧ LinkedTo last rest

theorem linkedTo_append {last : Option Nat} {a b : List Cell} :
    LinkedTo last (a ++ b) ↔ LinkedTo ((b.head?.map Cell.id).or last) a ∧ LinkedTo last b := by
  induction a with
  | nil => simp [LinkedTo]
  | cons c rest ih =>
      rw [List.cons_append, LinkedTo, LinkedTo, ih, and_assoc]
      cases rest <;> simp

/-- Every link leads to a leaf of the row. -/
theorem LinkedTo.next_mem {cells : List Cell} (h : LinkedTo none cells) {c : Cell} (hc : c ∈ cells)
    {i : Nat} (hi : c.next = some i) : ∃ d ∈ cells, d.id = i := by
  induction cells with
  | nil => simp at hc
  | cons first rest ih =>
      obtain ⟨hnext, hrest⟩ := h
      rcases List.mem_cons.mp hc with rfl | hmem
      · rw [hi] at hnext
        cases rest with
        | nil => simp at hnext
        | cons d rest => exact ⟨d, by simp, by simpa using hnext.symm⟩
      · obtain ⟨d, hd, hid⟩ := ih hrest hmem
        exact ⟨d, List.mem_cons_of_mem _ hd, hid⟩

/-- The leaves around the one whose interval has the key. -/
structure Routed (key : IndexKey) (cells before : List Cell) (c : Cell) (after : List Cell) :
    Prop where
  split : cells = before ++ c :: after
  lower : c.lower ≤ (key : WithBot IndexKey)
  upper : ∀ d ∈ after, (key : WithBot IndexKey) < d.lower

section Row

variable {maxKeys : Nat} {key : IndexKey} {id : NovaId} {cells before after : List Cell} {c : Cell}

theorem Ordered.entries_sorted (h : Ordered maxKeys cells) : Sorted (entriesOf cells) := by
  induction cells with
  | nil => exact ⟨List.Pairwise.nil, by simp [entriesOf]⟩
  | cons c rest ih =>
      obtain ⟨hfirst, hrest⟩ := List.pairwise_cons.mp h.separated
      have hsorted : Sorted (entriesOf rest) := ih ⟨hrest,
        fun d hd => h.above d (List.mem_cons_of_mem _ hd),
        fun d hd => h.sorted d (List.mem_cons_of_mem _ hd),
        fun d hd => h.capacity d (List.mem_cons_of_mem _ hd)⟩
      refine (h.sorted c List.mem_cons_self).append hsorted fun a ha b hb => ?_
      obtain ⟨d, hd, hb⟩ := List.mem_flatMap.mp hb
      have hlt := (hfirst d hd).2 a ha
      have hle := h.above d (List.mem_cons_of_mem _ hd) b hb
      exact WithBot.coe_lt_coe.mp (lt_of_lt_of_le hlt hle)

/-- Leaves left of the one a key belongs to hold smaller keys. -/
theorem Routed.below (hrouted : Routed key cells before c after) (h : Ordered maxKeys cells) :
    ∀ e ∈ entriesOf before, e.1 < key := by
  intro e he
  obtain ⟨d, hd, he⟩ := List.mem_flatMap.mp he
  have hseparated := h.separated
  rw [hrouted.split, List.pairwise_append] at hseparated
  have hlt := (hseparated.2.2 d hd c List.mem_cons_self).2 e he
  exact WithBot.coe_lt_coe.mp (lt_of_lt_of_le hlt hrouted.lower)

/-- Leaves right of the one a key belongs to hold larger keys. -/
theorem Routed.beyond (hrouted : Routed key cells before c after) (h : Ordered maxKeys cells) :
    ∀ e ∈ entriesOf after, key < e.1 := by
  intro e he
  obtain ⟨d, hd, he⟩ := List.mem_flatMap.mp he
  have hmem : d ∈ cells := by
    rw [hrouted.split]
    simp [hd]
  exact WithBot.coe_lt_coe.mp (lt_of_lt_of_le (hrouted.upper d hd) (h.above d hmem e he))

theorem Routed.entries (hrouted : Routed key cells before c after) :
    entriesOf cells = entriesOf before ++ (c.entries ++ entriesOf after) := by
  rw [hrouted.split, entriesOf, List.flatMap_append, List.flatMap_cons]
  rfl

theorem Ordered.of_append {a b : List Cell} (h : Ordered maxKeys (a ++ b)) :
    Ordered maxKeys a ∧ Ordered maxKeys b := by
  have hseparated := List.pairwise_append.mp h.separated
  exact ⟨⟨hseparated.1, fun d hd => h.above d (List.mem_append_left _ hd),
      fun d hd => h.sorted d (List.mem_append_left _ hd),
      fun d hd => h.capacity d (List.mem_append_left _ hd)⟩,
    ⟨hseparated.2.1, fun d hd => h.above d (List.mem_append_right _ hd),
      fun d hd => h.sorted d (List.mem_append_right _ hd),
      fun d hd => h.capacity d (List.mem_append_right _ hd)⟩⟩

theorem Ordered.append {a b : List Cell} (ha : Ordered maxKeys a) (hb : Ordered maxKeys b)
    (h : ∀ c ∈ a, ∀ d ∈ b,
      c.lower < d.lower ∧ ∀ e ∈ c.entries, (e.1 : WithBot IndexKey) < d.lower) :
    Ordered maxKeys (a ++ b) where
  separated := List.pairwise_append.mpr ⟨ha.separated, hb.separated, h⟩
  above := fun d hd => (List.mem_append.mp hd).elim (ha.above d) (hb.above d)
  sorted := fun d hd => (List.mem_append.mp hd).elim (ha.sorted d) (hb.sorted d)
  capacity := fun d hd => (List.mem_append.mp hd).elim (ha.capacity d) (hb.capacity d)

theorem ordered_singleton (habove : ∀ e ∈ c.entries, c.lower ≤ (e.1 : WithBot IndexKey))
    (hsorted : Sorted c.entries) (hcapacity : c.entries.length ≤ maxKeys) :
    Ordered maxKeys [c] where
  separated := List.pairwise_singleton _ _
  above := by simpa using habove
  sorted := by simpa using hsorted
  capacity := by simpa using hcapacity

/-- Exchange one leaf for others that keep to its interval. -/
theorem Ordered.replace (h : Ordered maxKeys (before ++ c :: after)) {new : List Cell}
    (hnew : Ordered maxKeys new) (hlow : ∀ d ∈ new, c.lower ≤ d.lower)
    (hhigh : ∀ d ∈ new, ∀ a ∈ after,
      d.lower < a.lower ∧ ∀ e ∈ d.entries, (e.1 : WithBot IndexKey) < a.lower) :
    Ordered maxKeys (before ++ (new ++ after)) := by
  obtain ⟨hbefore, hrest⟩ := h.of_append
  have hrest : Ordered maxKeys ([c] ++ after) := hrest
  have hseparated := (List.pairwise_append.mp h.separated).2.2
  refine hbefore.append (hnew.append hrest.of_append.2 hhigh) fun b hb d hd => ?_
  rcases List.mem_append.mp hd with hd | hd
  · obtain ⟨hlower, hentries⟩ := hseparated b hb c List.mem_cons_self
    exact ⟨lt_of_lt_of_le hlower (hlow d hd),
      fun e he => lt_of_lt_of_le (hentries e he) (hlow d hd)⟩
  · exact hseparated b hb d (List.mem_cons_of_mem _ hd)

/-- The leaves that take the place of `c` when a pair is inserted; a new leaf is put at `fresh`. -/
inductive Replaced (maxKeys fresh : Nat) (key : IndexKey) (id : NovaId) (c : Cell) :
    List Cell → Prop
  | present (h : (key, id) ∈ pairs c.entries) : Replaced maxKeys fresh key id c [c]
  | grown {entries : List LeafEntry} (h : Inserted key id c.entries entries)
      (hcapacity : entries.length ≤ maxKeys) :
      Replaced maxKeys fresh key id c [{ c with entries := entries }]
  | split {left right : List LeafEntry} {middle : LeafEntry}
      (h : Inserted key id c.entries (left ++ middle :: right)) (hne : left ≠ [])
      (hleft : left.length ≤ maxKeys) (hright : right.length < maxKeys) :
      Replaced maxKeys fresh key id c [{ c with entries := left, next := some fresh },
        ⟨middle.1, fresh, middle :: right, c.next⟩]

theorem Inserted.bounds {entries : List LeafEntry} (hinserted : Inserted key id c.entries entries)
    (hrouted : Routed key cells before c after) (h : Ordered maxKeys cells) :
    ∀ e ∈ entries, c.lower ≤ (e.1 : WithBot IndexKey) ∧
      ∀ a ∈ after, (e.1 : WithBot IndexKey) < a.lower := by
  intro e he
  rw [hrouted.split] at h
  rcases hinserted.keys e he with hkey | ⟨d, hd, hkey⟩
  · rw [hkey]
    exact ⟨hrouted.lower, hrouted.upper⟩
  · rw [← hkey]
    refine ⟨h.above c (by simp) d hd, fun a ha => ?_⟩
    have hseparated := (List.pairwise_append.mp h.separated).2.1
    exact ((List.pairwise_cons.mp hseparated).1 a ha).2 d hd

/-- Inserting a pair keeps the row in order. -/
theorem Replaced.ordered {fresh : Nat} {new : List Cell}
    (hreplaced : Replaced maxKeys fresh key id c new)
    (hrouted : Routed key cells before c after) (h : Ordered maxKeys cells) :
    Ordered maxKeys (before ++ (new ++ after)) := by
  have hcells := h
  rw [hrouted.split] at hcells
  have hafter : ∀ a ∈ after, c.lower < a.lower := fun a ha =>
    ((List.pairwise_cons.mp (List.pairwise_append.mp hcells.separated).2.1).1 a ha).1
  cases hreplaced with
  | present => simpa using hcells
  | grown hinserted hcapacity =>
      have hbounds := hinserted.bounds hrouted h
      refine hcells.replace (ordered_singleton (fun e he => (hbounds e he).1) hinserted.sorted
        hcapacity) (by simp) fun d hd a ha => ?_
      rw [List.mem_singleton.mp hd]
      exact ⟨hafter a ha, fun e he => (hbounds e he).2 a ha⟩
  | @split left right middle hinserted hne hleft hright =>
      have hbounds := hinserted.bounds hrouted h
      obtain ⟨hsortedLeft, hsortedRight⟩ := hinserted.sorted.of_append
      have hlt : ∀ e ∈ left, e.1 < middle.1 := by
        have hkeys := hinserted.sorted.keys
        rw [List.map_append, List.pairwise_append] at hkeys
        exact fun e he => hkeys.2.2 _ (List.mem_map_of_mem he) _ (by simp)
      have hle : ∀ e ∈ middle :: right, middle.1 ≤ e.1 := by
        intro e he
        rcases List.mem_cons.mp he with rfl | he
        · exact le_rfl
        · exact ((List.pairwise_cons.mp hsortedRight.keys).1 _ (List.mem_map_of_mem he)).le
      have hlower : c.lower < (middle.1 : WithBot IndexKey) := by
        obtain ⟨x, hx⟩ := List.exists_mem_of_ne_nil left hne
        have hx' := (hbounds x (List.mem_append_left _ hx)).1
        exact lt_of_le_of_lt hx' (WithBot.coe_lt_coe.mpr (hlt x hx))
      refine hcells.replace ?_ ?_ ?_
      · have hfirst : Ordered maxKeys [{ c with entries := left, next := some fresh }] :=
          ordered_singleton (fun e he => (hbounds e (List.mem_append_left _ he)).1) hsortedLeft
            hleft
        have hsecond : Ordered maxKeys [⟨middle.1, fresh, middle :: right, c.next⟩] :=
          ordered_singleton (fun e he => WithBot.coe_le_coe.mpr (hle e he)) hsortedRight hright
        refine hfirst.append hsecond fun x hx y hy => ?_
        rw [List.mem_singleton.mp hx, List.mem_singleton.mp hy]
        exact ⟨hlower, fun e he => WithBot.coe_lt_coe.mpr (hlt e he)⟩
      · intro d hd
        rcases List.mem_cons.mp hd with rfl | hd
        · exact le_rfl
        · rw [List.mem_singleton.mp hd]
          exact hlower.le
      · intro d hd a ha
        rcases List.mem_cons.mp hd with rfl | hd
        · exact ⟨hafter a ha, fun e he => (hbounds e (List.mem_append_left _ he)).2 a ha⟩
        · rw [List.mem_singleton.mp hd]
          exact ⟨(hbounds middle (by simp)).2 a ha,
            fun e he => (hbounds e (List.mem_append_right _ he)).2 a ha⟩

/-- Inserting a pair adds it to the pairs of the row. -/
theorem Replaced.mem_pairs {fresh : Nat} {new : List Cell}
    (hreplaced : Replaced maxKeys fresh key id c new) (p : IndexKey × NovaId) :
    p ∈ pairs (entriesOf (before ++ (new ++ after))) ↔
      p = (key, id) ∨ p ∈ pairs (entriesOf (before ++ c :: after)) := by
  have hmiddle : p ∈ pairs (entriesOf new) ↔ p = (key, id) ∨ p ∈ pairs c.entries := by
    cases hreplaced with
    | present h =>
        rw [entriesOf, List.flatMap_singleton]
        exact ⟨.inr, fun hp => hp.elim (fun heq => heq ▸ h) fun hp => hp⟩
    | grown hinserted => simpa [entriesOf] using hinserted.pairs p
    | split hinserted => simpa [entriesOf] using hinserted.pairs p
  have hold : entriesOf (before ++ c :: after) =
      entriesOf before ++ (c.entries ++ entriesOf after) := by
    simp [entriesOf]
  have hnew : entriesOf (before ++ (new ++ after)) =
      entriesOf before ++ (entriesOf new ++ entriesOf after) := by
    simp [entriesOf]
  rw [hold, hnew]
  simp only [pairs_append, List.mem_append, hmiddle]
  grind

theorem Replaced.linked {fresh : Nat} {new : List Cell} {last : Option Nat}
    (hreplaced : Replaced maxKeys fresh key id c new)
    (h : LinkedTo last (before ++ c :: after)) : LinkedTo last (before ++ (new ++ after)) := by
  rw [linkedTo_append] at h ⊢
  cases hreplaced with
  | present => exact h
  | grown => exact h
  | split => exact ⟨h.1, rfl, h.2⟩

end Row

end NovaBase.Index
