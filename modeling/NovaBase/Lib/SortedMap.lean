import Mathlib.Order.Defs.LinearOrder
import Mathlib.Order.Basic
import Mathlib.Data.List.Sort

/-!
# Ordered maps

An ordered map is the list of its entries in increasing order of their keys,
which is the order in which it is iterated. `Entries` are the operations on
the bare list; `SortedMap` carries the order with it.
-/

namespace NovaBase.Lib

/-- The entries of an ordered map. -/
abbrev Entries (κ ν : Type) := List (κ × ν)

namespace Entries

variable {κ ν : Type} [LinearOrder κ]

/-- The entries come in strictly increasing order of their keys. -/
def Sorted (entries : Entries κ ν) : Prop := entries.Pairwise fun a b => a.1 < b.1

/-- The value of the first entry with a key. -/
def get : Entries κ ν → κ → Option ν
  | [], _ => none
  | (k, v) :: rest, key => if k = key then some v else get rest key

/-- Set the value of a key, in its place in the order. -/
def insert : Entries κ ν → κ → ν → Entries κ ν
  | [], key, value => [(key, value)]
  | (k, v) :: rest, key, value =>
      if key < k then (key, value) :: (k, v) :: rest
      else if k = key then (key, value) :: rest
      else (k, v) :: insert rest key value

/-- Take all entries with a key out. -/
def remove (entries : Entries κ ν) (key : κ) : Entries κ ν :=
  entries.filter fun entry => entry.1 ≠ key

theorem sorted_nil : Sorted ([] : Entries κ ν) := List.Pairwise.nil

theorem sorted_cons {entry : κ × ν} {rest : Entries κ ν} :
    Sorted (entry :: rest) ↔ (∀ e ∈ rest, entry.1 < e.1) ∧ Sorted rest :=
  List.pairwise_cons

theorem get_eq_none {entries : Entries κ ν} {key : κ} :
    get entries key = none ↔ ∀ e ∈ entries, e.1 ≠ key := by
  induction entries with
  | nil => simp [get]
  | cons entry rest ih =>
      obtain ⟨k, v⟩ := entry
      by_cases hk : k = key <;> simp [get, hk, ih]

theorem mem_of_get {entries : Entries κ ν} {key : κ} {value : ν}
    (h : get entries key = some value) : (key, value) ∈ entries := by
  induction entries with
  | nil => simp [get] at h
  | cons entry rest ih =>
      obtain ⟨k, v⟩ := entry
      by_cases hk : k = key
      · simp_all [get]
      · rw [get, if_neg hk] at h
        exact List.mem_cons_of_mem _ (ih h)

theorem get_of_mem {entries : Entries κ ν} (hsorted : Sorted entries) {key : κ} {value : ν}
    (h : (key, value) ∈ entries) : get entries key = some value := by
  induction entries with
  | nil => simp at h
  | cons entry rest ih =>
      obtain ⟨k, v⟩ := entry
      obtain ⟨hlt, hrest⟩ := sorted_cons.mp hsorted
      rcases List.mem_cons.mp h with heq | hmem
      · simp_all [get]
      · have hk : k ≠ key := (hlt _ hmem).ne
        rw [get, if_neg hk]
        exact ih hrest hmem

theorem mem_insert {entries : Entries κ ν} {key : κ} {value : ν} {e : κ × ν}
    (h : e ∈ insert entries key value) : e = (key, value) ∨ e ∈ entries := by
  induction entries with
  | nil => simpa [insert] using h
  | cons entry rest ih =>
      obtain ⟨k, v⟩ := entry
      rw [insert] at h
      split at h
      · simpa using h
      · split at h
        · rcases List.mem_cons.mp h with heq | hmem
          · exact .inl heq
          · exact .inr (List.mem_cons_of_mem _ hmem)
        · rcases List.mem_cons.mp h with heq | hmem
          · exact .inr (by simp [heq])
          · exact (ih hmem).imp id (List.mem_cons_of_mem _)

theorem sorted_insert {entries : Entries κ ν} (hsorted : Sorted entries) (key : κ) (value : ν) :
    Sorted (insert entries key value) := by
  induction entries with
  | nil => exact sorted_cons.mpr ⟨by simp, sorted_nil⟩
  | cons entry rest ih =>
      obtain ⟨k, v⟩ := entry
      obtain ⟨hlt, hrest⟩ := sorted_cons.mp hsorted
      rw [insert]
      split
      case isTrue hkey =>
        refine sorted_cons.mpr ⟨fun e he => ?_, hsorted⟩
        rcases List.mem_cons.mp he with rfl | hmem
        · exact hkey
        · exact hkey.trans (hlt e hmem)
      case isFalse hkey =>
        split
        case isTrue heq =>
          subst heq
          exact sorted_cons.mpr ⟨hlt, hrest⟩
        case isFalse hne =>
          refine sorted_cons.mpr ⟨fun e he => ?_, ih hrest⟩
          rcases mem_insert he with rfl | hmem
          · exact lt_of_le_of_ne (not_lt.mp hkey) hne
          · exact hlt e hmem

theorem get_insert {entries : Entries κ ν} (key : κ) (value : ν) (other : κ) :
    get (insert entries key value) other =
      if key = other then some value else get entries other := by
  induction entries with
  | nil => rfl
  | cons entry rest ih =>
      obtain ⟨k, v⟩ := entry
      rw [insert]
      split
      case isTrue => rfl
      case isFalse hkey =>
        split
        case isTrue heq =>
          subst heq
          by_cases hk : k = other <;> simp [get, hk]
        case isFalse hne =>
          rw [get, get, ih]
          by_cases hk : k = other
          · have hother : key ≠ other := fun h => hne (hk.trans h.symm)
            rw [if_pos hk, if_neg hother, if_pos hk]
          · rw [if_neg hk, if_neg hk]

/-- A new key makes one more entry. -/
theorem length_insert {entries : Entries κ ν} {key : κ} (value : ν)
    (h : get entries key = none) : (insert entries key value).length = entries.length + 1 := by
  induction entries with
  | nil => rfl
  | cons entry rest ih =>
      obtain ⟨k, v⟩ := entry
      rw [get] at h
      have hne : k ≠ key := by
        rintro rfl
        simp at h
      rw [if_neg hne] at h
      rw [insert]
      split
      · rfl
      · rw [List.length_cons, ih h, List.length_cons]

/-- A key that is there already makes no entry. -/
theorem length_insert_of_get {entries : Entries κ ν} (hsorted : Sorted entries) {key : κ} {old : ν}
    (value : ν) (h : get entries key = some old) :
    (insert entries key value).length = entries.length := by
  induction entries with
  | nil => simp [get] at h
  | cons entry rest ih =>
      obtain ⟨k, v⟩ := entry
      obtain ⟨hlt, hrest⟩ := sorted_cons.mp hsorted
      rcases List.mem_cons.mp (mem_of_get h) with heq | hmem
      · obtain ⟨rfl, -⟩ := Prod.mk.inj heq
        rw [insert, if_neg (lt_irrefl _), if_pos rfl, List.length_cons, List.length_cons]
      · have hk : k < key := hlt _ hmem
        rw [insert, if_neg hk.not_gt, if_neg hk.ne, List.length_cons,
          ih hrest (get_of_mem hrest hmem), List.length_cons]

/-- A key that is there already keeps its place, and what its values have in common. -/
theorem map_insert_of_get {μ : Type} {f : κ × ν → μ} {entries : Entries κ ν}
    (hsorted : Sorted entries) {key : κ} {old value : ν} (h : get entries key = some old)
    (hsame : f (key, value) = f (key, old)) :
    (insert entries key value).map f = entries.map f := by
  induction entries with
  | nil => simp [get] at h
  | cons entry rest ih =>
      obtain ⟨k, v⟩ := entry
      obtain ⟨hlt, hrest⟩ := sorted_cons.mp hsorted
      rcases List.mem_cons.mp (mem_of_get h) with heq | hmem
      · obtain ⟨rfl, rfl⟩ := Prod.mk.inj heq
        rw [insert, if_neg (lt_irrefl _), if_pos rfl, List.map_cons, List.map_cons, hsame]
      · have hk : k < key := hlt _ hmem
        rw [insert, if_neg hk.not_gt, if_neg hk.ne, List.map_cons, List.map_cons,
          ih hrest (get_of_mem hrest hmem)]

/-- Removing a key that is there takes one entry away. -/
theorem length_remove {entries : Entries κ ν} (hsorted : Sorted entries) {key : κ} {old : ν}
    (h : get entries key = some old) : (remove entries key).length + 1 = entries.length := by
  induction entries with
  | nil => simp [get] at h
  | cons entry rest ih =>
      obtain ⟨k, v⟩ := entry
      obtain ⟨hlt, hrest⟩ := sorted_cons.mp hsorted
      unfold remove at ih ⊢
      rcases List.mem_cons.mp (mem_of_get h) with heq | hmem
      · obtain ⟨rfl, -⟩ := Prod.mk.inj heq
        have hothers : rest.filter (fun entry => entry.1 ≠ key) = rest :=
          List.filter_eq_self.mpr fun e he => by simpa using (hlt e he).ne'
        rw [List.filter_cons_of_neg (by simp), hothers, List.length_cons]
      · have hk : k < key := hlt _ hmem
        rw [List.filter_cons_of_pos (by simpa using hk.ne), List.length_cons, List.length_cons,
          ih hrest (get_of_mem hrest hmem)]

/-- A key beyond all others goes to the end. -/
theorem insert_last {entries : Entries κ ν} {key : κ} (value : ν)
    (h : ∀ e ∈ entries, e.1 < key) : insert entries key value = entries ++ [(key, value)] := by
  induction entries with
  | nil => rfl
  | cons entry rest ih =>
      obtain ⟨k, v⟩ := entry
      have hk : k < key := h (k, v) List.mem_cons_self
      rw [insert, if_neg hk.not_gt, if_neg hk.ne,
        ih fun e he => h e (List.mem_cons_of_mem _ he), List.cons_append]

theorem get_of_forall_lt {entries : Entries κ ν} {key : κ} (h : ∀ e ∈ entries, e.1 < key) :
    get entries key = none :=
  get_eq_none.mpr fun e he => (h e he).ne

theorem sorted_remove {entries : Entries κ ν} (hsorted : Sorted entries) (key : κ) :
    Sorted (remove entries key) :=
  hsorted.filter _

theorem get_remove (entries : Entries κ ν) (key other : κ) :
    get (remove entries key) other = if key = other then none else get entries other := by
  induction entries with
  | nil => simp [remove, get]
  | cons entry rest ih =>
      obtain ⟨k, v⟩ := entry
      unfold remove at ih ⊢
      by_cases hk : k = key
      · subst hk
        rw [List.filter_cons_of_neg (by simp), ih, get]
        split <;> rfl
      · rw [List.filter_cons_of_pos (by simpa using hk), get, ih, get]
        by_cases hother : k = other
        · subst hother
          rw [if_pos rfl, if_neg (Ne.symm hk), if_pos rfl]
        · rw [if_neg hother, if_neg hother]

/-- Change every value, and drop the entries whose value is lost. -/
def retain (f : ν → Option ν) (entries : Entries κ ν) : Entries κ ν :=
  entries.filterMap fun entry => (f entry.2).map fun value => (entry.1, value)

omit [LinearOrder κ] in
theorem mem_retain {f : ν → Option ν} {entries : Entries κ ν} {e : κ × ν} :
    e ∈ retain f entries ↔ ∃ value, (e.1, value) ∈ entries ∧ f value = some e.2 := by
  obtain ⟨key, value⟩ := e
  simp only [retain, List.mem_filterMap, Option.map_eq_some_iff, Prod.mk.injEq, Prod.exists]
  constructor
  · rintro ⟨k, old, hmem, new, hnew, rfl, rfl⟩
    exact ⟨old, hmem, hnew⟩
  · rintro ⟨old, hmem, hnew⟩
    exact ⟨key, old, hmem, value, hnew, rfl, rfl⟩

theorem sorted_retain {entries : Entries κ ν} (hsorted : Sorted entries) (f : ν → Option ν) :
    Sorted (retain f entries) := by
  induction entries with
  | nil => exact sorted_nil
  | cons entry rest ih =>
      obtain ⟨hlt, hrest⟩ := sorted_cons.mp hsorted
      have hmore := ih hrest
      cases hvalue : f entry.2 with
      | none => simpa [retain, hvalue] using hmore
      | some value =>
          have hhead : retain f (entry :: rest) = (entry.1, value) :: retain f rest := by
            simp [retain, hvalue]
          rw [hhead]
          refine sorted_cons.mpr ⟨fun e he => ?_, hmore⟩
          obtain ⟨old, hmem, -⟩ := mem_retain.mp he
          exact hlt (e.1, old) hmem

theorem get_retain {entries : Entries κ ν} (hsorted : Sorted entries) (f : ν → Option ν)
    (key : κ) : get (retain f entries) key = (get entries key).bind f := by
  apply Option.ext
  intro value
  rw [Option.bind_eq_some_iff]
  constructor
  · intro h
    obtain ⟨old, hmem, hold⟩ := mem_retain.mp (mem_of_get h)
    exact ⟨old, get_of_mem hsorted hmem, hold⟩
  · rintro ⟨old, hget, hold⟩
    exact get_of_mem (sorted_retain hsorted f) (mem_retain.mpr ⟨old, mem_of_get hget, hold⟩)

/-- Entries in order are determined by what they map. -/
theorem ext_get {a b : Entries κ ν} (ha : Sorted a) (hb : Sorted b)
    (h : ∀ key, get a key = get b key) : a = b := by
  have hirrefl : Std.Irrefl fun x y : κ × ν => x.1 < y.1 := ⟨fun x => lt_irrefl x.1⟩
  have hasymm : Std.Antisymm fun x y : κ × ν => x.1 < y.1 :=
    ⟨fun x y hxy hyx => absurd (hxy.trans hyx) (lt_irrefl x.1)⟩
  refine List.Pairwise.eq_of_mem_iff ha hb fun e => ⟨fun he => ?_, fun he => ?_⟩
  · exact mem_of_get ((h e.1).symm.trans (get_of_mem ha he))
  · exact mem_of_get ((h e.1).trans (get_of_mem hb he))

end Entries

/-- A map iterated in increasing order of its keys. -/
structure SortedMap (κ ν : Type) [LinearOrder κ] where
  entries : Entries κ ν
  sorted : entries.Sorted

namespace SortedMap

variable {κ ν : Type} [LinearOrder κ]

def empty : SortedMap κ ν := ⟨[], Entries.sorted_nil⟩

/-- The value at a key. -/
def get (map : SortedMap κ ν) (key : κ) : Option ν := map.entries.get key

def contains (map : SortedMap κ ν) (key : κ) : Bool := (map.get key).isSome

/-- Set the value at a key. -/
def insert (map : SortedMap κ ν) (key : κ) (value : ν) : SortedMap κ ν :=
  ⟨map.entries.insert key value, Entries.sorted_insert map.sorted key value⟩

/-- The map without a key. -/
def remove (map : SortedMap κ ν) (key : κ) : SortedMap κ ν :=
  ⟨map.entries.remove key, Entries.sorted_remove map.sorted key⟩

/-- Change every value, and take out those for which there is no new one. -/
def retain (f : ν → Option ν) (map : SortedMap κ ν) : SortedMap κ ν :=
  ⟨map.entries.retain f, Entries.sorted_retain map.sorted f⟩

/-- Change the value of a key, which begins with a default. -/
def upsert (map : SortedMap κ ν) (key : κ) (default : ν) (change : ν → ν) : SortedMap κ ν :=
  map.insert key (change ((map.get key).getD default))

/-- The keys in increasing order. -/
def keys (map : SortedMap κ ν) : List κ := map.entries.map Prod.fst

/-- The values in the order of their keys. -/
def values (map : SortedMap κ ν) : List ν := map.entries.map Prod.snd

@[simp] theorem get_empty (key : κ) : (empty : SortedMap κ ν).get key = none := rfl

@[simp] theorem get_insert (map : SortedMap κ ν) (key : κ) (value : ν) (other : κ) :
    (map.insert key value).get other = if key = other then some value else map.get other :=
  Entries.get_insert key value other

/-- What is found after an insertion is the new value or an old one. -/
theorem get_insert_eq_some {map : SortedMap κ ν} {key other : κ} {value found : ν} :
    (map.insert key value).get other = some found ↔
      key = other ∧ value = found ∨ key ≠ other ∧ map.get other = some found := by
  rw [get_insert]
  split <;> simp_all

@[simp] theorem get_remove (map : SortedMap κ ν) (key other : κ) :
    (map.remove key).get other = if key = other then none else map.get other :=
  Entries.get_remove map.entries key other

@[simp] theorem get_retain (f : ν → Option ν) (map : SortedMap κ ν) (key : κ) :
    (map.retain f).get key = (map.get key).bind f :=
  Entries.get_retain map.sorted f key

theorem mem_entries (map : SortedMap κ ν) {key : κ} {value : ν} :
    (key, value) ∈ map.entries ↔ map.get key = some value :=
  ⟨Entries.get_of_mem map.sorted, Entries.mem_of_get⟩

@[ext] theorem ext {a b : SortedMap κ ν} (h : ∀ key, a.get key = b.get key) : a = b := by
  cases a
  cases b
  congr
  exact Entries.ext_get ‹_› ‹_› h

/-- Setting what a key already has changes nothing. -/
theorem insert_of_get {map : SortedMap κ ν} {key : κ} {value : ν}
    (h : map.get key = some value) : map.insert key value = map := by
  ext other
  by_cases hkey : key = other
  · subst hkey
    simp [h]
  · simp [hkey]

theorem keys_insert_of_get {map : SortedMap κ ν} {key : κ} {old : ν} (value : ν)
    (h : map.get key = some old) : (map.insert key value).keys = map.keys :=
  Entries.map_insert_of_get map.sorted h rfl

theorem get_upsert (map : SortedMap κ ν) (key : κ) (default : ν) (change : ν → ν) (other : κ) :
    (map.upsert key default change).get other =
      if key = other then some (change ((map.get other).getD default)) else map.get other := by
  rw [upsert, get_insert]
  split
  · rename_i h
    rw [h]
  · rfl

section Folds

variable {ι : Type} {key : ι → κ} {default : ι → ν} {change : ν → ν} {items : List ι} {other : κ}

/-- Changing the values of some keys leaves those of all others. -/
theorem get_foldl_upsert_of_ne (h : ∀ item ∈ items, key item ≠ other) (map : SortedMap κ ν) :
    (items.foldl (fun map item => map.upsert (key item) (default item) change) map).get other =
      map.get other := by
  induction items generalizing map with
  | nil => rfl
  | cons item rest ih =>
      obtain ⟨hitem, hrest⟩ := List.forall_mem_cons.mp h
      rw [List.foldl_cons, ih hrest, get_upsert, if_neg hitem]

/-- Each value is changed once. -/
theorem get_foldl_upsert_of_mem (hnodup : (items.map key).Nodup) {item : ι} (h : item ∈ items)
    (map : SortedMap κ ν) :
    (items.foldl (fun map item => map.upsert (key item) (default item) change) map).get (key item) =
      some (change ((map.get (key item)).getD (default item))) := by
  induction items generalizing map with
  | nil => cases h
  | cons first rest ih =>
      rw [List.map_cons, List.nodup_cons] at hnodup
      obtain ⟨hfirst, hrest⟩ := hnodup
      rw [List.foldl_cons]
      rcases List.mem_cons.mp h with rfl | hmem
      · have hne : ∀ later ∈ rest, key later ≠ key item :=
          fun later hlater heq => hfirst (heq ▸ List.mem_map_of_mem hlater)
        rw [get_foldl_upsert_of_ne hne, get_upsert, if_pos rfl]
      · have hne : key first ≠ key item :=
          fun heq => hfirst (heq ▸ List.mem_map_of_mem hmem)
        rw [ih hrest hmem, get_upsert, if_neg hne]

end Folds

section Functions

variable [DecidableEq κ]

theorem get_insert_eq_update (map : SortedMap κ ν) (key : κ) (value : ν) :
    (map.insert key value).get = Function.update map.get key (some value) := by
  funext other
  rw [get_insert]
  split
  · rename_i hkey
    rw [← hkey, Function.update_self]
  · rename_i hkey
    rw [Function.update_of_ne (Ne.symm hkey)]

theorem get_remove_eq_update (map : SortedMap κ ν) (key : κ) :
    (map.remove key).get = Function.update map.get key none := by
  funext other
  rw [get_remove]
  split
  · rename_i hkey
    rw [← hkey, Function.update_self]
  · rename_i hkey
    rw [Function.update_of_ne (Ne.symm hkey)]

end Functions

theorem mem_values {map : SortedMap κ ν} {value : ν} :
    value ∈ map.values ↔ ∃ key, map.get key = some value := by
  simp only [values, List.mem_map, Prod.exists, exists_eq_right, mem_entries]

theorem mem_keys {map : SortedMap κ ν} {key : κ} : key ∈ map.keys ↔ map.contains key = true := by
  simp only [keys, List.mem_map, Prod.exists, exists_and_right, exists_eq_right, mem_entries,
    contains, Option.isSome_iff_exists]

theorem pairwise_keys (map : SortedMap κ ν) : map.keys.Pairwise (· < ·) :=
  List.pairwise_map.mpr map.sorted

theorem nodup_keys (map : SortedMap κ ν) : map.keys.Nodup := map.pairwise_keys.imp ne_of_lt

/-- The last value set for a key is the one that counts. -/
theorem insert_insert (map : SortedMap κ ν) (key : κ) (first second : ν) :
    (map.insert key first).insert key second = map.insert key second := by
  ext other
  by_cases hkey : key = other <;> simp [hkey]

end SortedMap

/-- Machine words are ordered as the numbers they hold. -/
instance instLinearOrderUInt64 : LinearOrder UInt64 where
  le_refl := UInt64.le_refl
  le_trans _ _ _ := UInt64.le_trans
  le_antisymm _ _ := UInt64.le_antisymm
  le_total := UInt64.le_total
  lt_iff_le_not_ge _ _ := by simp only [UInt64.lt_iff_toNat_lt, UInt64.le_iff_toNat_le]; omega
  min_def _ _ := rfl
  max_def _ _ := rfl
  toDecidableLE := inferInstance
  toDecidableEq := inferInstance

end NovaBase.Lib
