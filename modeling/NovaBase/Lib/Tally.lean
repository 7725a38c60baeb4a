import Mathlib.Data.Finset.Sort
import Mathlib.Data.List.Induction
import NovaBase.Lib.SortedMap

/-!
# Tallies

A tally goes through a list of events and keeps one value for each key that an
event has. What it ends with for a key depends on the events that have the key
only, and there is a value for exactly the keys that occur.
-/

namespace NovaBase.Lib

/-- The keys of an event, each once, the value that a key starts with, and what an event does to
the value of its keys. -/
structure Tally (ε κ ν : Type) where
  keys : ε → List κ
  nodup : ∀ event, (keys event).Nodup
  start : κ → ν
  add : ε → ν → ν

namespace Tally

variable {ε κ ν : Type} [LinearOrder κ] (tally : Tally ε κ ν)

/-- Count one event for each of its keys. -/
def count (map : SortedMap κ ν) (event : ε) : SortedMap κ ν :=
  (tally.keys event).foldl (fun map key => map.upsert key (tally.start key) (tally.add event)) map

/-- Count all events, from nothing. -/
def run (events : List ε) : SortedMap κ ν := events.foldl tally.count .empty

/-- The events that have a key. -/
def having (key : κ) (events : List ε) : List ε :=
  events.filter fun event => decide (key ∈ tally.keys event)

/-- What the events that have a key come to. -/
def total (key : κ) (events : List ε) : ν :=
  (tally.having key events).foldl (fun value event => tally.add event value) (tally.start key)

/-- The keys that occur, in increasing order. -/
def occurring (events : List ε) : List κ := (events.flatMap tally.keys).toFinset.sort

variable {tally} {events other : List ε} {event : ε} {key : κ}

/-- An event changes what its keys come to. -/
theorem total_append_singleton (key : κ) (events : List ε) (event : ε) :
    tally.total key (events ++ [event]) =
      if key ∈ tally.keys event then tally.add event (tally.total key events)
      else tally.total key events := by
  rw [total, having, List.filter_append, List.foldl_append]
  by_cases hkey : key ∈ tally.keys event
  · rw [List.filter_cons_of_pos (by simpa using hkey), if_pos hkey]
    rfl
  · rw [List.filter_cons_of_neg (by simpa using hkey), if_neg hkey]
    rfl

/-- An event changes the values of its keys, and no others. -/
theorem get_count (map : SortedMap κ ν) (event : ε) (key : κ) :
    (tally.count map event).get key =
      if key ∈ tally.keys event then
        some (tally.add event ((map.get key).getD (tally.start key)))
      else map.get key := by
  have hnodup : ((tally.keys event).map id).Nodup := by
    rw [List.map_id]
    exact tally.nodup event
  split
  · rename_i hkey
    exact SortedMap.get_foldl_upsert_of_mem hnodup hkey map
  · rename_i hkey
    refine @SortedMap.get_foldl_upsert_of_ne κ ν _ κ id tally.start (tally.add event) _ key ?_ map
    rintro other hother rfl
    exact hkey hother

/-- A value that follows the events from the start on is what they come to. -/
theorem total_eq {f : List ε → ν} (hstart : f [] = tally.start key)
    (hadd : ∀ events event, f (events ++ [event]) = tally.add event (f events))
    (events : List ε) : tally.total key events = f (tally.having key events) := by
  rw [total]
  generalize tally.having key events = events
  induction events using List.reverseRecOn with
  | nil => exact hstart.symm
  | append_singleton events event ih =>
      rw [List.foldl_append, ih, hadd]
      rfl

theorem run_append_singleton (events : List ε) (event : ε) :
    tally.run (events ++ [event]) = tally.count (tally.run events) event := by
  rw [run, List.foldl_append]
  rfl

/-- After some events a key has the value that they come to. -/
theorem getD_run (events : List ε) (key : κ) :
    ((tally.run events).get key).getD (tally.start key) = tally.total key events := by
  induction events using List.reverseRecOn with
  | nil => rfl
  | append_singleton events event ih =>
      rw [run_append_singleton, get_count, total_append_singleton, ← ih]
      split <;> rfl

theorem contains_run (events : List ε) (key : κ) :
    (tally.run events).contains key = true ↔ ∃ event ∈ events, key ∈ tally.keys event := by
  induction events using List.reverseRecOn with
  | nil => simp [run, SortedMap.contains]
  | append_singleton events event ih =>
      have hsplit : (∃ later ∈ events ++ [event], key ∈ tally.keys later) ↔
          (∃ earlier ∈ events, key ∈ tally.keys earlier) ∨ key ∈ tally.keys event := by
        simp [or_and_right, exists_or]
      rw [hsplit, ← ih, run_append_singleton, SortedMap.contains, get_count, SortedMap.contains]
      split <;> simp_all

theorem mem_occurring :
    key ∈ tally.occurring events ↔ ∃ event ∈ events, key ∈ tally.keys event := by
  rw [occurring, Finset.mem_sort, List.mem_toFinset, List.mem_flatMap]

theorem occurring_sorted (events : List ε) : (tally.occurring events).Pairwise (· < ·) :=
  (Finset.sortedLT_sort _).pairwise

theorem keys_run (events : List ε) : (tally.run events).keys = tally.occurring events := by
  have hkeys : (tally.run events).keys.toFinset = (events.flatMap tally.keys).toFinset := by
    ext key
    rw [List.mem_toFinset, List.mem_toFinset, SortedMap.mem_keys, contains_run, List.mem_flatMap]
  have hsorted : (tally.run events).keys.Pairwise (· ≤ ·) := by
    rw [SortedMap.keys, List.pairwise_map]
    exact (tally.run events).sorted.imp le_of_lt
  rw [occurring, ← hkeys]
  exact ((List.toFinset_sort _ (SortedMap.nodup_keys _)).mpr hsorted).symm

/-- A tally ends with one value for each key that occurs, in increasing order of the keys. -/
theorem values_run (events : List ε) : (tally.run events).values =
    (tally.occurring events).map fun key => tally.total key events := by
  rw [← keys_run, SortedMap.keys, SortedMap.values, List.map_map]
  apply List.map_congr_left
  rintro ⟨key, value⟩ hentry
  have htotal := tally.getD_run events key
  rw [(SortedMap.mem_entries _).mp hentry] at htotal
  exact htotal

/-- The keys that occur do not depend on the order of the events. -/
theorem occurring_perm (h : events.Perm other) :
    tally.occurring events = tally.occurring other := by
  rw [occurring, occurring, List.toFinset_eq_of_perm _ _ (h.flatMap_right _)]

theorem having_perm (h : events.Perm other) (key : κ) :
    (tally.having key events).Perm (tally.having key other) := h.filter _

end Tally

end NovaBase.Lib
