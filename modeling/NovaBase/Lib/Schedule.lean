import Mathlib.Data.List.Flatten
import Mathlib.Data.List.Induction
import Mathlib.Data.List.Nodup
import Mathlib.Logic.Function.Basic
import Mathlib.Logic.Relation

/-!
# Schedules of transactions

A history interleaves accesses to items with the ends of transactions. It is
rigorous when an access waits for the end of every transaction it conflicts
with. In a rigorous history nobody reads what an unfinished transaction wrote,
conflicts between committed transactions follow the order of their commits, and
swapping neighbouring independent accesses turns the committed part of the
history into the serial execution in that order.
-/

namespace NovaBase.Lib.Schedule

/-- One read or write of an item by a transaction. -/
structure Access (τ ι : Type) where
  owner : τ
  item : ι
  writes : Bool
  deriving DecidableEq

/-- What happens in a history. -/
inductive Event (τ ι : Type)
  | access (access : Access τ ι)
  | finish (owner : τ) (commits : Bool)
  deriving DecidableEq

variable {τ ι : Type}

/-- Two transactions access one item, and at least one of them writes it. -/
def Conflict (a b : Access τ ι) : Prop :=
  a.owner ≠ b.owner ∧ a.item = b.item ∧ (a.writes ∨ b.writes)

/-- Accesses of two transactions that do not conflict. -/
def Independent (a b : Access τ ι) : Prop := a.owner ≠ b.owner ∧ ¬Conflict a b

theorem Independent.symm {a b : Access τ ι} (h : Independent a b) : Independent b a :=
  ⟨Ne.symm h.1, fun ⟨_, hitem, hwrites⟩ => h.2 ⟨h.1, hitem.symm, hwrites.symm⟩⟩

theorem Independent.item_ne {a b : Access τ ι} (h : Independent a b) (hwrites : a.writes) :
    a.item ≠ b.item :=
  fun hitem => h.2 ⟨h.1, hitem, .inl hwrites⟩

/-- One schedule becomes the other by swaps of neighbouring independent accesses. -/
inductive Equivalent : List (Access τ ι) → List (Access τ ι) → Prop
  | refl (s : List (Access τ ι)) : Equivalent s s
  | cons (a : Access τ ι) {s t : List (Access τ ι)} (h : Equivalent s t) :
      Equivalent (a :: s) (a :: t)
  | swap {a b : Access τ ι} (h : Independent a b) (s : List (Access τ ι)) :
      Equivalent (a :: b :: s) (b :: a :: s)
  | trans {s t u : List (Access τ ι)} (hst : Equivalent s t) (htu : Equivalent t u) :
      Equivalent s u

namespace Equivalent

theorem append_left (front : List (Access τ ι)) {s t : List (Access τ ι)} (h : Equivalent s t) :
    Equivalent (front ++ s) (front ++ t) := by
  induction front with
  | nil => exact h
  | cons a front ih => exact .cons a ih

/-- An access moves behind accesses that are all independent of it. -/
theorem move_back {a : Access τ ι} {s : List (Access τ ι)} (h : ∀ b ∈ s, Independent a b)
    (rest : List (Access τ ι)) : Equivalent (a :: (s ++ rest)) (s ++ a :: rest) := by
  induction s with
  | nil => exact .refl _
  | cons b s ih =>
      obtain ⟨hb, hs⟩ := List.forall_mem_cons.mp h
      exact (Equivalent.swap hb _).trans (.cons b (ih hs))

end Equivalent

section Meaning

/-- What transactions know and what items hold. -/
structure State (τ ι Λ V : Type) where
  locals : τ → Λ
  store : ι → V

variable {Λ V : Type} [DecidableEq τ] [DecidableEq ι]

/-- The transaction of an access knows `out.1`, and a write leaves `out.2` in the item. -/
def absorb (a : Access τ ι) (out : Λ × V) (state : State τ ι Λ V) : State τ ι Λ V where
  locals := Function.update state.locals a.owner out.1
  store := if a.writes then Function.update state.store a.item out.2 else state.store

/-- What an access does depends on what its transaction knows and on what the item holds. -/
def perform (meaning : Access τ ι → Λ → V → Λ × V) (state : State τ ι Λ V) (a : Access τ ι) :
    State τ ι Λ V :=
  absorb a (meaning a (state.locals a.owner) (state.store a.item)) state

theorem locals_absorb {a b : Access τ ι} (h : Independent a b) (out : Λ × V)
    (state : State τ ι Λ V) : (absorb a out state).locals b.owner = state.locals b.owner :=
  Function.update_of_ne (Ne.symm h.1) _ _

theorem store_absorb {a b : Access τ ι} (h : Independent a b) (out : Λ × V)
    (state : State τ ι Λ V) : (absorb a out state).store b.item = state.store b.item := by
  by_cases hwrites : a.writes
  · simp only [absorb, if_pos hwrites]
    exact Function.update_of_ne (Ne.symm (h.item_ne hwrites)) _ _
  · simp [absorb, hwrites]

theorem absorb_comm {a b : Access τ ι} (h : Independent a b) (out other : Λ × V)
    (state : State τ ι Λ V) :
    absorb a out (absorb b other state) = absorb b other (absorb a out state) := by
  simp only [absorb, State.mk.injEq]
  refine ⟨Function.update_comm (Ne.symm h.1) _ _ _, ?_⟩
  by_cases ha : a.writes <;> by_cases hb : b.writes
  · simp only [if_pos ha, if_pos hb]
    exact Function.update_comm (Ne.symm (h.item_ne ha)) _ _ _
  all_goals simp [ha, hb]

/-- Independent accesses commute, whatever they mean. -/
theorem perform_comm (meaning : Access τ ι → Λ → V → Λ × V) (state : State τ ι Λ V)
    {a b : Access τ ι} (h : Independent a b) :
    perform meaning (perform meaning state a) b = perform meaning (perform meaning state b) a := by
  simp only [perform]
  rw [locals_absorb h, store_absorb h, locals_absorb h.symm, store_absorb h.symm]
  exact absorb_comm h.symm _ _ state

/-- Equivalent schedules leave the same items, and their transactions have seen the same. -/
theorem Equivalent.perform_eq {s t : List (Access τ ι)} (h : Equivalent s t)
    (meaning : Access τ ι → Λ → V → Λ × V) (state : State τ ι Λ V) :
    s.foldl (perform meaning) state = t.foldl (perform meaning) state := by
  induction h generalizing state with
  | refl s => rfl
  | cons a h ih => exact ih (perform meaning state a)
  | swap h s => simp only [List.foldl_cons, perform_comm meaning state h]
  | trans hst htu ihst ihtu => exact (ihst state).trans (ihtu state)

end Meaning

section Order

variable [DecidableEq τ]

/-- Accesses of one transaction move to the front when nothing before them conflicts with them. -/
theorem Equivalent.front {t : τ} {s : List (Access τ ι)}
    (h : s.Pairwise fun a b => b.owner = t → a.owner ≠ t → ¬Conflict a b) :
    Equivalent s (s.filter (·.owner = t) ++ s.filter (·.owner ≠ t)) := by
  induction s with
  | nil => exact .refl _
  | cons a s ih =>
      obtain ⟨hhead, htail⟩ := List.pairwise_cons.mp h
      have hrest := Equivalent.cons a (ih htail)
      by_cases ha : a.owner = t
      · simpa [ha] using hrest
      · have hfront : ∀ b ∈ s.filter (·.owner = t), Independent a b := by
          intro b hb
          obtain ⟨hmem, howner⟩ := List.mem_filter.mp hb
          have hbt : b.owner = t := by simpa using howner
          exact ⟨fun heq => ha (heq.trans hbt), hhead b hmem hbt ha⟩
        simpa [ha] using hrest.trans (move_back hfront _)

/-- A schedule whose conflicts follow an order of its transactions is equivalent to the serial
one in that order. -/
theorem Equivalent.serial {order : List τ} (hnodup : order.Nodup) {s : List (Access τ ι)}
    (howners : ∀ a ∈ s, a.owner ∈ order)
    (h : s.Pairwise fun a b => Conflict a b → [a.owner, b.owner].Sublist order) :
    Equivalent s (order.flatMap fun t => s.filter (·.owner = t)) := by
  induction order generalizing s with
  | nil =>
      obtain rfl : s = [] := List.eq_nil_iff_forall_not_mem.mpr fun a ha => by
        simpa using howners a ha
      exact .refl _
  | cons t order ih =>
      obtain ⟨hfresh, hnodup⟩ := List.nodup_cons.mp hnodup
      have hlater : ∀ {a b : Access τ ι}, a.owner ≠ t →
          [a.owner, b.owner].Sublist (t :: order) → [a.owner, b.owner].Sublist order := by
        intro a b hne hsub
        rcases List.sublist_cons_iff.mp hsub with hsub | ⟨rest, heq, -⟩
        · exact hsub
        · exact absurd (List.cons.inj heq).1 hne
      have hfront : Equivalent s (s.filter (·.owner = t) ++ s.filter (·.owner ≠ t)) := by
        refine Equivalent.front (h.imp fun hab hb ha hconflict => hfresh ?_)
        have hsub := hlater ha (hab hconflict)
        exact hb ▸ hsub.subset (List.mem_cons_of_mem _ List.mem_cons_self)
      have hrest : Equivalent (s.filter (·.owner ≠ t)) (order.flatMap fun u =>
          (s.filter (·.owner ≠ t)).filter (·.owner = u)) := by
        refine ih hnodup (fun a ha => ?_) ?_
        · obtain ⟨hmem, hne⟩ := List.mem_filter.mp ha
          exact (List.mem_cons.mp (howners a hmem)).resolve_left (by simpa using hne)
        · have hothers := h.filter (·.owner ≠ t)
          refine hothers.imp_of_mem fun {a b} ha _ hab hconflict => ?_
          have hne : a.owner ≠ t := by simpa using (List.mem_filter.mp ha).2
          exact hlater hne (hab hconflict)
      have hparts : (order.flatMap fun u => (s.filter (·.owner ≠ t)).filter (·.owner = u)) =
          order.flatMap fun u => s.filter (·.owner = u) := by
        refine List.flatMap_congr fun u hu => ?_
        rw [List.filter_filter]
        refine List.filter_congr fun a ha => ?_
        have hne : u ≠ t := fun heq => hfresh (heq ▸ hu)
        by_cases hau : a.owner = u <;> simp [hau, hne]
      rw [hparts] at hrest
      exact hfront.trans (hrest.append_left _)

end Order

/-- The accesses of a history. -/
def accesses (history : List (Event τ ι)) : List (Access τ ι) :=
  history.filterMap fun
    | .access a => some a
    | .finish _ _ => none

/-- The transactions that have ended. -/
def finished (history : List (Event τ ι)) : List τ :=
  history.filterMap fun
    | .access _ => none
    | .finish owner _ => some owner

/-- The transactions that have committed, in the order of their commits. -/
def commits (history : List (Event τ ι)) : List τ :=
  history.filterMap fun
    | .access _ => none
    | .finish owner committed => if committed then some owner else none

/-- An event may follow a history: its transaction has not ended, and every transaction that an
access conflicts with has. -/
def Admissible (before : List (Event τ ι)) : Event τ ι → Prop
  | .access a => a.owner ∉ finished before ∧
      ∀ b ∈ accesses before, Conflict b a → b.owner ∈ finished before
  | .finish owner _ => owner ∉ finished before

/-- Every event may follow the history before it. -/
def Rigorous (history : List (Event τ ι)) : Prop :=
  ∀ before event after, history = before ++ event :: after → Admissible before event

/-- A committed transaction accesses an item before another committed one that it conflicts with. -/
def Edge (history : List (Event τ ι)) (t u : τ) : Prop :=
  t ∈ commits history ∧ u ∈ commits history ∧ ∃ a b, Conflict a b ∧ a.owner = t ∧ b.owner = u ∧
    [Event.access a, .access b].Sublist history

section Rigorous

variable {history before after : List (Event τ ι)} {event : Event τ ι}

theorem accesses_append : accesses (before ++ after) = accesses before ++ accesses after :=
  List.filterMap_append

theorem finished_append : finished (before ++ after) = finished before ++ finished after :=
  List.filterMap_append

theorem commits_append : commits (before ++ after) = commits before ++ commits after :=
  List.filterMap_append

/-- Accesses come in the order of their events. -/
theorem accesses_sublist : ((accesses history).map Event.access).Sublist history := by
  induction history with
  | nil => exact .slnil
  | cons event history ih =>
      cases event with
      | access a => exact ih.cons_cons _
      | finish owner committed => exact ih.cons _

theorem mem_finished {t : τ} :
    t ∈ finished history ↔ ∃ committed, .finish t committed ∈ history := by
  simp only [finished, List.mem_filterMap]
  constructor
  · rintro ⟨event, hmem, hevent⟩
    cases event with
    | access a => simp at hevent
    | finish owner committed =>
        obtain rfl := Option.some.inj hevent
        exact ⟨committed, hmem⟩
  · rintro ⟨committed, hmem⟩
    exact ⟨.finish t committed, hmem, rfl⟩

theorem commits_sublist_finished : (commits history).Sublist (finished history) := by
  induction history with
  | nil => exact .slnil
  | cons event history ih =>
      cases event with
      | access a => exact ih
      | finish owner committed =>
          cases committed with
          | false => exact ih.cons owner
          | true => exact ih.cons_cons owner

theorem rigorous_nil : Rigorous ([] : List (Event τ ι)) := by
  intro before event after h
  simp at h

theorem Rigorous.concat (h : Rigorous history) (hevent : Admissible history event) :
    Rigorous (history ++ [event]) := by
  intro before found after heq
  rcases List.eq_nil_or_concat after with rfl | ⟨after, last, rfl⟩
  · obtain ⟨rfl, hlast⟩ := List.append_inj' heq rfl
    obtain rfl := List.singleton_inj.mp hlast
    exact hevent
  · have hsplit : history ++ [event] = (before ++ found :: after) ++ [last] := by
      simpa using heq
    obtain ⟨hbefore, -⟩ := List.append_inj' hsplit rfl
    exact h before found after hbefore

theorem Rigorous.left (h : Rigorous (before ++ after)) : Rigorous before := by
  intro front event back heq
  refine h front event (back ++ after) ?_
  simp [heq]

/-- A transaction ends once. -/
theorem Rigorous.nodup (h : Rigorous history) : (finished history).Nodup := by
  induction history using List.reverseRecOn with
  | nil => exact List.nodup_nil
  | append_singleton history event ih =>
      have hevent : Admissible history event := h history event [] rfl
      rw [finished_append]
      cases event with
      | access a => simpa [finished] using ih h.left
      | finish owner committed =>
          refine List.nodup_append.mpr ⟨ih h.left, List.nodup_singleton owner, ?_⟩
          rintro t ht u hu rfl
          obtain rfl : t = owner := by simpa [finished] using hu
          exact hevent ht

/-- Between two conflicting accesses the first transaction ends. -/
theorem Rigorous.finished_between (h : Rigorous history) {x y z : List (Event τ ι)}
    {a b : Access τ ι} (heq : history = x ++ .access a :: (y ++ .access b :: z))
    (hconflict : Conflict a b) : a.owner ∈ finished y := by
  have hfirst : a.owner ∉ finished x := (h x (.access a) _ heq).1
  have hsecond := h (x ++ .access a :: y) (.access b) z (by simp [heq])
  have hmem : a.owner ∈ finished (x ++ .access a :: y) := by
    refine hsecond.2 a ?_ hconflict
    rw [accesses_append]
    exact List.mem_append_right _ List.mem_cons_self
  rw [finished_append] at hmem
  exact (List.mem_append.mp hmem).resolve_left hfirst

/-- Conflicts between committed transactions follow the order of their commits. -/
theorem Rigorous.commits_order (h : Rigorous history) {t u : τ} (hedge : Edge history t u) :
    [t, u].Sublist (commits history) := by
  obtain ⟨ht, hu, a, b, hconflict, rfl, rfl, hsub⟩ := hedge
  obtain ⟨front, rest, rfl, hfront, hrest⟩ := List.cons_sublist_iff.mp hsub
  obtain ⟨x, y, rfl⟩ := List.append_of_mem hfront
  obtain ⟨y', z, rfl⟩ := List.append_of_mem (List.singleton_sublist.mp hrest)
  have hsplit : (x ++ Event.access a :: y) ++ (y' ++ Event.access b :: z) =
      x ++ .access a :: ((y ++ y') ++ .access b :: z) := by simp
  have hdone : a.owner ∈ finished (y ++ y') := h.finished_between hsplit hconflict
  have hopen : b.owner ∉ finished (x ++ .access a :: (y ++ y')) :=
    (h _ (.access b) z (by simp)).1
  have hparts : (x ++ Event.access a :: y) ++ (y' ++ Event.access b :: z) =
      (x ++ .access a :: (y ++ y')) ++ .access b :: z := by simp
  rw [hparts] at h ht hu ⊢
  have hnodup := h.nodup
  rw [finished_append] at hnodup
  rw [commits_append] at ht hu ⊢
  have hafter : a.owner ∉ finished (.access b :: z) := by
    refine fun hlate => (List.nodup_append.mp hnodup).2.2 a.owner ?_ a.owner hlate rfl
    have hcons : finished (x ++ .access a :: (y ++ y')) = finished x ++ finished (y ++ y') :=
      finished_append
    rw [hcons]
    exact List.mem_append_right _ hdone
  have hfirst : a.owner ∈ commits (x ++ .access a :: (y ++ y')) :=
    (List.mem_append.mp ht).resolve_right fun hlate =>
      hafter (commits_sublist_finished.subset hlate)
  have hsecond : b.owner ∈ commits (.access b :: z) :=
    (List.mem_append.mp hu).resolve_left fun hearly =>
      hopen (commits_sublist_finished.subset hearly)
  exact (List.singleton_sublist.mpr hfirst).append (List.singleton_sublist.mpr hsecond)

end Rigorous

section Serial

variable [DecidableEq τ] {history : List (Event τ ι)}

/-- The accesses of the committed transactions, as they were made. -/
def committedAccesses (history : List (Event τ ι)) : List (Access τ ι) :=
  (accesses history).filter (·.owner ∈ commits history)

/-- The committed transactions one after another, in the order of their commits. -/
def serial (history : List (Event τ ι)) : List (Access τ ι) :=
  (commits history).flatMap fun t => (accesses history).filter (·.owner = t)

theorem idxOf_lt_of_sublist {order : List τ} (hnodup : order.Nodup) {t u : τ}
    (h : [t, u].Sublist order) : order.idxOf t < order.idxOf u := by
  obtain ⟨front, back, rfl, ht, hu⟩ := List.cons_sublist_iff.mp h
  have hback : u ∈ back := List.singleton_sublist.mp hu
  have hfront : u ∉ front := fun hmem => (List.nodup_append.mp hnodup).2.2 u hmem u hback rfl
  rw [List.idxOf_append, if_pos ht, List.idxOf_append, if_neg hfront]
  exact Nat.lt_of_lt_of_le (List.idxOf_lt_length_of_mem ht) (Nat.le_add_left ..)

/-- The conflicts of committed transactions form no cycle. -/
theorem Rigorous.acyclic (h : Rigorous history) (t : τ) :
    ¬Relation.TransGen (Edge history) t t := by
  have hnodup : (commits history).Nodup := h.nodup.sublist commits_sublist_finished
  have hedge : ∀ {u v}, Edge history u v →
      (commits history).idxOf u < (commits history).idxOf v := by
    intro u v huv
    exact idxOf_lt_of_sublist hnodup (h.commits_order huv)
  have hpath : ∀ {u v}, Relation.TransGen (Edge history) u v →
      (commits history).idxOf u < (commits history).idxOf v := by
    intro u v huv
    induction huv with
    | single hstep => exact hedge hstep
    | tail _ hstep ih => exact Nat.lt_trans ih (hedge hstep)
  exact fun hcycle => Nat.lt_irrefl _ (hpath hcycle)

/-- The committed part of a rigorous history is equivalent to the serial execution in the order of
the commits. -/
theorem Rigorous.equivalent_serial (h : Rigorous history) :
    Equivalent (committedAccesses history) (serial history) := by
  have hnodup : (commits history).Nodup := h.nodup.sublist commits_sublist_finished
  have hpair : (committedAccesses history).Pairwise fun a b =>
      Conflict a b → [a.owner, b.owner].Sublist (commits history) := by
    refine List.pairwise_iff_forall_sublist.mpr fun {a b} hab hconflict => ?_
    have hcommitted : ∀ c ∈ [a, b], c.owner ∈ commits history := fun c hc => by
      simpa using (List.mem_filter.mp (hab.subset hc)).2
    refine h.commits_order ⟨hcommitted a (by simp), hcommitted b (by simp), a, b, hconflict, rfl,
      rfl, ?_⟩
    exact ((hab.trans List.filter_sublist).map Event.access).trans accesses_sublist
  have hparts : serial history = (commits history).flatMap fun t =>
      (committedAccesses history).filter (·.owner = t) := by
    refine List.flatMap_congr fun t ht => ?_
    rw [committedAccesses, List.filter_filter]
    refine List.filter_congr fun a ha => ?_
    by_cases hat : a.owner = t <;> simp [hat, ht]
  rw [hparts]
  refine Equivalent.serial hnodup (fun a ha => ?_) hpair
  simpa using (List.mem_filter.mp ha).2

end Serial

end NovaBase.Lib.Schedule
