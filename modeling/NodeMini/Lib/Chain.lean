import Mathlib.Data.List.Basic
import Mathlib.Logic.Function.Basic
import Mathlib.Data.Set.Defs

/-!
# Chains of links

Nodes of a heap are threaded into a singly linked list by a link function: each node
names its successor, or ends the list. A head and a link function *spell out* a list of
nodes when following the links from the head visits exactly these nodes and then stops.
A head that spells out some list is therefore acyclic; one on a cycle spells out none.

## Main definitions

* `Chain` — a head and a link function spell out a list of nodes
* `Chain.search` — the loop that follows the links to the first node with a property

## Main results

* `Chain.unique`, `Chain.nodup` — a head spells out at most one list, without repetition
* `Chain.congr`, `Chain.push` — links elsewhere are irrelevant; pushing a new head
* `Chain.not_of_successors` — from nodes that all have a successor no chain leads away
* `Chain.search_eq_find?` — on a chain the loop ends, with the first match
* `Chain.search_of_successors` — among such nodes it runs for ever, unless it finds a match
-/

namespace Lib

variable {α : Type*}

/-- Following `next` from `head` visits exactly the nodes of the list and then ends. -/
def Chain (next : α → Option α) : Option α → List α → Prop
  | head, [] => head = none
  | head, a :: l => head = some a ∧ Chain next (next a) l

namespace Chain

variable {next next' : α → Option α} {head : Option α} {a : α} {l l' : List α}

@[simp] theorem nil_iff : Chain next head [] ↔ head = none := Iff.rfl

/-- A head spells out at most one list. -/
theorem unique (h : Chain next head l) (h' : Chain next head l') : l = l' := by
  induction l generalizing head l' with
  | nil =>
    cases l' with
    | nil => rfl
    | cons b l' =>
      rw [nil_iff] at h
      exact absurd (h.symm.trans h'.1) (by simp)
  | cons a l ih =>
    cases l' with
    | nil =>
      rw [nil_iff] at h'
      exact absurd (h'.symm.trans h.1) (by simp)
    | cons b l' =>
      obtain rfl := Option.some.inj (h.1.symm.trans h'.1)
      rw [ih h.2 h'.2]

/-- Every node of a chain heads the rest of it. -/
theorem suffix {r s : List α} (h : Chain next head (r ++ a :: s)) :
    Chain next (some a) (a :: s) := by
  induction r generalizing head with
  | nil => exact ⟨rfl, h.2⟩
  | cons b r ih => exact ih h.2

/-- A chain that ends visits no node twice: a repeated node would head two chains of
different lengths. -/
theorem nodup (h : Chain next head l) : l.Nodup := by
  induction l generalizing head with
  | nil => exact List.nodup_nil
  | cons a l ih =>
    refine List.nodup_cons.mpr ⟨fun ha => ?_, ih h.2⟩
    -- from `a` on, the chain is both the rest after the second `a` and the whole
    obtain ⟨r, s, rfl⟩ := List.append_of_mem ha
    have htail : Chain next (some a) (a :: s) := suffix h.2
    have hwhole : Chain next (some a) (a :: (r ++ a :: s)) := ⟨rfl, h.2⟩
    have hlen := congrArg List.length (unique htail hwhole)
    simp only [List.length_cons, List.length_append] at hlen
    omega

/-- Only the links of the chain's own nodes matter. -/
theorem congr (h : Chain next head l) (heq : ∀ b ∈ l, next' b = next b) :
    Chain next' head l := by
  induction l generalizing head with
  | nil => exact h
  | cons a l ih =>
    refine ⟨h.1, ?_⟩
    rw [heq a (by simp)]
    exact ih h.2 fun b hb => heq b (by simp [hb])

/-- Linking a node in front of the old head extends the chain by that node. -/
theorem push [DecidableEq α] (h : Chain next head l) (ha : a ∉ l) :
    Chain (Function.update next a head) (some a) (a :: l) := by
  refine ⟨rfl, ?_⟩
  rw [Function.update_self]
  -- the old chain does not run through the new node
  refine h.congr fun b hb => Function.update_of_ne ?_ _ _
  rintro rfl
  exact ha hb

/-- From a set in which every node has a successor, no chain leads away. -/
theorem not_of_successors {S : Set α} (hhead : ∃ b ∈ S, head = some b)
    (hnext : ∀ b ∈ S, ∃ c ∈ S, next b = some c) (l : List α) : ¬ Chain next head l := by
  intro h
  induction l generalizing head with
  | nil =>
    obtain ⟨b, -, hb⟩ := hhead
    rw [nil_iff, hb] at h
    cases h
  | cons a l ih =>
    obtain ⟨b, hb, hhead⟩ := hhead
    obtain rfl := Option.some.inj (hhead.symm.trans h.1)
    exact ih (hnext b hb) h.2

/-- `for (p = head; p != nullptr; p = next(p)) if (test(p)) break;` with at most `fuel`
iterations; `none` says that the loop is still running then. -/
def search (next : α → Option α) (test : α → Bool) : ℕ → Option α → Option (Option α)
  | _, none => some none
  | 0, some _ => none
  | fuel + 1, some a => if test a then some (some a) else search next test fuel (next a)

variable {test : α → Bool} {fuel fuel' : ℕ} {found : Option α}

@[simp] theorem search_none : search next test fuel none = some none := by
  cases fuel <;> rfl

/-- A loop that has ended is not changed by more iterations. -/
theorem search_mono (hle : fuel ≤ fuel') (h : search next test fuel head = some found) :
    search next test fuel' head = some found := by
  induction fuel generalizing fuel' head with
  | zero =>
    cases head with
    | none => simpa using h
    | some a => simp [search] at h
  | succ fuel ih =>
    cases head with
    | none => simpa using h
    | some a =>
      obtain ⟨fuel', rfl⟩ : ∃ k, fuel' = k + 1 := ⟨fuel' - 1, by omega⟩
      simp only [search] at h ⊢
      split at h
      · rwa [if_pos ‹_›]
      · rw [if_neg ‹_›]
        exact ih (by omega) h

/-- Two loops that have both ended agree. -/
theorem search_unique {found' : Option α} (h : search next test fuel head = some found)
    (h' : search next test fuel' head = some found') : found = found' := by
  -- both are answers for the larger of the two budgets
  have := search_mono (Nat.le_max_left fuel fuel') h
  rw [search_mono (Nat.le_max_right fuel fuel') h'] at this
  exact (Option.some.inj this).symm

/-- The loop stops only at a node with the property. -/
theorem test_of_search (h : search next test fuel head = some (some a)) : test a := by
  induction fuel generalizing head with
  | zero => cases head <;> simp [search] at h
  | succ fuel ih =>
    cases head with
    | none => simp at h
    | some b =>
      rw [search] at h
      split at h
      · obtain rfl : b = a := by simpa using h
        assumption
      · exact ih h

/-- On a chain the loop ends within the chain's length, with the first match. -/
theorem search_eq_find? (h : Chain next head l) (hfuel : l.length ≤ fuel) :
    search next test fuel head = some (l.find? test) := by
  induction l generalizing head fuel with
  | nil =>
    rw [nil_iff] at h
    simp [h]
  | cons a l ih =>
    obtain ⟨fuel, rfl⟩ : ∃ k, fuel = k + 1 := ⟨fuel - 1, by simp at hfuel; omega⟩
    rw [h.1, search, List.find?_cons]
    cases hta : test a with
    | true => rfl
    | false =>
      exact ih h.2 (by simpa using hfuel)

/-- In a set in which every node has a successor and none the property, it never ends. -/
theorem search_of_successors {S : Set α} (hhead : ∃ b ∈ S, head = some b)
    (hnext : ∀ b ∈ S, ∃ c ∈ S, next b = some c) (htest : ∀ b ∈ S, test b = false) :
    search next test fuel head = none := by
  induction fuel generalizing head with
  | zero =>
    obtain ⟨b, -, rfl⟩ := hhead
    rfl
  | succ fuel ih =>
    obtain ⟨b, hb, rfl⟩ := hhead
    rw [search, htest b hb]
    exact ih (hnext b hb)

end Chain

end Lib
