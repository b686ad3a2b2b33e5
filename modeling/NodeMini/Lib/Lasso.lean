import Mathlib.Data.List.Nodup
import Mathlib.Data.List.TakeWhile
import Mathlib.Logic.Relation
import NodeMini.Lib.Chain

/-!
# Links that may come back

Links that are overwritten need not spell out a list any more. Nodes are pushed one after
the other, each linked to the old head; a node that is pushed again gets a new link in
place of its old one. Then the links lead from the head through some nodes, without
visiting one twice, and either end or come back to one of them.

The nodes are known from what has been pushed: they are the longest leading part without
repetition of the sequence of pushes, the most recent first.

## Main definitions

* `fresh` — the longest leading part of a list in which nothing is repeated
* `Leads`, `Lasso` — the links lead through the nodes of a list; they visit each of them
  once, and then end or come back

## Main results

* `fresh_maximal`, `fresh_eq_self_iff` — every leading part without repetition is a part of
  `fresh`
* `Lasso.relink` — pushing a node, new or not
* `Lasso.reaches_iff` — the nodes that the links lead to
* `Lasso.exists_chain_iff` — the links come to an end exactly if they do not come back
* `Lasso.search_of_find?`, `Lasso.search_eq_none` — the loop that follows the links
-/

namespace Lib

variable {α : Type*}

/-! ## Without repetition -/

section Fresh

variable [DecidableEq α] {a : α} {l part : List α}

/-- The longest leading part of a list without repetition. -/
def fresh : List α → List α
  | [] => []
  | a :: l => a :: (fresh l).takeWhile (· ≠ a)

@[simp] theorem fresh_nil : fresh ([] : List α) = [] := rfl

@[simp] theorem fresh_cons : fresh (a :: l) = a :: (fresh l).takeWhile (· ≠ a) := rfl

theorem prefix_fresh (l : List α) : fresh l <+: l := by
  induction l with
  | nil => exact List.prefix_rfl
  | cons a l ih =>
    rw [fresh_cons, List.prefix_cons_inj]
    exact (List.takeWhile_prefix _).trans ih

theorem notMem_takeWhile_ne (a : α) (l : List α) : a ∉ l.takeWhile (· ≠ a) := by
  intro ha
  simpa using List.mem_takeWhile_imp ha

theorem takeWhile_ne_of_notMem (h : a ∉ l) : l.takeWhile (· ≠ a) = l := by
  rw [List.takeWhile_eq_self_iff]
  intro b hb
  rw [decide_eq_true_eq]
  rintro rfl
  exact h hb

theorem nodup_fresh (l : List α) : (fresh l).Nodup := by
  induction l with
  | nil => exact List.nodup_nil
  | cons a l ih =>
    have hpart : ((fresh l).takeWhile (· ≠ a)).Nodup :=
      ih.sublist (List.takeWhile_prefix _).sublist
    exact List.nodup_cons.mpr ⟨notMem_takeWhile_ne a _, hpart⟩

/-- Nothing longer is without repetition. -/
theorem fresh_maximal (h : part <+: l) (hnodup : part.Nodup) : part <+: fresh l := by
  induction l generalizing part with
  | nil => exact h
  | cons a l ih =>
    cases part with
    | nil => exact List.nil_prefix
    | cons b part =>
      obtain ⟨rfl, htail⟩ := List.cons_prefix_cons.mp h
      obtain ⟨hb, hnodup⟩ := List.nodup_cons.mp hnodup
      obtain ⟨rest, hrest⟩ := ih htail hnodup
      rw [fresh_cons, List.prefix_cons_inj, ← hrest]
      -- the node is not in the part, so that all of it is taken
      refine ⟨rest.takeWhile (· ≠ b), ?_⟩
      rw [List.takeWhile_append_of_pos]
      intro c hc
      rw [decide_eq_true_eq]
      rintro rfl
      exact hb hc

theorem fresh_eq_self_iff : fresh l = l ↔ l.Nodup := by
  constructor
  · intro h
    rw [← h]
    exact nodup_fresh l
  · intro h
    exact (prefix_fresh l).eq_of_length_le (fresh_maximal List.prefix_rfl h).length_le

end Fresh

/-! ## Links -/

/-- Following `next` from `head` visits the nodes of the list, and then comes to `after`. -/
def Leads (next : α → Option α) (after : Option α) : Option α → List α → Prop
  | head, [] => head = after
  | head, a :: l => head = some a ∧ Leads next after (next a) l

/-- Following `next` from `head` visits the nodes of the list, each of them once, and then
ends, or comes back to one of them. -/
structure Lasso (next : α → Option α) (head : Option α) (l : List α) (after : Option α) :
    Prop where
  leads : Leads next after head l
  nodup : l.Nodup
  back : ∀ b, after = some b → b ∈ l

variable {next next' : α → Option α} {head after : Option α} {a b : α} {l : List α}

/-- Links that end spell out the nodes. -/
theorem leads_none_iff : Leads next none head l ↔ Chain next head l := by
  induction l generalizing head with
  | nil => exact Iff.rfl
  | cons a l ih => exact and_congr_right fun _ => ih

/-- Only the links of the nodes matter. -/
theorem Leads.congr (h : Leads next after head l) (heq : ∀ b ∈ l, next' b = next b) :
    Leads next' after head l := by
  induction l generalizing head with
  | nil => exact h
  | cons a l ih =>
    refine ⟨h.1, ?_⟩
    rw [heq a List.mem_cons_self]
    exact ih h.2 fun b hb => heq b (List.mem_cons_of_mem a hb)

/-- The links lead from each node to the next one, or behind the last. -/
theorem Leads.next_mem (h : Leads next after head l) (ha : a ∈ l) :
    next a = after ∨ ∃ b ∈ l, next a = some b := by
  induction l generalizing head with
  | nil => cases ha
  | cons c l ih =>
    rcases List.mem_cons.mp ha with rfl | ha
    · cases l with
      | nil => exact Or.inl h.2
      | cons d l => exact Or.inr ⟨d, by simp, h.2.1⟩
    · exact (ih h.2 ha).imp_right fun ⟨b, hb, hnext⟩ => ⟨b, List.mem_cons_of_mem c hb, hnext⟩

/-- Every node is reached from the head. -/
theorem Leads.exists_reflTransGen (h : Leads next after head l) (hb : b ∈ l) :
    ∃ c, head = some c ∧ Relation.ReflTransGen (fun x y => next x = some y) c b := by
  induction l generalizing head with
  | nil => cases hb
  | cons a l ih =>
    refine ⟨a, h.1, ?_⟩
    rcases List.mem_cons.mp hb with rfl | hb
    · exact .refl
    · obtain ⟨c, hc, hpath⟩ := ih h.2 hb
      exact .head hc hpath

/-- Whatever becomes of the link of a node, the links lead to it as before. -/
theorem Leads.takeWhile [DecidableEq α] (h : Leads next after head l) (a : α) :
    Leads next (if a ∈ l then some a else after) head (l.takeWhile (· ≠ a)) := by
  induction l generalizing head with
  | nil => exact h
  | cons b l ih =>
    by_cases hba : b = a
    · subst hba
      rw [if_pos List.mem_cons_self, List.takeWhile_cons_of_neg (by simp)]
      exact h.1
    · rw [List.takeWhile_cons_of_pos (by simpa using hba)]
      have hmem : a ∈ b :: l ↔ a ∈ l := by simp [Ne.symm hba]
      simp only [hmem]
      exact ⟨h.1, ih h.2⟩

namespace Lasso

theorem congr (h : Lasso next head l after) (heq : ∀ b ∈ l, next' b = next b) :
    Lasso next' head l after := ⟨h.leads.congr heq, h.nodup, h.back⟩

/-- A node is linked in front of the head. If the links lead to it already, they come back to
it now, and what was behind it is lost. -/
theorem relink [DecidableEq α] (h : Lasso next head l after) (a : α) :
    Lasso (Function.update next a head) (some a) (a :: l.takeWhile (· ≠ a))
      (if a ∈ l then some a else after) where
  leads := by
    refine ⟨rfl, ?_⟩
    rw [Function.update_self]
    refine (h.leads.takeWhile a).congr fun b hb => Function.update_of_ne ?_ _ _
    rintro rfl
    exact notMem_takeWhile_ne b l hb
  nodup := List.nodup_cons.mpr
    ⟨notMem_takeWhile_ne a l, h.nodup.sublist (List.takeWhile_prefix _).sublist⟩
  back := by
    intro b hb
    split_ifs at hb with ha
    · obtain rfl := Option.some.inj hb
      exact List.mem_cons_self
    · rw [takeWhile_ne_of_notMem ha]
      exact List.mem_cons_of_mem a (h.back b hb)

/-- The head is one of the nodes. -/
theorem head_mem (h : Lasso next head l after) (hhead : head = some a) : a ∈ l := by
  cases l with
  | nil =>
    have hafter : head = after := h.leads
    exact h.back a (hafter ▸ hhead)
  | cons b l =>
    obtain rfl := Option.some.inj (hhead.symm.trans h.leads.1)
    exact List.mem_cons_self

/-- The links stay within the nodes. -/
theorem next_mem (h : Lasso next head l after) (ha : a ∈ l) (hnext : next a = some b) :
    b ∈ l := by
  rcases h.leads.next_mem ha with hafter | ⟨c, hc, hnext'⟩
  · exact h.back b (hafter ▸ hnext)
  · obtain rfl := Option.some.inj (hnext.symm.trans hnext')
    exact hc

/-- The nodes are what the links lead to. -/
theorem reaches_iff (h : Lasso next head l after) :
    (∃ c, head = some c ∧ Relation.ReflTransGen (fun x y => next x = some y) c b) ↔ b ∈ l := by
  constructor
  · rintro ⟨c, hc, hpath⟩
    induction hpath with
    | refl => exact h.head_mem hc
    | tail _ hnext ih => exact h.next_mem ih hnext
  · exact h.leads.exists_reflTransGen

/-- Links that come back lead from every node to another one. -/
theorem exists_next (h : Lasso next head l (some b)) (ha : a ∈ l) : ∃ c ∈ l, next a = some c := by
  rcases h.leads.next_mem ha with hnext | hnext
  · exact ⟨b, h.back b rfl, hnext⟩
  · exact hnext

theorem exists_head (h : Lasso next head l (some b)) : ∃ c ∈ l, head = some c := by
  cases l with
  | nil => exact ⟨b, h.back b rfl, h.leads⟩
  | cons a l => exact ⟨a, List.mem_cons_self, h.leads.1⟩

/-- The links come to an end exactly if they do not come back. -/
theorem exists_chain_iff (h : Lasso next head l after) :
    (∃ l', Chain next head l') ↔ after = none := by
  cases after with
  | none => exact iff_of_true ⟨l, leads_none_iff.mp h.leads⟩ rfl
  | some b =>
    refine iff_of_false ?_ nofun
    rintro ⟨l', hchain⟩
    exact Chain.not_of_successors (S := {a | a ∈ l}) h.exists_head (fun a ha => h.exists_next ha)
      l' hchain

/-! ### The loop that follows the links -/

variable {test : α → Bool} {fuel : ℕ}

/-- It stops at the first node with the property. -/
theorem search_of_find? (h : Lasso next head l after) (hfind : l.find? test = some a)
    (hfuel : l.length ≤ fuel) : Chain.search next test fuel head = some (some a) := by
  have hleads := h.leads
  clear h
  induction l generalizing head fuel with
  | nil => cases hfind
  | cons b l ih =>
    obtain ⟨fuel, rfl⟩ : ∃ k, fuel = k + 1 := ⟨fuel - 1, by simp at hfuel; omega⟩
    rw [hleads.1, Chain.search]
    rw [List.find?_cons] at hfind
    cases htest : test b with
    | true =>
      rw [htest] at hfind
      rw [Option.some.inj hfind, if_pos rfl]
    | false =>
      rw [htest] at hfind
      exact ih hfind (by simpa using hfuel) hleads.2

/-- If none has it and the links come back, it never ends. -/
theorem search_eq_none (h : Lasso next head l (some b)) (hfind : l.find? test = none) :
    Chain.search next test fuel head = none := by
  refine Chain.search_of_successors (S := {a | a ∈ l}) h.exists_head (fun a ha => h.exists_next ha)
    fun a ha => ?_
  simpa using List.find?_eq_none.mp hfind a ha

end Lasso

end Lib
