import Mathlib.Data.List.Sublists

/-!
# Passes over a state

A list of passes is made over a state, one after another, and each may fail. If all that
matters for the state is which of the passes have been made, then the order of the passes
does not matter for the result.

## Main definitions

* `among` — the set of the passes in a list

## Main results

* `foldlM_among`, `foldl_among` — the state after a list of passes
* `among_congr` — it depends on the members of the list only
* `exists_sublist` — to know all states it is enough to look at the sublists of the passes
-/

namespace Lib

variable {κ ι σ : Type} [DecidableEq κ]

/-- The members of a list, as a set. -/
def among (l : List κ) : κ → Bool := fun k => decide (k ∈ l)

variable {l l' : List κ} {k : κ}

@[simp] theorem among_eq_true_iff : among l k = true ↔ k ∈ l := by
  simp [among]

@[simp] theorem among_eq_false_iff : among l k = false ↔ k ∉ l := by
  simp [among]

theorem among_nil : among ([] : List κ) = fun _ => false := by
  funext k
  simp

theorem among_congr (h : ∀ k, k ∈ l ↔ k ∈ l') : among l = among l' := by
  funext k
  exact decide_eq_decide.mpr (h k)

theorem among_append_singleton (l : List κ) (k : κ) :
    among (l ++ [k]) = fun j => among l j || decide (j = k) := by
  funext j
  simp [among]

/-- A list of some keys has the members of a sublist of them. -/
theorem exists_sublist {keys : List κ} (h : ∀ k ∈ l, k ∈ keys) :
    ∃ done ∈ keys.sublists, ∀ k, k ∈ done ↔ k ∈ l := by
  refine ⟨keys.filter fun k => decide (k ∈ l), List.mem_sublists.mpr List.filter_sublist, ?_⟩
  intro k
  rw [List.mem_filter, decide_eq_true_iff]
  exact ⟨And.right, fun hk => ⟨h k hk, hk⟩⟩

omit [DecidableEq κ] in
/-- A pass whose key is not repeated has not been made before. -/
theorem not_mem_map_of_nodup {key : ι → κ} {done rest : List ι} {e : ι}
    (h : ((done ++ e :: rest).map key).Nodup) : key e ∉ done.map key := by
  rw [List.map_append, List.map_cons] at h
  exact fun hmem => (List.nodup_append.mp h).2.2 _ hmem _ List.mem_cons_self rfl

section Passes

variable {m : Type → Type} [Monad m] [LawfulMonad m] (state : (κ → Bool) → σ) (key : ι → κ)
  (start : List κ) (es : List ι)

/-- If each pass leads from the state for the passes made before to the state for one more,
a list of passes leads to the state for all of them. -/
theorem foldlM_among (pass : σ → ι → m σ)
    (h : ∀ done e rest, es = done ++ e :: rest →
      pass (state (among (start ++ done.map key))) e =
        pure (state fun k => among (start ++ done.map key) k || decide (k = key e))) :
    es.foldlM pass (state (among start)) = pure (state (among (start ++ es.map key))) := by
  have hrest : ∀ rest done, es = done ++ rest →
      rest.foldlM pass (state (among (start ++ done.map key))) =
        pure (state (among (start ++ es.map key))) := by
    intro rest
    induction rest with
    | nil =>
      intro done hes
      rw [hes, List.append_nil]
      rfl
    | cons e rest ih =>
      intro done hes
      have hnext := ih (done ++ [e]) (by rw [hes, List.append_assoc, List.singleton_append])
      rw [List.map_append, List.map_singleton, ← List.append_assoc, among_append_singleton] at hnext
      rw [List.foldlM_cons, h done e rest hes, pure_bind, hnext]
  have hall := hrest es [] rfl
  rwa [List.map_nil, List.append_nil] at hall

/-- The same for passes that cannot fail. -/
theorem foldl_among (pass : σ → ι → σ)
    (h : ∀ done e rest, es = done ++ e :: rest →
      pass (state (among (start ++ done.map key))) e =
        state fun k => among (start ++ done.map key) k || decide (k = key e)) :
    es.foldl pass (state (among start)) = state (among (start ++ es.map key)) := by
  rw [List.foldl_eq_foldlM, foldlM_among state key start es _ fun done e rest hes =>
    congrArg pure (h done e rest hes)]
  rfl

end Passes

end Lib
