import Mathlib.Data.List.Forall2
import NodeMini.Lib.Noted

/-!
# What a computation returns

A computation returns a value, and everything it has noted on the way satisfies a
predicate. This can be taken apart along the structure of the computation, in both
directions, and a larger budget for the recursion changes nothing of it. So a recursive
procedure can be compared with rules that derive its results without a budget.

## Main definitions

* `Proc.Returns` — a computation returns a value, having noted nothing else
* `Proc.Yields` — a recursive procedure does

## Main results

* `Proc.returns_bind`, `Proc.returns_mapM_ask` — one computation after another, and calls in turn
* `Proc.events_mono`, `Proc.returns_mono` — a larger budget changes nothing
-/

namespace Lib.Proc

variable {Q R ε ν α β : Type} {o o' : Q → Except (Stop ε) R} {sub sub' : Q → List ν}
  {p : Proc Q R ε ν α} {f : α → Proc Q R ε ν β} {P : ν → Prop} {a : α} {b : β} {q : Q} {r : R}

/-- The computation returns `a`, and every event that it notes satisfies `P`. -/
def Returns (P : ν → Prop) (o : Q → Except (Stop ε) R) (sub : Q → List ν)
    (p : Proc Q R ε ν α) (a : α) : Prop :=
  p.run o = .ok a ∧ ∀ n ∈ p.noted o sub, P n

theorem returns_pure {a' : α} : (Pure.pure a : Proc Q R ε ν α).Returns P o sub a' ↔ a' = a := by
  constructor
  · rintro ⟨h, -⟩
    exact (Except.ok.inj h).symm
  · rintro rfl
    exact ⟨rfl, nofun⟩

theorem not_returns_fail {e : ε} : ¬ (fail e : Proc Q R ε ν α).Returns P o sub a := by
  rintro ⟨h, -⟩
  cases h

theorem returns_bind :
    (p >>= f).Returns P o sub b ↔ ∃ a, p.Returns P o sub a ∧ (f a).Returns P o sub b := by
  constructor
  · rintro ⟨hrun, hnoted⟩
    obtain ⟨a, ha, hb⟩ := run_bind_eq_ok.mp hrun
    rw [noted_bind ha, List.forall_mem_append] at hnoted
    exact ⟨a, ⟨ha, hnoted.1⟩, hb, hnoted.2⟩
  · rintro ⟨a, ⟨ha, hp⟩, hb, hf⟩
    refine ⟨run_bind_eq_ok.mpr ⟨a, ha, hb⟩, ?_⟩
    rw [noted_bind ha, List.forall_mem_append]
    exact ⟨hp, hf⟩

theorem returns_tell_bind {n : ν} {g : Unit → Proc Q R ε ν β} :
    (tell n >>= g).Returns P o sub b ↔ P n ∧ (g ()).Returns P o sub b := by
  unfold Returns
  rw [run_tell_bind, noted_tell_bind, List.forall_mem_cons]
  exact and_left_comm

theorem returns_ask :
    (ask q : Proc Q R ε ν R).Returns P o sub r ↔ o q = .ok r ∧ ∀ n ∈ sub q, P n := by
  unfold Returns
  rw [run_ask]
  refine and_congr_right fun h => ?_
  rw [ask, noted_call_of_ok h, noted, List.append_nil]

/-- Calls one after another return what each of them is answered. -/
theorem returns_mapM_ask {g : β → Q} {l : List β} {rs : List R} :
    (l.mapM fun b => (ask (g b) : Proc Q R ε ν R)).Returns P o sub rs ↔
      List.Forall₂ (fun b r => o (g b) = .ok r ∧ ∀ n ∈ sub (g b), P n) l rs := by
  induction l generalizing rs with
  | nil =>
    rw [List.mapM_nil, returns_pure, List.forall₂_nil_left_iff]
  | cons b l ih =>
    rw [List.mapM_cons, returns_bind, List.forall₂_cons_left_iff]
    constructor
    · rintro ⟨r, hask, hrest⟩
      obtain ⟨rs', hrs', hpure⟩ := returns_bind.mp hrest
      exact ⟨r, rs', returns_ask.mp hask, ih.mp hrs', returns_pure.mp hpure⟩
    · rintro ⟨r, rs', hask, hrs', rfl⟩
      exact ⟨r, returns_ask.mpr hask, returns_bind.mpr ⟨rs', ih.mpr hrs', returns_pure.mpr rfl⟩⟩

/-! ## Budgets -/

/-- A computation that has come to an end notes nothing else when the procedure answers more. -/
theorem noted_mono (h : Refines o o') (hsub : ∀ q, o q ≠ .error .running → sub' q = sub q)
    (hp : p.run o ≠ .error .running) : p.noted o' sub' = p.noted o sub := by
  induction p with
  | pure a => rfl
  | fail e => rfl
  | running => rfl
  | note n k ih => exact congrArg (n :: ·) (ih hp)
  | call q k ih =>
    cases hq : o q with
    | ok r =>
      have hq' : o' q = .ok r := (h q (by simp [hq])).trans hq
      rw [run_call_of_ok hq] at hp
      rw [noted_call_of_ok hq, noted_call_of_ok hq', ih r hp, hsub q (by simp [hq])]
    | error s =>
      rw [run_call_of_error hq] at hp
      have hends : o q ≠ .error .running := by simpa [hq] using hp
      have hq' : o' q = .error s := (h q hends).trans hq
      rw [noted, noted, hq, hq', hsub q hends]

variable {body : Q → Proc Q R ε ν R} {fuel fuel' : ℕ}

/-- A larger budget changes no events. -/
theorem events_mono (hle : fuel ≤ fuel') (hq : exec body fuel q ≠ .error .running) :
    events body fuel' q = events body fuel q := by
  induction fuel generalizing fuel' q with
  | zero => exact absurd rfl hq
  | succ fuel ih =>
    obtain ⟨fuel', rfl⟩ : ∃ n, fuel' = n + 1 := ⟨fuel' - 1, by omega⟩
    have hle' : fuel ≤ fuel' := Nat.le_of_succ_le_succ hle
    exact noted_mono (exec_refines hle') (fun q' hq' => ih hle' hq') hq

/-- What is returned with some budget is returned with a larger one. -/
theorem returns_mono (hle : fuel ≤ fuel')
    (h : p.Returns P (exec body fuel) (events body fuel) a) :
    p.Returns P (exec body fuel') (events body fuel') a := by
  obtain ⟨hrun, hnoted⟩ := h
  have hends : p.run (exec body fuel) ≠ .error .running := by
    rw [hrun]
    nofun
  constructor
  · rw [run_mono (exec_refines hle) hends, hrun]
  · rw [noted_mono (exec_refines hle) (fun q hq => events_mono hle hq) hends]
    exact hnoted

/-- The procedure returns `r`, and all levels note nothing that does not satisfy `P`. -/
def Yields (body : Q → Proc Q R ε ν R) (P : ν → Prop) (q : Q) (r : R) : Prop :=
  ∃ fuel, exec body fuel q = .ok r ∧ ∀ n ∈ events body fuel q, P n

/-- The procedure returns what its body does, with some budget for the calls. -/
theorem yields_iff : Yields body P q r ↔
    ∃ fuel, (body q).Returns P (exec body fuel) (events body fuel) r := by
  constructor
  · rintro ⟨fuel, h, hevents⟩
    cases fuel with
    | zero => cases h
    | succ fuel => exact ⟨fuel, h, hevents⟩
  · rintro ⟨fuel, h⟩
    exact ⟨fuel + 1, h⟩

/-- Whatever the budget, the procedure returns nothing else and notes nothing else. -/
theorem Yields.unique {r' : R} (h : Yields body P q r) (h' : exec body fuel q = .ok r') :
    r' = r ∧ ∀ n ∈ events body fuel q, P n := by
  obtain ⟨fuel', hr, hevents⟩ := h
  have hends : exec body fuel q ≠ .error .running := by
    rw [h']
    nofun
  have hends' : exec body fuel' q ≠ .error .running := by
    rw [hr]
    nofun
  -- both are what happens with the larger budget
  have hexec := exec_mono (Nat.le_max_left fuel fuel') hends
  rw [exec_mono (Nat.le_max_right fuel fuel') hends', hr, h'] at hexec
  refine ⟨(Except.ok.inj hexec).symm, ?_⟩
  rw [← events_mono (Nat.le_max_left fuel fuel') hends,
    events_mono (Nat.le_max_right fuel fuel') hends']
  exact hevents

end Lib.Proc
