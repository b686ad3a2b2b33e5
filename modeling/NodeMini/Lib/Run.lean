import Mathlib.Data.List.Basic

/-!
# Runs of a fallible step

A component answers requests one at a time; each request either is answered, changing
the state, or stops the component for good. A run feeds a list of requests and records
the answers. An assertion about the record so far and the state that holds at the start
and is kept by each step holds after every run.

## Main definitions

* `run` — the record of requests and answers, and the final state

## Main results

* `except_bind_eq_ok` — taking a fallible sequence apart
* `run_append` — a run is the run of its first part followed by the rest
* `run_induction` — the invariant rule
* `run_returns` — no run stops when the invariant guarantees every answer
-/

namespace Lib

universe u

variable {ε : Type*} {α β σ : Type u}

theorem except_bind_eq_ok {x : Except ε α} {f : α → Except ε β} {b : β} :
    (x >>= f) = .ok b ↔ ∃ a, x = .ok a ∧ f a = .ok b := by
  cases x <;> simp [bind, Except.bind]

/-- If each of several fallible computations returns, so do all of them in turn. -/
theorem exists_mapM_eq_ok {f : α → Except ε β} {l : List α} (h : ∀ a ∈ l, ∃ b, f a = .ok b) :
    ∃ bs, l.mapM f = .ok bs := by
  induction l with
  | nil => exact ⟨[], rfl⟩
  | cons a l ih =>
    obtain ⟨b, hb⟩ := h a List.mem_cons_self
    obtain ⟨bs, hbs⟩ := ih fun a' ha' => h a' (List.mem_cons_of_mem a ha')
    refine ⟨b :: bs, ?_⟩
    rw [List.mapM_cons]
    exact except_bind_eq_ok.mpr ⟨b, hb, except_bind_eq_ok.mpr ⟨bs, hbs, rfl⟩⟩

/-- Feed the requests in order; the record pairs each one with its answer. -/
def run (step : σ → α → Except ε (β × σ)) : σ → List α → Except ε (List (α × β) × σ)
  | s, [] => .ok ([], s)
  | s, a :: as => do
    let (b, s) ← step s a
    let (record, s) ← run step s as
    return ((a, b) :: record, s)

variable {step : σ → α → Except ε (β × σ)} {s s' : σ} {a : α} {as bs : List α}
  {record : List (α × β)}

theorem run_nil_eq_ok : run step s [] = .ok (record, s') ↔ record = [] ∧ s' = s := by
  simp only [run, Except.ok.injEq, Prod.mk.injEq]
  exact and_congr eq_comm eq_comm

theorem run_cons_eq_ok :
    run step s (a :: as) = .ok (record, s') ↔
      ∃ b s₁ rest, step s a = .ok (b, s₁) ∧ run step s₁ as = .ok (rest, s') ∧
        record = (a, b) :: rest := by
  rw [run, except_bind_eq_ok]
  constructor
  · rintro ⟨⟨b, s₁⟩, hstep, h⟩
    obtain ⟨⟨rest, s₂⟩, hrun, h⟩ := except_bind_eq_ok.mp h
    obtain ⟨rfl, rfl⟩ := Prod.mk.inj (Except.ok.inj h)
    exact ⟨b, s₁, rest, hstep, hrun, rfl⟩
  · rintro ⟨b, s₁, rest, hstep, hrun, rfl⟩
    exact ⟨(b, s₁), hstep, except_bind_eq_ok.mpr ⟨(rest, s'), hrun, rfl⟩⟩

/-- The record lists the requests in order. -/
theorem run_requests (h : run step s as = .ok (record, s')) : record.map Prod.fst = as := by
  induction as generalizing s record with
  | nil => rw [(run_nil_eq_ok.mp h).1, List.map_nil]
  | cons a as ih =>
    obtain ⟨b, s₁, rest, -, hrun, rfl⟩ := run_cons_eq_ok.mp h
    rw [List.map_cons, ih hrun]

/-- A run over two lists of requests passes through the state after the first. -/
theorem run_append :
    run step s (as ++ bs) = .ok (record, s') ↔
      ∃ s₁ r₁ r₂, run step s as = .ok (r₁, s₁) ∧ run step s₁ bs = .ok (r₂, s') ∧
        record = r₁ ++ r₂ := by
  -- the state moves with the first list, the second stays
  induction as generalizing s record with
  | nil =>
    constructor
    · exact fun h => ⟨s, [], record, run_nil_eq_ok.mpr ⟨rfl, rfl⟩, h, rfl⟩
    · rintro ⟨s₁, r₁, r₂, h₁, h₂, rfl⟩
      obtain ⟨rfl, rfl⟩ := run_nil_eq_ok.mp h₁
      exact h₂
  | cons a as ih =>
    rw [List.cons_append, run_cons_eq_ok]
    constructor
    · rintro ⟨b, s₁, rest, hstep, hrun, rfl⟩
      obtain ⟨s₂, r₁, r₂, h₁, h₂, rfl⟩ := ih.mp hrun
      exact ⟨s₂, (a, b) :: r₁, r₂, run_cons_eq_ok.mpr ⟨b, s₁, r₁, hstep, h₁, rfl⟩, h₂, rfl⟩
    · rintro ⟨s₂, r, r₂, h₁, h₂, rfl⟩
      obtain ⟨b, s₁, r₁, hstep, hrun, rfl⟩ := run_cons_eq_ok.mp h₁
      exact ⟨b, s₁, r₁ ++ r₂, hstep, ih.mpr ⟨s₂, r₁, r₂, hrun, h₂, rfl⟩, rfl⟩

/-- **Invariant rule.** An assertion about the record and the state that every answered
request keeps, and that holds for a record `r`, holds after any run continuing `r`. -/
theorem run_induction_from {motive : List (α × β) → σ → Prop} {r : List (α × β)}
    (hstep : ∀ r s a b s', motive r s → step s a = .ok (b, s') → motive (r ++ [(a, b)]) s')
    (hinit : motive r s) (h : run step s as = .ok (record, s')) : motive (r ++ record) s' := by
  induction as generalizing s r record with
  | nil =>
    obtain ⟨rfl, rfl⟩ := run_nil_eq_ok.mp h
    rwa [List.append_nil]
  | cons a as ih =>
    obtain ⟨b, s₁, rest, hs, hrun, rfl⟩ := run_cons_eq_ok.mp h
    -- the rest of the run continues the record by one entry more
    have := ih (hstep r s a b s₁ hinit hs) hrun
    rwa [List.append_assoc] at this

theorem run_induction {motive : List (α × β) → σ → Prop}
    (hstep : ∀ r s a b s', motive r s → step s a = .ok (b, s') → motive (r ++ [(a, b)]) s')
    (hinit : motive [] s) (h : run step s as = .ok (record, s')) : motive record s' :=
  run_induction_from hstep hinit h

/-- A component whose invariant guarantees an answer never stops. -/
theorem run_returns {motive : σ → Prop}
    (hstep : ∀ s a, motive s → ∃ b s', step s a = .ok (b, s') ∧ motive s') (hinit : motive s)
    (as : List α) : ∃ record s', run step s as = .ok (record, s') := by
  induction as generalizing s with
  | nil => exact ⟨[], s, rfl⟩
  | cons a as ih =>
    obtain ⟨b, s₁, hs, hinv⟩ := hstep s a hinit
    obtain ⟨rest, s', hrun⟩ := ih hinv
    exact ⟨(a, b) :: rest, s', run_cons_eq_ok.mpr ⟨b, s₁, rest, hs, hrun, rfl⟩⟩

end Lib
