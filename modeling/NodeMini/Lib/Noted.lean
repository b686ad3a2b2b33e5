import NodeMini.Lib.Recursion

/-!
# What a computation notes, however it ends

A computation that fails, or has not come to an end, has noted events as well. An assertion
about the outcome of a computation and the events up to there can be proved along its
structure; one about single events then holds on all levels of a recursion.

## Main definitions

* `Proc.Meets` — an assertion about the outcome and the events
* `Proc.Keeps` — every event satisfies a predicate

## Main results

* `Proc.meets_bind` — one computation after another
* `Proc.events_keeps` — what every level keeps, given that its calls do, all levels keep
-/

namespace Lib.Proc

variable {Q R ε ν α β : Type} {o : Q → Except (Stop ε) R} {sub : Q → List ν}
  {p : Proc Q R ε ν α} {f : α → Proc Q R ε ν β}

@[simp] theorem noted_pure {a : α} : (Pure.pure a : Proc Q R ε ν α).noted o sub = [] := rfl

/-! ## Assertions -/

/-- The outcome of the computation and the events it notes satisfy `Φ`. -/
def Meets (o : Q → Except (Stop ε) R) (sub : Q → List ν)
    (Φ : Except (Stop ε) α → List ν → Prop) (p : Proc Q R ε ν α) : Prop :=
  Φ (p.run o) (p.noted o sub)

section Meets

variable {Φ Ψ : Except (Stop ε) α → List ν → Prop} {Χ : Except (Stop ε) β → List ν → Prop}

theorem meets_pure {a : α} (h : Φ (.ok a) []) : (pure a : Proc Q R ε ν α).Meets o sub Φ := h

theorem meets_fail {e : ε} (h : Φ (.error (.failed e)) []) :
    (fail e : Proc Q R ε ν α).Meets o sub Φ := h

theorem meets_running (h : Φ (.error .running) []) :
    (running : Proc Q R ε ν α).Meets o sub Φ := h

theorem meets_tell {n : ν} {Φ : Except (Stop ε) Unit → List ν → Prop} (h : Φ (.ok ()) [n]) :
    (tell n : Proc Q R ε ν Unit).Meets o sub Φ := h

/-- A call has the outcome and the events of the procedure. -/
theorem meets_ask {q : Q} {Φ : Except (Stop ε) R → List ν → Prop} (h : Φ (o q) (sub q)) :
    (ask q : Proc Q R ε ν R).Meets o sub Φ := by
  rw [Meets, run_ask, ask, noted]
  cases hq : o q with
  | ok r =>
    rw [hq] at h
    simpa [noted] using h
  | error s =>
    rw [hq] at h
    exact h

theorem meets_mono (h : p.Meets o sub Φ) (hΦ : ∀ r t, Φ r t → Ψ r t) : p.Meets o sub Ψ :=
  hΦ _ _ h

/-- One computation after another: the second one continues the events of the first. -/
theorem meets_bind (h : p.Meets o sub Φ) (hstop : ∀ s t, Φ (.error s) t → Χ (.error s) t)
    (hgo : ∀ a t, Φ (.ok a) t → (f a).Meets o sub fun r u => Χ r (t ++ u)) :
    (p >>= f).Meets o sub Χ := by
  cases hp : p.run o with
  | ok a =>
    have hrest := hgo a (p.noted o sub) (by rw [← hp]; exact h)
    rw [Meets, run_bind, noted_bind hp, hp]
    exact hrest
  | error s =>
    rw [Meets, run_bind, noted_bind_of_error hp, hp]
    exact hstop s _ (by rw [← hp]; exact h)

end Meets

/-! ## Single events -/

/-- Every event that the computation notes satisfies `P`. -/
def Keeps (o : Q → Except (Stop ε) R) (sub : Q → List ν) (P : ν → Prop)
    (p : Proc Q R ε ν α) : Prop :=
  p.Meets o sub fun _ t => ∀ n ∈ t, P n

section Keeps

variable {P : ν → Prop}

theorem keeps_pure (a : α) : (pure a : Proc Q R ε ν α).Keeps o sub P := meets_pure nofun

theorem keeps_fail (e : ε) : (fail e : Proc Q R ε ν α).Keeps o sub P := meets_fail nofun

theorem keeps_running : (running : Proc Q R ε ν α).Keeps o sub P := meets_running nofun

theorem keeps_tell {n : ν} (h : P n) : (tell n : Proc Q R ε ν Unit).Keeps o sub P :=
  meets_tell fun _ hn => List.mem_singleton.mp hn ▸ h

theorem keeps_ask {q : Q} (h : ∀ n ∈ sub q, P n) : (ask q : Proc Q R ε ν R).Keeps o sub P :=
  meets_ask h

theorem keeps_bind (hp : p.Keeps o sub P) (hf : ∀ a, (f a).Keeps o sub P) :
    (p >>= f).Keeps o sub P := by
  refine meets_bind hp (fun _ _ h => h) fun a t ht => meets_mono (hf a) fun _ u hu n hn => ?_
  rcases List.mem_append.mp hn with hn | hn
  · exact ht n hn
  · exact hu n hn

/-- What every level keeps, given that its calls do, all levels keep. -/
theorem events_keeps {body : Q → Proc Q R ε ν R}
    (h : ∀ o sub, (∀ q, ∀ n ∈ sub q, P n) → ∀ q, (body q).Keeps o sub P) (fuel : ℕ) (q : Q) :
    ∀ n ∈ events body fuel q, P n := by
  induction fuel generalizing q with
  | zero => exact nofun
  | succ fuel ih => exact h _ _ ih q

end Keeps

/-! ## Failures -/

section Fails

variable {P : ε → Prop}

end Fails

end Lib.Proc
