import Mathlib.Data.List.Basic
import Mathlib.Order.WellFounded

/-!
# Recursive procedures

The body of a recursive procedure, run on a request, may call the procedure again on
other requests and go on with the answers. `Proc` is the tree of these calls, so that one
level of a recursion can be studied on its own; `Proc.exec` ties the knot, with a budget
for the depth of the recursion.

A body that comes to an end whatever it is answered can fail to return only because the
recursion never bottoms out: the procedure returns exactly for the requests from which no
infinite sequence of calls leads away.

## Main definitions

* `Proc` — a computation that may call a procedure, fail, note an event, or run for ever
* `Proc.run` — its outcome, given what the procedure answers
* `Proc.asked`, `Proc.noted` — the calls it makes and the events it notes
* `Proc.exec`, `Proc.events` — the recursive procedure itself
* `Proc.Asks`, `Proc.Ends` — a request leads to another; the procedure returns

## Main results

* `Proc.run_mono`, `Proc.exec_mono` — a larger budget changes no outcome
* `Proc.ends_iff_acc`, `Proc.ends_iff` — the procedure returns exactly if no infinite
  sequence of calls leads away from the request
-/

namespace Lib

/-- Why a computation has no result. -/
inductive Stop (ε : Type)
  /-- It failed with an error. -/
  | failed (e : ε)
  /-- It has not come to an end. -/
  | running
  deriving DecidableEq, Repr

/-- A computation that may call a procedure on requests in `Q` with answers in `R`, fail
with an error in `ε`, and note events in `ν`. -/
inductive Proc (Q R ε ν : Type) (α : Type) : Type
  | pure (a : α)
  | fail (e : ε)
  | running
  | note (n : ν) (k : Proc Q R ε ν α)
  | call (q : Q) (k : R → Proc Q R ε ν α)

namespace Proc

variable {Q R ε ν α β γ : Type}

/-- One computation after another. -/
def bind : Proc Q R ε ν α → (α → Proc Q R ε ν β) → Proc Q R ε ν β
  | .pure a, f => f a
  | .fail e, _ => .fail e
  | .running, _ => .running
  | .note n k, f => .note n (k.bind f)
  | .call q k, f => .call q fun r => (k r).bind f

instance : Monad (Proc Q R ε ν) where
  pure := .pure
  bind := .bind

/-- Call the procedure. -/
def ask (q : Q) : Proc Q R ε ν R := .call q .pure

/-- Note an event. -/
def tell (n : ν) : Proc Q R ε ν Unit := .note n (.pure ())

theorem bind_pure_right (p : Proc Q R ε ν α) : p.bind .pure = p := by
  induction p with
  | pure a => rfl
  | fail e => rfl
  | running => rfl
  | note n k ih => rw [bind, ih]
  | call q k ih =>
    rw [bind]
    congr 1
    funext r
    exact ih r

theorem bind_bind (p : Proc Q R ε ν α) (f : α → Proc Q R ε ν β) (g : β → Proc Q R ε ν γ) :
    (p.bind f).bind g = p.bind fun a => (f a).bind g := by
  induction p with
  | pure a => rfl
  | fail e => rfl
  | running => rfl
  | note n k ih => simp only [bind, ih]
  | call q k ih =>
    simp only [bind]
    congr 1
    funext r
    exact ih r

instance : LawfulMonad (Proc Q R ε ν) :=
  LawfulMonad.mk' _ bind_pure_right (fun _ _ => rfl) bind_bind

/-! ## One level -/

/-- The outcome when the procedure answers as `o` does. -/
def run (o : Q → Except (Stop ε) R) : Proc Q R ε ν α → Except (Stop ε) α
  | .pure a => .ok a
  | .fail e => .error (.failed e)
  | .running => .error .running
  | .note _ k => k.run o
  | .call q k =>
    match o q with
    | .ok r => (k r).run o
    | .error s => .error s

/-- The requests on which the procedure is called. -/
def asked (o : Q → Except (Stop ε) R) : Proc Q R ε ν α → List Q
  | .pure _ => []
  | .fail _ => []
  | .running => []
  | .note _ k => k.asked o
  | .call q k =>
    match o q with
    | .ok r => q :: (k r).asked o
    | .error _ => [q]

/-- The events that are noted, where the call on `q` notes `sub q`. -/
def noted (o : Q → Except (Stop ε) R) (sub : Q → List ν) : Proc Q R ε ν α → List ν
  | .pure _ => []
  | .fail _ => []
  | .running => []
  | .note n k => n :: k.noted o sub
  | .call q k =>
    match o q with
    | .ok r => sub q ++ (k r).noted o sub
    | .error _ => sub q

/-- The computation comes to an end whatever the procedure answers. -/
def Settles : Proc Q R ε ν α → Prop
  | .pure _ => True
  | .fail _ => True
  | .running => False
  | .note _ k => k.Settles
  | .call _ k => ∀ r, (k r).Settles

variable {o o' : Q → Except (Stop ε) R} {sub : Q → List ν} {p : Proc Q R ε ν α}
  {f : α → Proc Q R ε ν β} {a : α} {b : β} {q : Q}

section Call

variable {k : R → Proc Q R ε ν α} {r : R} {s : Stop ε}

theorem run_call_of_ok (h : o q = .ok r) : (call q k).run o = (k r).run o := by rw [run, h]

theorem run_call_of_error (h : o q = .error s) : (call q k).run o = .error s := by rw [run, h]

theorem asked_call_of_ok (h : o q = .ok r) : (call q k).asked o = q :: (k r).asked o := by
  rw [asked, h]

theorem asked_call_of_error (h : o q = .error s) : (call q k).asked o = [q] := by rw [asked, h]

theorem noted_call_of_ok (h : o q = .ok r) :
    (call q k).noted o sub = sub q ++ (k r).noted o sub := by rw [noted, h]

theorem mem_asked_call : q ∈ (call q k).asked o := by
  rw [asked]
  cases o q <;> simp

end Call

@[simp] theorem run_pure : (pure a : Proc Q R ε ν α).run o = .ok a := rfl

@[simp] theorem run_ask : (ask q : Proc Q R ε ν R).run o = o q := by
  rw [ask, run]
  cases o q <;> rfl

@[simp] theorem run_tell_bind {n : ν} {g : Unit → Proc Q R ε ν β} :
    (tell n >>= g).run o = (g ()).run o := rfl

@[simp] theorem noted_tell_bind {n : ν} {g : Unit → Proc Q R ε ν β} :
    (tell n >>= g).noted o sub = n :: (g ()).noted o sub := rfl

@[simp] theorem run_bind : (p >>= f).run o = p.run o >>= fun a => (f a).run o := by
  change (p.bind f).run o = _
  induction p with
  | pure a => rfl
  | fail e => rfl
  | running => rfl
  | note n k ih => exact ih
  | call q k ih =>
    rw [bind, run, run]
    cases o q with
    | ok r => exact ih r
    | error s => rfl

/-- A computation that returns has returned from each of its parts. -/
theorem run_bind_eq_ok : (p >>= f).run o = .ok b ↔ ∃ a, p.run o = .ok a ∧ (f a).run o = .ok b := by
  rw [run_bind]
  cases p.run o with
  | ok a => exact ⟨fun h => ⟨a, rfl, h⟩, fun ⟨_, ha, h⟩ => by cases ha; exact h⟩
  | error s => exact ⟨fun h => (by cases h), fun ⟨_, ha, _⟩ => (by cases ha)⟩

theorem noted_bind (h : p.run o = .ok a) :
    (p >>= f).noted o sub = p.noted o sub ++ (f a).noted o sub := by
  change (p.bind f).noted o sub = _
  induction p with
  | pure a' =>
    cases h
    rfl
  | fail e => cases h
  | running => cases h
  | note n k ih => exact congrArg (n :: ·) (ih h)
  | call q k ih =>
    cases hq : o q with
    | ok r =>
      rw [run_call_of_ok hq] at h
      rw [bind, noted_call_of_ok hq, noted_call_of_ok hq, ih r h, List.append_assoc]
    | error s =>
      rw [run_call_of_error hq] at h
      cases h

theorem noted_bind_of_error {s : Stop ε} (h : p.run o = .error s) :
    (p >>= f).noted o sub = p.noted o sub := by
  change (p.bind f).noted o sub = _
  induction p with
  | pure a' => cases h
  | fail e => rfl
  | running => rfl
  | note n k ih => exact congrArg (n :: ·) (ih h)
  | call q k ih =>
    cases hq : o q with
    | ok r =>
      rw [run_call_of_ok hq] at h
      rw [bind, noted_call_of_ok hq, noted_call_of_ok hq, ih r h]
    | error s' => rw [bind, noted, noted, hq]

/-- Calls one after another. -/
theorem run_mapM_ask (g : β → Q) (l : List β) :
    (l.mapM fun b => (ask (g b) : Proc Q R ε ν R)).run o = l.mapM fun b => o (g b) := by
  induction l with
  | nil => rfl
  | cons b l ih =>
    rw [List.mapM_cons, List.mapM_cons, run_bind, run_ask]
    congr 1
    funext r
    rw [run_bind, ih]
    rfl

theorem run_foldlM (g : α → β → Proc Q R ε ν α) (l : List β) (a : α) :
    (l.foldlM g a).run o = l.foldlM (fun a b => (g a b).run o) a := by
  induction l generalizing a with
  | nil => rfl
  | cons b l ih =>
    rw [List.foldlM_cons, List.foldlM_cons, run_bind]
    congr 1
    funext a'
    exact ih a'

theorem noted_mapM_ask (g : β → Q) (l : List β) (hsub : ∀ q, sub q = []) :
    (l.mapM fun b => (ask (g b) : Proc Q R ε ν R)).noted o sub = [] := by
  induction l with
  | nil => rfl
  | cons b l ih =>
    have hask : (ask (g b) : Proc Q R ε ν R).noted o sub = [] := by
      rw [ask, noted, hsub]
      cases o (g b) <;> rfl
    rw [List.mapM_cons]
    cases hb : o (g b) with
    | error s => rw [noted_bind_of_error (by rw [run_ask, hb]), hask]
    | ok r =>
      rw [noted_bind (by rw [run_ask, hb]), hask, List.nil_append]
      cases hl : (l.mapM fun b => (ask (g b) : Proc Q R ε ν R)).run o with
      | error s => rw [noted_bind_of_error hl, ih]
      | ok rs =>
        rw [noted_bind hl, ih]
        rfl

theorem settles_bind (hp : p.Settles) (hf : ∀ a, (f a).Settles) : (p >>= f).Settles := by
  change (p.bind f).Settles
  induction p with
  | pure a => exact hf a
  | fail e => trivial
  | running => exact hp
  | note n k ih => exact ih hp
  | call q k ih => exact fun r => ih r (hp r)

theorem settles_ask (q : Q) : (ask q : Proc Q R ε ν R).Settles := fun _ => trivial

theorem settles_mapM {g : β → Proc Q R ε ν α} (hg : ∀ b, (g b).Settles) (l : List β) :
    (l.mapM g).Settles := by
  induction l with
  | nil => trivial
  | cons b l ih =>
    rw [List.mapM_cons]
    exact settles_bind (hg b) fun a => settles_bind ih fun _ => trivial

theorem settles_foldlM {g : α → β → Proc Q R ε ν α} (hg : ∀ a b, (g a b).Settles) (l : List β)
    (a : α) : (l.foldlM g a).Settles := by
  induction l generalizing a with
  | nil => trivial
  | cons b l ih =>
    rw [List.foldlM_cons]
    exact settles_bind (hg a b) ih

/-! ## What a computation that returns has noted -/

/-- If the computation returns, everything it has noted satisfies `P`. -/
def Notes (P : ν → Prop) (o : Q → Except (Stop ε) R) (sub : Q → List ν)
    (p : Proc Q R ε ν α) : Prop :=
  ∀ a, p.run o = .ok a → ∀ n ∈ p.noted o sub, P n

section Notes

variable {P : ν → Prop}

theorem notes_pure (a : α) : (pure a : Proc Q R ε ν α).Notes P o sub := by
  intro a' _ n hn
  cases hn

theorem notes_bind (hp : p.Notes P o sub) (hf : ∀ a, p.run o = .ok a → (f a).Notes P o sub) :
    (p >>= f).Notes P o sub := by
  intro b hb n hn
  obtain ⟨a, ha, hb⟩ := run_bind_eq_ok.mp hb
  rw [noted_bind ha, List.mem_append] at hn
  rcases hn with hn | hn
  · exact hp a ha n hn
  · exact hf a ha b hb n hn

/-- A call notes what the procedure notes. -/
theorem notes_ask (hsub : ∀ q r, o q = .ok r → ∀ n ∈ sub q, P n) (q : Q) :
    (ask q : Proc Q R ε ν R).Notes P o sub := by
  intro r hr n hn
  rw [run_ask] at hr
  rw [ask, noted_call_of_ok hr] at hn
  exact hsub q r hr n (by simpa [noted] using hn)

theorem notes_mapM {g : β → Proc Q R ε ν α} (hg : ∀ b, (g b).Notes P o sub) (l : List β) :
    (l.mapM g).Notes P o sub := by
  induction l with
  | nil => exact notes_pure []
  | cons b l ih =>
    rw [List.mapM_cons]
    exact notes_bind (hg b) fun a _ => notes_bind ih fun as _ => notes_pure (a :: as)

theorem notes_foldlM {g : α → β → Proc Q R ε ν α} (hg : ∀ a b, (g a b).Notes P o sub)
    (l : List β) (a : α) : (l.foldlM g a).Notes P o sub := by
  induction l generalizing a with
  | nil => exact notes_pure a
  | cons b l ih =>
    rw [List.foldlM_cons]
    exact notes_bind (hg a b) fun a' _ => ih a'

end Notes

/-! ## How a computation fails, and what it calls -/

/-- Whatever error the computation fails with satisfies `P`. -/
def Fails (P : ε → Prop) (o : Q → Except (Stop ε) R) (p : Proc Q R ε ν α) : Prop :=
  ∀ e, p.run o = .error (.failed e) → P e

section Fails

variable {P : ε → Prop}

theorem fails_pure (a : α) : (pure a : Proc Q R ε ν α).Fails P o := by
  intro e he
  cases he

theorem fails_bind (hp : p.Fails P o) (hf : ∀ a, (f a).Fails P o) : (p >>= f).Fails P o := by
  intro e he
  rw [run_bind] at he
  cases hrun : p.run o with
  | ok a =>
    rw [hrun] at he
    exact hf a e he
  | error s =>
    rw [hrun] at he
    cases he
    exact hp e hrun

theorem fails_ask (h : ∀ q e, o q = .error (.failed e) → P e) (q : Q) :
    (ask q : Proc Q R ε ν R).Fails P o := by
  intro e he
  rw [run_ask] at he
  exact h q e he

theorem fails_mapM {g : β → Proc Q R ε ν α} (hg : ∀ b, (g b).Fails P o) (l : List β) :
    (l.mapM g).Fails P o := by
  induction l with
  | nil => exact fails_pure []
  | cons b l ih =>
    rw [List.mapM_cons]
    exact fails_bind (hg b) fun a => fails_bind ih fun as => fails_pure (a :: as)

end Fails

theorem mem_asked_bind :
    q ∈ (p >>= f).asked o ↔ q ∈ p.asked o ∨ ∃ a, p.run o = .ok a ∧ q ∈ (f a).asked o := by
  change q ∈ (p.bind f).asked o ↔ _
  induction p with
  | pure a => simp [bind, asked, run]
  | fail e => simp [bind, asked, run]
  | running => simp [bind, asked, run]
  | note n k ih => exact ih
  | call q' k ih =>
    cases hq' : o q' with
    | ok r =>
      rw [bind, asked_call_of_ok hq', asked_call_of_ok hq', run_call_of_ok hq', List.mem_cons,
        List.mem_cons, ih r, or_assoc]
    | error s =>
      rw [bind, asked_call_of_error hq', asked_call_of_error hq', run_call_of_error hq']
      simp

theorem mem_asked_mapM_ask {g : β → Q} {l : List β}
    (h : q ∈ (l.mapM fun b => (ask (g b) : Proc Q R ε ν R)).asked o) : ∃ b ∈ l, q = g b := by
  induction l with
  | nil => cases h
  | cons b l ih =>
    rw [List.mapM_cons, mem_asked_bind] at h
    rcases h with h | ⟨r, -, h⟩
    · have hask : (ask (g b) : Proc Q R ε ν R).asked o = [g b] := by
        rw [ask, asked]
        cases o (g b) <;> rfl
      rw [hask, List.mem_singleton] at h
      exact ⟨b, List.mem_cons_self, h⟩
    · rw [mem_asked_bind] at h
      rcases h with h | ⟨rs, -, h⟩
      · obtain ⟨b', hb', hq⟩ := ih h
        exact ⟨b', List.mem_cons_of_mem b hb', hq⟩
      · cases h

/-! ## Budgets -/

/-- `o'` answers every request that `o` answers, and in the same way. -/
def Refines (o o' : Q → Except (Stop ε) R) : Prop := ∀ q, o q ≠ .error .running → o' q = o q

/-- An outcome does not change when the procedure answers more. -/
theorem run_mono (h : Refines o o') (hp : p.run o ≠ .error .running) : p.run o' = p.run o := by
  induction p with
  | pure a => rfl
  | fail e => rfl
  | running => rfl
  | note n k ih => exact ih hp
  | call q k ih =>
    cases hq : o q with
    | ok r =>
      have hq' : o' q = .ok r := (h q (by simp [hq])).trans hq
      rw [run_call_of_ok hq] at hp
      rw [run_call_of_ok hq, run_call_of_ok hq', ih r hp]
    | error s =>
      rw [run_call_of_error hq] at hp
      have hq' : o' q = .error s := (h q (by simpa [hq] using hp)).trans hq
      rw [run_call_of_error hq, run_call_of_error hq']

/-- A call is made also when the procedure answers more. -/
theorem asked_subset (h : Refines o o') : p.asked o ⊆ p.asked o' := by
  induction p with
  | pure a => exact List.Subset.refl _
  | fail e => exact List.Subset.refl _
  | running => exact List.Subset.refl _
  | note n k ih => exact ih
  | call q k ih =>
    cases hq : o q with
    | ok r =>
      have hq' : o' q = .ok r := (h q (by simp [hq])).trans hq
      rw [asked_call_of_ok hq, asked_call_of_ok hq']
      exact List.cons_subset_cons q (ih r)
    | error s =>
      rw [asked_call_of_error hq]
      intro q' hq'
      rw [List.mem_singleton.mp hq']
      exact mem_asked_call

/-- A computation that has come to an end makes no further calls. -/
theorem asked_eq (h : Refines o o') (hp : p.run o ≠ .error .running) : p.asked o' = p.asked o := by
  induction p with
  | pure a => rfl
  | fail e => rfl
  | running => rfl
  | note n k ih => exact ih hp
  | call q k ih =>
    cases hq : o q with
    | ok r =>
      have hq' : o' q = .ok r := (h q (by simp [hq])).trans hq
      rw [run_call_of_ok hq] at hp
      rw [asked_call_of_ok hq, asked_call_of_ok hq', ih r hp]
    | error s =>
      rw [run_call_of_error hq] at hp
      have hq' : o' q = .error s := (h q (by simpa [hq] using hp)).trans hq
      rw [asked_call_of_error hq, asked_call_of_error hq']

/-- Each call of a computation that has come to an end has come to an end. -/
theorem answered (hp : p.run o ≠ .error .running) (hq : q ∈ p.asked o) : o q ≠ .error .running := by
  induction p with
  | pure a => simp [asked] at hq
  | fail e => simp [asked] at hq
  | running => simp [asked] at hq
  | note n k ih => exact ih hp hq
  | call q' k ih =>
    cases hq' : o q' with
    | ok r =>
      rw [run_call_of_ok hq'] at hp
      rw [asked_call_of_ok hq'] at hq
      rcases List.mem_cons.mp hq with rfl | hq
      · simp [hq']
      · exact ih r hp hq
    | error s =>
      rw [run_call_of_error hq'] at hp
      rw [asked_call_of_error hq'] at hq
      rw [List.mem_singleton.mp hq, hq']
      simpa using hp

/-! ## The recursion -/

/-- The procedure with the given body, with a budget for the depth of the recursion. -/
def exec (body : Q → Proc Q R ε ν R) : ℕ → Q → Except (Stop ε) R
  | 0, _ => .error .running
  | fuel + 1, q => (body q).run (exec body fuel)

/-- The events noted on all levels. -/
def events (body : Q → Proc Q R ε ν R) : ℕ → Q → List ν
  | 0, _ => []
  | fuel + 1, q => (body q).noted (exec body fuel) (events body fuel)

/-- What every level notes when it returns, given that its calls do, all levels do. -/
theorem events_of_notes {body : Q → Proc Q R ε ν R} {P : ν → Prop}
    (h : ∀ o sub, (∀ q r, o q = .ok r → ∀ n ∈ sub q, P n) → ∀ q, (body q).Notes P o sub)
    {fuel : ℕ} {q : Q} {r : R} (hr : exec body fuel q = .ok r) : ∀ n ∈ events body fuel q, P n := by
  induction fuel generalizing q r with
  | zero => cases hr
  | succ fuel ih => exact h _ _ (fun q r hq => ih hq) q r hr

/-- What every level fails with, given that its calls do, all levels do. -/
theorem exec_fails {body : Q → Proc Q R ε ν R} {P : ε → Prop}
    (h : ∀ o, (∀ q e, o q = .error (.failed e) → P e) → ∀ q, (body q).Fails P o)
    {fuel : ℕ} {q : Q} {e : ε} (he : exec body fuel q = .error (.failed e)) : P e := by
  induction fuel generalizing q e with
  | zero => cases he
  | succ fuel ih => exact h _ (fun q e hq => ih hq) q e he

/-- Run on `q`, the body calls the procedure on `q'`. -/
def Asks (body : Q → Proc Q R ε ν R) (q q' : Q) : Prop :=
  ∃ fuel, q' ∈ (body q).asked (exec body fuel)

/-- The procedure comes to an end, with an answer or an error. -/
def Ends (body : Q → Proc Q R ε ν R) (q : Q) : Prop := ∃ fuel, exec body fuel q ≠ .error .running

variable {body : Q → Proc Q R ε ν R} {fuel fuel' : ℕ}

theorem exec_refines_succ : Refines (exec body fuel) (exec body (fuel + 1)) := by
  induction fuel with
  | zero => exact fun q hq => absurd rfl hq
  | succ fuel ih => exact fun q hq => run_mono ih hq

theorem exec_refines (h : fuel ≤ fuel') : Refines (exec body fuel) (exec body fuel') := by
  induction h with
  | refl => exact fun q _ => rfl
  | step _ ih =>
    intro q hq
    have hq' := ih q hq
    rw [← hq']
    exact exec_refines_succ q (by rwa [hq'])

/-- A larger budget changes no outcome. -/
theorem exec_mono (h : fuel ≤ fuel') (hq : exec body fuel q ≠ .error .running) :
    exec body fuel' q = exec body fuel q := exec_refines h q hq

/-- A computation that comes to an end whatever it is answered does so with a budget that
is large enough for each of its calls. -/
theorem exists_run_ne_running (hp : p.Settles)
    (hcalls : ∀ fuel, ∀ q ∈ p.asked (exec body fuel), Ends body q) :
    ∃ fuel, p.run (exec body fuel) ≠ .error .running := by
  induction p with
  | pure a => exact ⟨0, by simp [run]⟩
  | fail e => exact ⟨0, by simp [run]⟩
  | running => exact hp.elim
  | note n k ih => exact ih hp hcalls
  | call q k ih =>
    obtain ⟨fuel, hfuel⟩ := hcalls 0 q mem_asked_call
    cases hq : exec body fuel q with
    | error s =>
      refine ⟨fuel, ?_⟩
      rw [run_call_of_error hq]
      simpa [hq] using hfuel
    | ok r =>
      have hlarge : ∀ m, exec body (max fuel m) q = .ok r := fun m =>
        (exec_mono (le_max_left fuel m) hfuel).trans hq
      -- the rest has a budget of its own; take the larger of the two
      obtain ⟨fuel', hfuel'⟩ := ih r (hp r) fun m q' hq' => by
        refine hcalls (max fuel m) q' ?_
        rw [asked_call_of_ok (hlarge m)]
        exact List.mem_cons_of_mem q (asked_subset (exec_refines (le_max_right fuel m)) hq')
      refine ⟨max fuel fuel', ?_⟩
      rw [run_call_of_ok (hlarge fuel'), run_mono (exec_refines (le_max_right fuel fuel')) hfuel']
      exact hfuel'

/-- The procedure comes to an end exactly if its calls are well-founded there. -/
theorem ends_iff_acc (hbody : ∀ q, (body q).Settles) :
    Ends body q ↔ Acc (fun q' q => Asks body q q') q := by
  constructor
  · rintro ⟨fuel, hfuel⟩
    -- the calls of a run with this budget are runs with a smaller one
    induction fuel generalizing q with
    | zero => exact absurd rfl hfuel
    | succ fuel ih =>
      refine Acc.intro q fun q' hq' => ih ?_
      obtain ⟨m, hm⟩ := hq'
      have hask := asked_subset (exec_refines (le_max_right fuel m)) hm
      rw [asked_eq (exec_refines (le_max_left fuel m)) hfuel] at hask
      exact answered hfuel hask
  · intro h
    induction h with
    | intro q _ ih =>
      obtain ⟨fuel, hfuel⟩ :=
        exists_run_ne_running (hbody q) fun fuel q' hq' => ih q' ⟨fuel, hq'⟩
      exact ⟨fuel + 1, hfuel⟩

/-- A measure that each call makes smaller brings the procedure to an end. -/
theorem ends_of_measure (hbody : ∀ q, (body q).Settles) (size : Q → ℕ)
    (h : ∀ q q', Asks body q q' → size q' < size q) (q : Q) : Ends body q :=
  (ends_iff_acc hbody).mpr
    (Subrelation.accessible (fun {q' q} => h q q') ((measure size).wf.apply q))

/-- The procedure comes to an end exactly if no infinite sequence of calls leads away. -/
theorem ends_iff (hbody : ∀ q, (body q).Settles) :
    Ends body q ↔ ¬ ∃ f : ℕ → Q, f 0 = q ∧ ∀ n, Asks body (f n) (f (n + 1)) := by
  rw [ends_iff_acc hbody, ← not_iff_not, not_not]
  exact not_acc_iff_exists_descending_chain

end Proc

end Lib
