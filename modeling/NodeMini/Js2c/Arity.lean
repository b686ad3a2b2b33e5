import NodeMini.Js2c.Derivation
import NodeMini.Js2c.Segments
import NodeMini.Lib.Run

/-!
# Malformed invocations

An invocation is malformed if it supplies fewer arguments than the macro has parameters, or
if its closing delimiter is missing. The arity test of `ExpandMacros` allows one argument
too few, and the scan of the arguments takes the end of the text for a closing delimiter.

## Main definitions

* `Invocation.Complete` — the invocation is not malformed
* `AsRead` — an invocation as the code reads it
* `Rejects` — `ExpandMacros` does not return a text in which it has met a malformed invocation

## Main results

* `run_invoke_of_lt` — two arguments too few raise the exception
* `enough_of_met` — a run that returns has met no such invocation
* `expandMacros_iff` — what can be derived from invocations as the code reads them is returned
* `rejects_iff` — malformed invocations of a text are rejected exactly if it can be expanded
  without any, or not even with those that the code lets pass
* `PythonMacro.expand_of_unbound` — a Python macro raises an exception of its own for what the
  arity test lets pass
-/

namespace NodeMini.Js2c

open Lib

namespace Invocation

/-- The arguments of an invocation. -/
def call (inv : Invocation) : Call := callAt inv.name inv.text

/-- The invocation is closed and has an argument for each parameter. -/
def Complete (inv : Invocation) : Prop :=
  inv.call.closed = true ∧ inv.params.length ≤ inv.call.args.length

instance (inv : Invocation) : Decidable inv.Complete :=
  inferInstanceAs (Decidable (_ ∧ _))

end Invocation

/-- Malformed invocations of the text are rejected. -/
structure Rejects (macros : List (Str × Macro)) (text : Str) : Prop where
  /-- Whenever `ExpandMacros` returns, every invocation it has met was complete: after any other it
  raises an exception. -/
  complete : ∀ fuel result, expandMacros macros fuel text = .ok result →
    ∀ inv ∈ met macros fuel text, inv.Complete
  /-- Whenever it returns, the result is derived from invocations that are written in full: at
  every expansion each parameter is bound to an argument, and every character of the text that is
  not in such an invocation is kept. -/
  derived : ∀ fuel result, expandMacros macros fuel text = .ok result →
    Derives Written macros (.passes macros text) result

/-- What the arity test leaves: at most one argument too few. -/
def Invocation.Enough (inv : Invocation) : Prop :=
  inv.params.length ≤ inv.call.args.length + 1

section Notes

variable {o : Str → Except (Stop MacroError) Str} {sub : Str → List Invocation} {name text : Str}
  {m : Macro} {lineno : ℕ} {P : Invocation → Prop}

/-- With two arguments too few, once the others are expanded, the exception is raised. -/
theorem run_invoke_of_lt (h : (callAt name text).args.length + 1 < m.args.length)
    (hargs : ∀ arg ∈ (callAt name text).args, ∃ value, o (strip arg) = .ok value) :
    (invoke name m lineno text).run o = .error (.failed (.tooFewArguments lineno name)) := by
  obtain ⟨values, hvalues⟩ : ∃ values, ((callAt name text).args.take m.args.length).mapM
      (fun arg => o (strip arg)) = .ok values := by
    refine exists_mapM_eq_ok fun arg harg => hargs arg (List.mem_of_mem_take harg)
  rw [invoke, Proc.run_tell_bind, Proc.run_bind, Proc.run_mapM_ask, hvalues]
  simp only [if_pos h]
  rfl

theorem notes_callExpand (mapping : Dict Str) : (callExpand m mapping).Notes P o sub := by
  intro result _ inv hinv
  rw [noted_callExpand] at hinv
  cases hinv

/-- An invocation that is expanded has passed the arity test. -/
theorem notes_invoke (hsub : ∀ q r, o q = .ok r → ∀ inv ∈ sub q, inv.Enough) :
    (invoke name m lineno text).Notes Invocation.Enough o sub := by
  have hargs : (((callAt name text).args.take m.args.length).mapM fun arg =>
      (Proc.ask (strip arg) : Expansion Str)).Notes Invocation.Enough o sub :=
    Proc.notes_mapM (fun arg => Proc.notes_ask hsub (strip arg)) _
  intro result hresult inv hinv
  rw [invoke] at hresult hinv
  rw [Proc.run_tell_bind] at hresult
  rw [Proc.noted_tell_bind, List.mem_cons] at hinv
  by_cases hlt : (callAt name text).args.length + 1 < m.args.length
  · -- the exception is raised, whatever the arguments are
    simp only [if_pos hlt] at hresult
    obtain ⟨values, -, hfail⟩ := Proc.run_bind_eq_ok.mp hresult
    cases hfail
  · simp only [if_neg hlt] at hresult hinv
    rcases hinv with rfl | hinv
    · exact Nat.le_of_not_lt hlt
    · exact Proc.notes_bind hargs (fun values _ => notes_callExpand _) result hresult inv hinv

theorem notes_expandRest (hsub : ∀ q r, o q = .ok r → ∀ inv ∈ sub q, inv.Enough)
    (done rest : Str) : (expandRest name m done rest).Notes Invocation.Enough o sub := by
  fun_induction expandRest name m done rest with
  | case1 done => exact Proc.notes_pure done
  | case2 done c s h ih => exact Proc.notes_bind (notes_invoke hsub) fun value _ => ih value
  | case3 done c s h ih => exact ih

end Notes

variable {macros : List (Str × Macro)} {fuel : ℕ} {text result : Str}

/-- A run that returns has met no invocation with two arguments too few. -/
theorem enough_of_met (h : expandMacros macros fuel text = .ok result) :
    ∀ inv ∈ met macros fuel text, inv.Enough := by
  refine Proc.events_of_notes (fun o sub hsub lines => ?_) h
  rw [expandTable_eq]
  exact Proc.notes_foldlM (fun lines e => notes_expandRest hsub [] lines) macros lines

/-! ## What is rejected -/

/-- An invocation as the code reads it: one argument may be missing, and so may the closing
delimiter. -/
def AsRead : Reading := fun name params text args rest =>
  Written name (params - 1) text args rest ∨ Unclosed name (params - 1) text args rest

theorem asRead_isCode : Reading.IsCode AsRead Invocation.Enough where
  reads {name text rest params args} hopens := by
    rw [AsRead, written_iff, unclosed_iff, and_iff_right hopens, and_iff_right hopens, ← or_and_right,
      Nat.sub_le_iff_le_add]
    constructor
    · rintro ⟨hcall | hcall, henough⟩ <;> rw [Invocation.Enough, Invocation.call, hcall] <;>
        exact ⟨rfl, rfl, henough⟩
    · rintro ⟨rfl, rfl, henough⟩
      refine ⟨?_, henough⟩
      cases hclosed : (callAt name text).closed with
      | true => exact Or.inl (by rw [← hclosed])
      | false => exact Or.inr (by rw [← hclosed])
  enough _ h := h

theorem written_isCode : Reading.IsCode Written Invocation.Complete where
  reads {name text rest params args} hopens := by
    rw [written_iff, and_iff_right hopens]
    constructor
    · rintro ⟨hcall, henough⟩
      rw [Invocation.Complete, Invocation.call, hcall]
      exact ⟨rfl, rfl, rfl, henough⟩
    · rintro ⟨rfl, rfl, hclosed, henough⟩
      refine ⟨?_, henough⟩
      change (callAt name text).closed = true at hclosed
      rw [← hclosed]
  enough inv h := h.2.trans (Nat.le_succ _)

/-- `ExpandMacros` returns what can be derived from invocations as the code reads them. -/
theorem expandMacros_iff :
    (∃ fuel, expandMacros macros fuel text = .ok result) ↔
      Derives AsRead macros (.passes macros text) result := by
  rw [derives_iff asRead_isCode]
  exact exists_congr fun fuel => (and_iff_left_of_imp enough_of_met).symm

/-- **Which malformed invocations are rejected.** Those of a text are if and only if the text can be
expanded by invocations that are written in full, or cannot be expanded even if one argument and
the closing delimiter may be missing. -/
theorem rejects_iff (macros : List (Str × Macro)) (text : Str) :
    Rejects macros text ↔ Expandable Written macros text ∨ ¬ Expandable AsRead macros text := by
  constructor
  · intro h
    by_cases hread : Expandable AsRead macros text
    · obtain ⟨result, hderives⟩ := hread
      obtain ⟨fuel, hresult⟩ := expandMacros_iff.mpr hderives
      exact Or.inl ⟨result, h.derived fuel result hresult⟩
    · exact Or.inr hread
  · rintro (⟨written, hderives⟩ | hnot)
    · -- there is one result only, and one trace
      have hyields := (derives_iff written_isCode).mp hderives
      constructor
      · intro fuel result hresult
        exact (Proc.Yields.unique hyields hresult).2
      · intro fuel result hresult
        obtain rfl := (Proc.Yields.unique hyields hresult).1
        exact hderives
    · have hnone : ∀ fuel result, expandMacros macros fuel text ≠ .ok result :=
        fun fuel result hresult => hnot ⟨result, expandMacros_iff.mp ⟨fuel, hresult⟩⟩
      exact ⟨fun fuel result h => absurd h (hnone fuel result),
        fun fuel result h => absurd h (hnone fuel result)⟩

/-- `macro h(x, y) = [x|y];` -/
def macroH : Macro := (TextMacro.mk [['x'], ['y']] "[x|y]".toList).toMacro insertionOrder

/-- With one argument too few the parameter stays in the text, and without the closing
delimiter a character of the argument is lost; `ExpandMacros` returns both times. -/
theorem not_rejects :
    expandMacros [(['h'], macroH)] 2 "h(a)".toList = .ok "[a|y]".toList ∧
      expandMacros [(['h'], macroH)] 2 "h(a,bc".toList = .ok "[a|b]".toList ∧
      ¬ Rejects [(['h'], macroH)] "h(a)".toList ∧
      ¬ Rejects [(['h'], macroH)] "h(a,bc".toList := by
  have hshort : expandMacros [(['h'], macroH)] 2 "h(a)".toList = .ok "[a|y]".toList := by decide
  have hopen : expandMacros [(['h'], macroH)] 2 "h(a,bc".toList = .ok "[a|b]".toList := by decide
  refine ⟨hshort, hopen, fun h => ?_, fun h => ?_⟩
  · exact absurd (h.complete 2 _ hshort ⟨['h'], [['x'], ['y']], "h(a)".toList⟩ (by decide))
      (by decide)
  · exact absurd (h.complete 2 _ hopen ⟨['h'], [['x'], ['y']], "h(a,bc".toList⟩ (by decide))
      (by decide)

/-- A Python macro raises a `KeyError` when a parameter is not bound. -/
theorem PythonMacro.expand_of_unbound {m : PythonMacro} {mapping : Dict Str} {arg : Str}
    (harg : arg ∈ m.args) (hunbound : mapping.lookup arg = none) :
    ∃ key, m.expand mapping = .error (.keyError key) := by
  obtain ⟨args, func⟩ := m
  unfold PythonMacro.expand
  change arg ∈ args at harg
  change ∃ key, (args.mapM fun arg => _) >>= func = _
  induction args generalizing func with
  | nil => cases harg
  | cons a args ih =>
    rw [List.mapM_cons]
    cases ha : mapping.lookup a with
    | none => exact ⟨a, rfl⟩
    | some value =>
      have hrest : arg ∈ args := by
        refine (List.mem_cons.mp harg).resolve_left ?_
        rintro rfl
        rw [hunbound] at ha
        cases ha
      obtain ⟨key, hkey⟩ := ih (fun values => func (value :: values)) hrest
      refine ⟨key, ?_⟩
      rw [← hkey]
      simp only [bind_assoc, pure_bind]
      rfl

end NodeMini.Js2c
