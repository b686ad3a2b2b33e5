import NodeMini.Lib.Passes
import NodeMini.Js2c.Segments

/-!
# The calls in a text

A text is made of characters and of calls of macros, and the arguments of a call are texts
again. `ExpandMacros` expands the calls of one macro after another; what it has made of the
text depends on the macros that are done: their calls have been replaced by their
expansions, and the other calls stand there with arguments in which some calls have been
replaced.

A pass for one macro keeps to the calls of the text if its search finds exactly them in
what the text has become. If all passes on all levels do, in whatever order, the result is
the text in which all calls are expanded from the inside out.

## Main definitions

* `Doc`, `Args` — texts with calls, and the arguments of a call
* `Doc.render`, `Doc.value` — the text when some of the macros are done, or all of them
* `Doc.steps`, `Found` — what a pass for one macro has to do, and that its search finds it
* `Doc.Calm` — the passes over the arguments find what they should

## Main results

* `Doc.flatMap_steps` — the steps of a pass make up the text before it and behind it
* `Doc.of_mem_steps` — what a pass expands lies less deep than the text
* `run_steps` — a pass whose search finds the calls of its macro expands them
-/

namespace NodeMini.Js2c

open Lib

mutual

/-- A text with calls of macros. -/
inductive Doc
  | nil
  | char (c : Char) (rest : Doc)
  | call (name : Str) (args : Args) (closing : Str) (rest : Doc)

/-- The arguments of a call, with the white space around each. -/
inductive Args
  | last (before : Str) (arg : Doc) (behind : Str)
  | cons (before : Str) (arg : Doc) (behind : Str) (more : Args)

end

section Render

variable (table : List (Str × Macro)) (done : Str → Bool) (name : Str)

/-- The expansion of a call with the given values of the arguments. -/
def expansion (name : Str) (values : List Str) : Str :=
  match table.lookup name with
  | none => []
  | some m =>
    match m.expand (bindings m.args values) with
    | .ok result => result
    | .error _ => []

mutual

/-- The text, when the macros in `done` are done. -/
def Doc.render : (done : Str → Bool) → Doc → Str
  | _, .nil => []
  | done, .char c rest => c :: rest.render done
  | done, .call name args closing rest =>
    (if done name then expansion table name args.values
      else name ++ '(' :: args.render done ++ closing) ++ rest.render done

/-- The text of the arguments, when the macros in `done` are done. -/
def Args.render : (done : Str → Bool) → Args → Str
  | done, .last before arg behind => before ++ arg.render done ++ behind
  | done, .cons before arg behind more =>
    before ++ arg.render done ++ behind ++ ',' :: more.render done

/-- The values of the arguments. -/
def Args.values : Args → List Str
  | .last _ arg _ => [arg.render fun _ => true]
  | .cons _ arg _ more => (arg.render fun _ => true) :: more.values

end

/-- The text in which all calls are expanded. -/
def Doc.value (doc : Doc) : Str := doc.render table fun _ => true

/-- The text in which no call is. -/
def Doc.source (doc : Doc) : Str := doc.render table fun _ => false

/-- The texts of the arguments, when the macros in `done` are done. -/
def Args.texts : Args → List Str
  | .last before arg behind => [before ++ arg.render table done ++ behind]
  | .cons before arg behind more => (before ++ arg.render table done ++ behind) :: more.texts

/-! ## A pass for one macro -/

/-- What a pass does next: it keeps a character, or it expands a call. -/
inductive Step
  | keep (c : Char)
  | put (args : Args) (closing : Str)

mutual

/-- The steps of a pass for `name` over a text, when the macros in `done` are done. -/
def Doc.steps : Doc → List Step
  | .nil => []
  | .char c rest => .keep c :: rest.steps
  | .call n args closing rest =>
    (if done n then (expansion table n (args.values table)).map .keep
      else if n = name then [.put args closing]
      else (n ++ ['(']).map .keep ++ args.steps ++ closing.map .keep) ++ rest.steps

/-- The steps of a pass over the arguments of another macro. -/
def Args.steps : Args → List Step
  | .last before arg behind => before.map .keep ++ arg.steps ++ behind.map .keep
  | .cons before arg behind more =>
    before.map .keep ++ arg.steps ++ behind.map .keep ++ .keep ',' :: more.steps

end

/-- The text of a step before the pass. -/
def Step.before : Step → Str
  | .keep c => [c]
  | .put args closing => name ++ '(' :: args.render table done ++ closing

/-- The text of a step behind the pass. -/
def Step.behind : Step → Str
  | .keep c => [c]
  | .put args _ => expansion table name (args.values table)

/-- The search of a pass, behind a text that is done, finds the calls among the steps and
nothing else, and it reads their arguments as they are. -/
def Found : Str → List Step → Prop
  | _, [] => True
  | prior, .keep c :: steps =>
    ¬ (endsInWord prior = false ∧
      name ++ ['('] <+: c :: steps.flatMap (Step.before table done name)) ∧
    Found (prior ++ [c]) steps
  | prior, .put args closing :: steps =>
    let rest := steps.flatMap (Step.before table done name)
    let call := callAt name (Step.before table done name (.put args closing) ++ rest)
    endsInWord prior = false ∧ call.args = args.texts table done ∧ call.rest = rest ∧
    Found (prior ++ Step.behind table name (.put args closing)) steps

/-! ## What is asked of the arguments -/

/-- A call that the code expands: the macro is in the table, the arguments pass the arity
test, and the expansion raises no exception. -/
def Expands (args : Args) : Prop :=
  ∃ m ∈ table.lookup name, m.args.length ≤ (args.values table).length + 1 ∧
    ∃ result, m.expand (bindings m.args (args.values table)) = .ok result

/-- An argument of a call of `name`. As long as `name` is not done, the argument without the
white space around it is the argument; and the passes over it find the calls in it. -/
def ArgCalm (before : Str) (arg : Doc) (behind : Str) : Prop :=
  ∀ done ∈ (table.map Prod.fst).sublists,
    (name ∉ done → strip (before ++ arg.render table (among done) ++ behind) =
      arg.render table (among done)) ∧
    ∀ e ∈ table, e.1 ∉ done ∨ name ∉ done →
      Found table (among done) e.1 [] (arg.steps table (among done) e.1)

instance decidableFound : ∀ prior steps, Decidable (Found table done name prior steps)
  | _, [] => isTrue trivial
  | prior, .keep c :: steps =>
    have := decidableFound (prior ++ [c]) steps
    inferInstanceAs (Decidable (_ ∧ _))
  | prior, .put args closing :: steps =>
    have := decidableFound (prior ++ Step.behind table name (.put args closing)) steps
    inferInstanceAs (Decidable (_ ∧ _ ∧ _ ∧ _))

instance (before : Str) (arg : Doc) (behind : Str) :
    Decidable (ArgCalm table name before arg behind) :=
  inferInstanceAs (Decidable (∀ done ∈ _, _))

/-- The number of parameters of a macro. -/
def arity : ℕ := (table.lookup name).elim 0 fun m => m.args.length

mutual

/-- The calls in a text are expanded, and so are those in their arguments. -/
def Doc.Calm : Doc → Prop
  | .nil => True
  | .char _ rest => rest.Calm
  | .call name args _ rest =>
    Expands table name args ∧ args.Calm name (arity table name) ∧ rest.Calm

/-- The same for the arguments of a call of `name`, of which the first `count` are bound to
parameters. -/
def Args.Calm : (name : Str) → (count : ℕ) → Args → Prop
  | name, count, .last before arg behind =>
    (0 < count → ArgCalm table name before arg behind) ∧ arg.Calm
  | name, count, .cons before arg behind more =>
    (0 < count → ArgCalm table name before arg behind) ∧ arg.Calm ∧ more.Calm name (count - 1)

end

mutual

/-- How deep the calls in a text are nested. -/
def Doc.depth : Doc → ℕ
  | .nil => 0
  | .char _ rest => rest.depth
  | .call _ args _ rest => max (args.depth + 1) rest.depth

/-- How deep the calls in the arguments of a call are nested. -/
def Args.depth : Args → ℕ
  | .last _ arg _ => arg.depth
  | .cons _ arg _ more => max arg.depth more.depth

end

end Render

section Steps

variable {table : List (Str × Macro)} {done : Str → Bool} {name : Str} {args : Args}
  {closing prior : Str} {steps : List Step}

/-- A text for each step: with these, the steps of a pass make up the text when the macros
in `done'` are done, which are those in `done` and possibly the one of the pass. -/
structure Reads (table : List (Str × Macro)) (done done' : Str → Bool) (name : Str)
    (read : Step → Str) : Prop where
  keep : ∀ c, read (.keep c) = [c]
  put : done name = false → ∀ args closing, read (.put args closing) =
    if done' name then expansion table name (args.values table)
    else name ++ '(' :: args.render table done' ++ closing
  same : ∀ n, n ≠ name → done' n = done n
  mono : done name = true → done' name = true

theorem Reads.flatMap_keep {done' : Str → Bool} {read : Step → Str}
    (h : Reads table done done' name read) (s : Str) : (s.map Step.keep).flatMap read = s := by
  induction s with
  | nil => rfl
  | cons c s ih => rw [List.map_cons, List.flatMap_cons, h.keep, ih, List.singleton_append]

mutual

theorem Doc.flatMap_steps {done' : Str → Bool} {read : Step → Str}
    (h : Reads table done done' name read) (doc : Doc) :
    (doc.steps table done name).flatMap read = doc.render table done' := by
  cases doc with
  | nil => rfl
  | char c rest =>
    rw [Doc.steps, List.flatMap_cons, rest.flatMap_steps h, Doc.render, h.keep]
    rfl
  | call n args closing rest =>
    rw [Doc.steps, List.flatMap_append, rest.flatMap_steps h, Doc.render]
    congr 1
    by_cases hname : n = name
    · subst hname
      by_cases hdone : done n = true
      · rw [if_pos hdone, if_pos (h.mono hdone), h.flatMap_keep]
      · rw [if_neg hdone, if_pos rfl, List.flatMap_cons, List.flatMap_nil, List.append_nil,
          h.put (by simpa using hdone)]
    · rw [h.same n hname]
      split_ifs with hdone
      · exact h.flatMap_keep _
      · rw [List.flatMap_append, List.flatMap_append, args.flatMap_steps h, h.flatMap_keep,
          h.flatMap_keep]
        simp

theorem Args.flatMap_steps {done' : Str → Bool} {read : Step → Str}
    (h : Reads table done done' name read) (args : Args) :
    (args.steps table done name).flatMap read = args.render table done' := by
  cases args with
  | last before arg behind =>
    rw [Args.steps, List.flatMap_append, List.flatMap_append, arg.flatMap_steps h,
      h.flatMap_keep, h.flatMap_keep, Args.render]
  | cons before arg behind more =>
    rw [Args.steps, List.flatMap_append, List.flatMap_append, List.flatMap_append,
      List.flatMap_cons, arg.flatMap_steps h, more.flatMap_steps h, h.flatMap_keep,
      h.flatMap_keep, h.keep, Args.render]
    rfl

end

/-- Before a pass its steps make up the text. -/
theorem Doc.flatMap_before (doc : Doc) :
    (doc.steps table done name).flatMap (Step.before table done name) = doc.render table done := by
  refine Doc.flatMap_steps ⟨fun _ => rfl, fun hname args closing => ?_, fun _ _ => rfl, id⟩ doc
  rw [hname]
  rfl

/-- Behind a pass its steps make up the text with one more macro done. -/
theorem Doc.flatMap_behind (doc : Doc) :
    (doc.steps table done name).flatMap (Step.behind table name) =
      doc.render table fun n => done n || decide (n = name) := by
  refine Doc.flatMap_steps ⟨fun _ => rfl, fun _ args closing => ?_, fun n hn => ?_, fun _ => ?_⟩ doc
  · simp [Step.behind]
  · simp [hn]
  · simp

mutual

/-- What a pass expands is a call that lies less deep than the text. -/
theorem Doc.of_mem_steps (doc : Doc) (h : .put args closing ∈ doc.steps table done name)
    (hcalm : doc.Calm table) :
    done name = false ∧ Expands table name args ∧ args.Calm table name (arity table name) ∧
      args.depth < doc.depth := by
  cases doc with
  | nil => cases h
  | char c rest =>
    rw [Doc.steps] at h
    rcases List.mem_cons.mp h with h | h
    · cases h
    · exact rest.of_mem_steps h hcalm
  | call n args' closing' rest =>
    obtain ⟨hexpands, hargs, hrest⟩ := hcalm
    rw [Doc.steps, List.mem_append] at h
    rcases h with h | h
    · by_cases hdone : done n = true
      · rw [if_pos hdone, List.mem_map] at h
        obtain ⟨c, -, hc⟩ := h
        cases hc
      · rw [if_neg hdone] at h
        by_cases hname : n = name
        · subst hname
          rw [if_pos rfl, List.mem_singleton] at h
          cases h
          exact ⟨by simpa using hdone, hexpands, hargs, lt_max_of_lt_left (Nat.lt_succ_self _)⟩
        · rw [if_neg hname, List.mem_append, List.mem_append] at h
          rcases h with (h | h) | h
          · obtain ⟨c, -, hc⟩ := List.mem_map.mp h
            cases hc
          · obtain ⟨hfresh, hexp, hcalm, hdepth⟩ := args'.of_mem_steps h hargs
            exact ⟨hfresh, hexp, hcalm, lt_max_of_lt_left (hdepth.trans (Nat.lt_succ_self _))⟩
          · obtain ⟨c, -, hc⟩ := List.mem_map.mp h
            cases hc
    · obtain ⟨hfresh, hexp, hcalm, hdepth⟩ := rest.of_mem_steps h hrest
      exact ⟨hfresh, hexp, hcalm, lt_max_of_lt_right hdepth⟩

theorem Args.of_mem_steps {outer : Str} {count : ℕ} (args' : Args)
    (h : .put args closing ∈ args'.steps table done name) (hcalm : args'.Calm table outer count) :
    done name = false ∧ Expands table name args ∧ args.Calm table name (arity table name) ∧
      args.depth < args'.depth := by
  cases args' with
  | last before arg behind =>
    rw [Args.steps, List.mem_append, List.mem_append] at h
    rcases h with (h | h) | h
    · obtain ⟨c, -, hc⟩ := List.mem_map.mp h
      cases hc
    · exact arg.of_mem_steps h hcalm.2
    · obtain ⟨c, -, hc⟩ := List.mem_map.mp h
      cases hc
  | cons before arg behind more =>
    obtain ⟨-, harg, hmore⟩ := hcalm
    rw [Args.steps, List.mem_append, List.mem_append, List.mem_append, List.mem_cons] at h
    rcases h with ((h | h) | h) | h | h
    · obtain ⟨c, -, hc⟩ := List.mem_map.mp h
      cases hc
    · obtain ⟨hfresh, hexp, hcalm, hdepth⟩ := arg.of_mem_steps h harg
      exact ⟨hfresh, hexp, hcalm, lt_max_of_lt_left hdepth⟩
    · obtain ⟨c, -, hc⟩ := List.mem_map.mp h
      cases hc
    · cases h
    · obtain ⟨hfresh, hexp, hcalm, hdepth⟩ := more.of_mem_steps h hmore
      exact ⟨hfresh, hexp, hcalm, lt_max_of_lt_right hdepth⟩

end

end Steps

/-! ## The passes -/

section Passes

variable {table : List (Str × Macro)} {done : Str → Bool} {name : Str} {m : Macro}
  {o : Str → Except (Stop MacroError) Str} {args : Args} {closing prior : Str} {steps : List Step}

/-- The arguments of a call are expanded to their values. -/
def Answers (o : Str → Except (Stop MacroError) Str) (table : List (Str × Macro))
    (done : Str → Bool) (m : Macro) (args : Args) : Prop :=
  ((args.texts table done).take m.args.length).mapM (fun arg => o (strip arg)) =
    .ok ((args.values table).take m.args.length)

theorem length_texts (args : Args) :
    (args.texts table done).length = (args.values table).length := by
  cases args with
  | last before arg behind => rfl
  | cons before arg behind more =>
    rw [Args.texts, Args.values, List.length_cons, List.length_cons, length_texts more]

/-- Values beyond the parameters are not bound. -/
theorem bindings_take (params values : List Str) :
    bindings params (values.take params.length) = bindings params values := by
  have hzip : params.zip (values.take params.length) = params.zip values := by
    have hall : (params.zip values).take params.length = params.zip values :=
      List.take_of_length_le (by simp)
    rwa [List.zip, List.take_zipWith, List.take_length] at hall
  rw [bindings, hzip, bindings]

/-- The expansion of a call whose arguments have their values. -/
theorem value_call {call : Call} (hm : table.lookup name = some m)
    (hargs : call.args = args.texts table done) (hanswers : Answers o table done m args)
    (hexpands : Expands table name args) :
    call.value o m = .ok (expansion table name (args.values table)) := by
  obtain ⟨m', hm', -, result, hresult⟩ := hexpands
  obtain rfl : m = m' := Option.some.inj (hm.symm.trans hm')
  rw [Call.value, hargs, hanswers]
  have hbound : m.expand (bindings m.args ((args.values table).take m.args.length)) =
      .ok result := by rwa [bindings_take]
  have hexpansion : expansion table name (args.values table) = result := by
    rw [expansion, hm]
    simp only [hresult]
  rw [hexpansion]
  change (match m.expand (bindings m.args ((args.values table).take m.args.length)) with
    | .ok result => Except.ok result
    | .error e => .error (Stop.failed e)) = _
  rw [hbound]

/-- A pass whose search finds the calls of its macro expands them and keeps the rest. -/
theorem run_steps (hm : table.lookup name = some m)
    (hfound : Found table done name prior steps)
    (hputs : ∀ args closing, .put args closing ∈ steps →
      Expands table name args ∧ Answers o table done m args) :
    (expandRest name m prior (steps.flatMap (Step.before table done name))).run o =
      .ok (prior ++ steps.flatMap (Step.behind table name)) := by
  induction steps generalizing prior with
  | nil =>
    rw [List.flatMap_nil, expandRest_nil, List.flatMap_nil, List.append_nil]
    rfl
  | cons step steps ih =>
    have hrest : ∀ args closing, .put args closing ∈ steps →
        Expands table name args ∧ Answers o table done m args := fun args closing hmem =>
      hputs args closing (List.mem_cons_of_mem step hmem)
    cases step with
    | keep c =>
      obtain ⟨hno, hfound⟩ := hfound
      have htext : (Step.keep c :: steps).flatMap (Step.before table done name) =
          c :: steps.flatMap (Step.before table done name) := rfl
      rw [htext, expandRest_char hno, ih hfound hrest, List.flatMap_cons, List.append_assoc]
      rfl
    | put args closing =>
      obtain ⟨hprior, hargs, hcallrest, hfound⟩ := hfound
      obtain ⟨hexpands, hanswers⟩ := hputs args closing List.mem_cons_self
      have hopens : name ++ ['('] <+: Step.before table done name (.put args closing) ++
          steps.flatMap (Step.before table done name) := by
        refine List.IsPrefix.trans ?_ (List.prefix_append _ _)
        exact ⟨args.render table done ++ closing, by simp [Step.before]⟩
      have henough : m.args.length ≤ (callAt name (Step.before table done name
          (.put args closing) ++ steps.flatMap (Step.before table done name))).args.length + 1 := by
        obtain ⟨m', hm', hlength, -⟩ := hexpands
        obtain rfl : m = m' := Option.some.inj (hm.symm.trans hm')
        rwa [hargs, length_texts]
      rw [List.flatMap_cons, List.flatMap_cons, expandRest_invocation hprior hopens, Proc.run_bind,
        run_invoke henough, value_call hm hargs hanswers hexpands, hcallrest]
      change (expandRest name m (prior ++ Step.behind table name (.put args closing)) _).run o = _
      rw [ih hfound hrest, List.append_assoc]

end Passes

end NodeMini.Js2c
