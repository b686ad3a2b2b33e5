import NodeMini.Js2c.Pass
import NodeMini.Lib.Returns

/-!
# The macro language by rules

What a text with invocations stands for can be said without the loops of `ExpandMacros` and
without a budget for its recursion: a character in front of which no invocation begins stands
for itself, and an invocation for what the macro makes of its expanded arguments. The rules
leave open how an invocation is to be read. Read as it is written in full, it has an argument
for each parameter and a closing delimiter of its own.

The code expands a text exactly if it can be derived, if invocations are read as the code
reads them. What it consumes of a text is then a name, delimiters and arguments, and what
it does not consume is in the result.

## Main definitions

* `Balanced`, `Written` — an argument, and an invocation that is written in full
* `Unclosed` — an invocation without a closing delimiter
* `Derives` — the rules, for a way to read invocations
* `Expandable` — something can be derived for a text

## Main results

* `written_iff`, `unclosed_iff` — what is written in full is what the scan of the arguments finds
  closed, and the others run to the end of the text
* `derives_iff` — `ExpandMacros` follows the rules
-/

namespace NodeMini.Js2c

open Lib

/-! ## Invocations written in full -/

/-- The number of delimiters that are open behind a text, when `depth` are open in front of it:
nothing if it has a comma outside of them, or closes one that was not open. -/
def nesting : (depth : ℕ) → Str → Option ℕ
  | depth, [] => some depth
  | depth, c :: s =>
    if c = ',' ∧ depth = 0 then none
    else if isOpening c then nesting (depth + 1) s
    else if isClosing c then
      match depth with
      | 0 => none
      | depth + 1 => nesting depth s
    else nesting depth s

/-- A text that can be an argument: its delimiters are balanced, and its commas within them. -/
def Balanced (arg : Str) : Prop := nesting 0 arg = some 0

/-- How an invocation of `name` with a number of parameters is read: its arguments, and the text
behind it, in a text that begins with it. -/
abbrev Reading :=
  (name : Str) → (params : ℕ) → (text : Str) → (args : List Str) → (rest : Str) → Prop

/-- An invocation that is written in full. -/
structure Written (name : Str) (params : ℕ) (text : Str) (args : List Str) (rest : Str) :
    Prop where
  text : ∃ closing, isClosing closing ∧
    text = name ++ '(' :: ([','].intercalate args ++ closing :: rest)
  nonempty : args ≠ []
  balanced : ∀ arg ∈ args, Balanced arg
  /-- There is an argument for each parameter. -/
  enough : params ≤ args.length

/-- An invocation without a closing delimiter, up to the end of the text. The last character is
taken for the delimiter. -/
structure Unclosed (name : Str) (params : ℕ) (text : Str) (args : List Str) (rest : Str) :
    Prop where
  text : ∃ init last, text = name ++ '(' :: [','].intercalate (init ++ [last]) ∧
    (∀ arg ∈ init, Balanced arg) ∧ (∃ depth, nesting 0 last = some depth) ∧
    args = init ++ [last.dropLast]
  rest : rest = []
  /-- There is an argument for each parameter. -/
  enough : params ≤ args.length

section Split

variable {depth depth' params : ℕ} {arg part last s rest name text : Str} {args init : List Str}
  {c : Char}

theorem nesting_append : nesting depth (part ++ s) = (nesting depth part).bind (nesting · s) := by
  fun_induction nesting depth part with
  | case1 depth => rfl
  | case2 depth c part h => simp [nesting, h]
  | case3 depth c part h hopen ih => simp [nesting, h, hopen, ih]
  | case4 c part hopen hclose hcomma =>
    simp [nesting, ne_comma_of_isClosing hclose, hopen, hclose]
  | case5 c part hopen hclose depth hcomma ih => simp [nesting, hopen, hclose, ih]
  | case6 depth c part h hopen hclose ih => simp [nesting, h, hopen, hclose, ih]

/-- A part of an argument is read to its end. -/
theorem splitArgs_append (h : nesting depth part = some depth') :
    splitArgs depth arg (part ++ s) = splitArgs depth' (arg ++ part) s := by
  fun_induction nesting depth part generalizing arg with
  | case1 depth =>
    obtain rfl := Option.some.inj h
    rw [List.append_nil]
    rfl
  | case2 depth c part hcomma => cases h
  | case3 depth c part hcomma hopen ih =>
    rw [List.cons_append, splitArgs_opening hopen, ih h, List.append_assoc]
    rfl
  | case4 c part hopen hclose hcomma => cases h
  | case5 c part hopen hclose depth hcomma ih =>
    rw [List.cons_append, splitArgs_closing hclose, ih h, List.append_assoc]
    rfl
  | case6 depth c part hcomma hopen hclose ih =>
    rw [List.cons_append, splitArgs_plain hcomma hopen hclose, ih h, List.append_assoc]
    rfl

/-- Arguments that are written in full are read back. -/
theorem splitArgs_intercalate (hne : args ≠ []) (hargs : ∀ arg ∈ args, Balanced arg)
    (hclose : isClosing c) :
    splitArgs 0 [] ([','].intercalate args ++ c :: rest) = ⟨args, rest, true⟩ := by
  induction args with
  | nil => exact absurd rfl hne
  | cons arg args ih =>
    obtain ⟨harg, hargs⟩ := List.forall_mem_cons.mp hargs
    cases args with
    | nil =>
      rw [List.intercalate_singleton, splitArgs_append harg, List.nil_append,
        splitArgs_close hclose]
    | cons next args =>
      rw [List.intercalate_cons_cons, List.append_assoc, List.append_assoc,
        splitArgs_append harg, List.singleton_append, splitArgs_comma,
        ih (List.cons_ne_nil _ _) hargs]
      rfl

/-- Arguments without a closing delimiter are read up to the end of the text. -/
theorem splitArgs_intercalate_open (hinit : ∀ arg ∈ init, Balanced arg)
    (hlast : nesting 0 last = some depth) :
    splitArgs 0 [] ([','].intercalate (init ++ [last])) = ⟨init ++ [last.dropLast], [], false⟩ := by
  induction init with
  | nil =>
    have hread : splitArgs 0 [] (last ++ []) = splitArgs depth ([] ++ last) [] :=
      splitArgs_append hlast
    rw [List.append_nil] at hread
    rw [List.nil_append, List.intercalate_singleton, hread]
    rfl
  | cons arg init ih =>
    obtain ⟨harg, hinit⟩ := List.forall_mem_cons.mp hinit
    obtain ⟨next, others, hnext⟩ : ∃ next others, init ++ [last] = next :: others :=
      List.exists_cons_of_ne_nil (by simp)
    have hrest := ih hinit
    rw [hnext] at hrest
    rw [List.cons_append, hnext, List.intercalate_cons_cons, List.append_assoc,
      splitArgs_append harg, List.singleton_append, splitArgs_comma, hrest]
    rfl

/-- One more character of an argument. -/
theorem nesting_concat (harg : nesting 0 arg = some depth) (hc : nesting depth [c] = some depth') :
    nesting 0 (arg ++ [c]) = some depth' := by
  rw [nesting_append, harg]
  exact hc

/-- Arguments that are read up to a closing delimiter are written in full. -/
theorem written_of_splitArgs (harg : nesting 0 arg = some depth)
    (hclosed : (splitArgs depth arg s).closed = true) :
    (splitArgs depth arg s).args ≠ [] ∧ (∀ arg' ∈ (splitArgs depth arg s).args, Balanced arg') ∧
      ∃ closing, isClosing closing ∧
        arg ++ s = [','].intercalate (splitArgs depth arg s).args ++
          closing :: (splitArgs depth arg s).rest := by
  fun_induction splitArgs depth arg s with
  | case1 depth arg => cases hclosed
  | case2 depth arg c s hcomma ih =>
    obtain ⟨rfl, rfl⟩ := hcomma
    obtain ⟨hne, hargs, closing, hclose, hs⟩ := ih rfl hclosed
    refine ⟨List.cons_ne_nil _ _, List.forall_mem_cons.mpr ⟨harg, hargs⟩, closing, hclose, ?_⟩
    obtain ⟨next, args, hnext⟩ := List.exists_cons_of_ne_nil hne
    rw [List.nil_append] at hs
    simp only [Call.cons, hnext] at hs ⊢
    rw [List.intercalate_cons_cons, List.append_assoc, List.append_assoc, ← hs]
    rfl
  | case3 depth arg c s hcomma hopen ih =>
    have hc : nesting depth [c] = some (depth + 1) := by
      simp [nesting, hopen, ne_comma_of_isOpening hopen]
    simpa using ih (nesting_concat harg hc) hclosed
  | case4 arg c s hopen hclose hcomma =>
    exact ⟨List.cons_ne_nil _ _, List.forall_mem_singleton.mpr harg, c, hclose,
      by rw [List.intercalate_singleton]⟩
  | case5 arg c s hopen hclose depth hcomma ih =>
    have hc : nesting (depth + 1) [c] = some depth := by simp [nesting, hopen, hclose]
    simpa using ih (nesting_concat harg hc) hclosed
  | case6 depth arg c s hcomma hopen hclose ih =>
    have hc : nesting depth [c] = some depth := by simp [nesting, hcomma, hopen, hclose]
    simpa using ih (nesting_concat harg hc) hclosed

/-- Arguments that are read up to the end of the text are not closed. -/
theorem unclosed_of_splitArgs (harg : nesting 0 arg = some depth)
    (hopen : (splitArgs depth arg s).closed = false) :
    (splitArgs depth arg s).rest = [] ∧ ∃ init last,
      arg ++ s = [','].intercalate (init ++ [last]) ∧ (∀ arg ∈ init, Balanced arg) ∧
        (∃ depth, nesting 0 last = some depth) ∧
        (splitArgs depth arg s).args = init ++ [last.dropLast] := by
  fun_induction splitArgs depth arg s with
  | case1 depth arg =>
    refine ⟨rfl, [], arg, ?_, List.forall_mem_nil _, ⟨depth, harg⟩, rfl⟩
    rw [List.nil_append, List.intercalate_singleton, List.append_nil]
  | case2 depth arg c s hcomma ih =>
    obtain ⟨rfl, rfl⟩ := hcomma
    obtain ⟨hrest, init, last, hs, hinit, hlast, hargs⟩ := ih rfl hopen
    refine ⟨hrest, arg :: init, last, ?_, List.forall_mem_cons.mpr ⟨harg, hinit⟩, hlast,
      congrArg (arg :: ·) hargs⟩
    obtain ⟨next, others, hnext⟩ : ∃ next others, init ++ [last] = next :: others :=
      List.exists_cons_of_ne_nil (by simp)
    rw [List.nil_append, hnext] at hs
    rw [List.cons_append, hnext, List.intercalate_cons_cons, ← hs, List.append_assoc]
    rfl
  | case3 depth arg c s hcomma hopening ih =>
    have hc : nesting depth [c] = some (depth + 1) := by
      simp [nesting, hopening, ne_comma_of_isOpening hopening]
    simpa using ih (nesting_concat harg hc) hopen
  | case4 arg c s hopening hclose hcomma => cases hopen
  | case5 arg c s hopening hclose depth hcomma ih =>
    have hc : nesting (depth + 1) [c] = some depth := by simp [nesting, hopening, hclose]
    simpa using ih (nesting_concat harg hc) hopen
  | case6 depth arg c s hcomma hopening hclose ih =>
    have hc : nesting depth [c] = some depth := by simp [nesting, hcomma, hopening, hclose]
    simpa using ih (nesting_concat harg hc) hopen

/-- What the code reads in a text that begins with an invocation. -/
theorem callAt_append : callAt name (name ++ '(' :: s) = splitArgs 0 [] s := by
  rw [callAt, ← List.drop_drop, List.drop_left]
  rfl

/-- An invocation is written in full exactly if the scan of its arguments finds it closed, and with
enough of them. -/
theorem written_iff : Written name params text args rest ↔
    name ++ ['('] <+: text ∧ callAt name text = ⟨args, rest, true⟩ ∧ params ≤ args.length := by
  constructor
  · rintro ⟨⟨closing, hclose, rfl⟩, hne, hbalanced, henough⟩
    refine ⟨⟨[','].intercalate args ++ closing :: rest, by simp⟩, ?_, henough⟩
    rw [callAt_append]
    exact splitArgs_intercalate hne hbalanced hclose
  · rintro ⟨⟨tail, rfl⟩, hcall, henough⟩
    rw [List.append_assoc, List.singleton_append] at hcall ⊢
    rw [callAt_append] at hcall
    have hclosed : (splitArgs 0 [] tail).closed = true := by rw [hcall]
    obtain ⟨hne, hbalanced, closing, hclose, htail⟩ := written_of_splitArgs rfl hclosed
    rw [hcall] at hne hbalanced htail
    exact ⟨⟨closing, hclose, congrArg (fun s => name ++ '(' :: s) htail⟩, hne, hbalanced, henough⟩

/-- It is not closed exactly if the scan does not find it closed. -/
theorem unclosed_iff : Unclosed name params text args rest ↔
    name ++ ['('] <+: text ∧ callAt name text = ⟨args, rest, false⟩ ∧ params ≤ args.length := by
  constructor
  · rintro ⟨⟨init, last, rfl, hinit, ⟨depth, hlast⟩, rfl⟩, rfl, henough⟩
    refine ⟨⟨[','].intercalate (init ++ [last]), by simp⟩, ?_, henough⟩
    rw [callAt_append]
    exact splitArgs_intercalate_open hinit hlast
  · rintro ⟨⟨tail, rfl⟩, hcall, henough⟩
    rw [List.append_assoc, List.singleton_append] at hcall ⊢
    rw [callAt_append] at hcall
    have hopen : (splitArgs 0 [] tail).closed = false := by rw [hcall]
    obtain ⟨hrest, init, last, htail, hinit, hlast, hargs⟩ := unclosed_of_splitArgs rfl hopen
    rw [hcall] at hrest hargs
    exact ⟨⟨init, last, congrArg (fun s => name ++ '(' :: s) htail, hinit, hlast, hargs⟩, hrest,
      henough⟩

end Split

/-! ## The rules -/

/-- What is to be expanded: a text, by several macros in turn; or the rest of a text by one of
them, behind the part that is done. -/
inductive Task
  | passes (macros : List (Str × Macro)) (text : Str)
  | pass (name : Str) (m : Macro) (done rest : Str)

/-- The results of a task, for a way to read invocations and the table by which arguments are
expanded. -/
inductive Derives (reading : Reading) (table : List (Str × Macro)) : Task → Str → Prop
  | done {text : Str} : Derives reading table (.passes [] text) text
  | next {name : Str} {m : Macro} {macros : List (Str × Macro)} {text between result : Str} :
    Derives reading table (.pass name m [] text) between →
    Derives reading table (.passes macros between) result →
    Derives reading table (.passes ((name, m) :: macros) text) result
  | nil {name : Str} {m : Macro} {done : Str} :
    Derives reading table (.pass name m done []) done
  /-- Where no invocation begins, a character is kept. -/
  | keep {name : Str} {m : Macro} {done rest result : Str} {c : Char} :
    ¬ (endsInWord done = false ∧ name ++ ['('] <+: c :: rest) →
    Derives reading table (.pass name m (done ++ [c]) rest) result →
    Derives reading table (.pass name m done (c :: rest)) result
  /-- Where one begins, it is read, the arguments for which there is a parameter are expanded
  and bound to it, and the invocation is replaced by what the macro makes of them. -/
  | expand {name : Str} {m : Macro} {done text rest value result : Str} {args values : List Str} :
    endsInWord done = false → name ++ ['('] <+: text → reading name m.args.length text args rest →
    (args.take m.args.length).length = values.length →
    (∀ e ∈ (args.take m.args.length).zip values,
      Derives reading table (.passes table (strip e.1)) e.2) →
    m.expand (bindings m.args values) = .ok value →
    Derives reading table (.pass name m (done ++ value) rest) result →
    Derives reading table (.pass name m done text) result

/-- Something can be derived for the text. -/
def Expandable (reading : Reading) (macros : List (Str × Macro)) (text : Str) : Prop :=
  ∃ result, Derives reading macros (.passes macros text) result

/-! ## The code follows the rules -/

/-- A reading under which the invocations that satisfy `P`, and no others, are read, in the way in
which the code reads them. None of these has two arguments too few. -/
structure Reading.IsCode (reading : Reading) (P : Invocation → Prop) : Prop where
  reads : ∀ {name text rest : Str} {params args : List Str}, name ++ ['('] <+: text →
    (reading name params.length text args rest ↔ args = (callAt name text).args ∧
      rest = (callAt name text).rest ∧ P ⟨name, params, text⟩)
  enough : ∀ inv, P inv → inv.params.length ≤ (callAt inv.name inv.text).args.length + 1

section Code

variable {reading : Reading} {P : Invocation → Prop} {table macros : List (Str × Macro)}
  {o : Str → Except (Stop MacroError) Str} {sub : Str → List Invocation} {m : Macro}
  {name text done rest value result : Str} {lineno : ℕ} {task : Task}

theorem returns_callExpand {mapping : Dict Str} :
    (callExpand m mapping).Returns P o sub value ↔ m.expand mapping = .ok value := by
  unfold callExpand
  cases m.expand mapping with
  | ok result =>
    rw [Proc.returns_pure]
    exact ⟨fun h => h ▸ rfl, fun h => (Except.ok.inj h).symm⟩
  | error e => exact iff_of_false Proc.not_returns_fail nofun

/-- What an invocation returns. -/
theorem returns_invoke : (invoke name m lineno text).Returns P o sub value ↔
    P ⟨name, m.args, text⟩ ∧ m.args.length ≤ (callAt name text).args.length + 1 ∧
      ∃ values, List.Forall₂ (fun arg r => o (strip arg) = .ok r ∧ ∀ n ∈ sub (strip arg), P n)
          ((callAt name text).args.take m.args.length) values ∧
        m.expand (bindings m.args values) = .ok value := by
  rw [invoke, Proc.returns_tell_bind, Proc.returns_bind]
  simp only [Proc.returns_mapM_ask]
  refine and_congr_right fun _ => ?_
  by_cases hfew : (callAt name text).args.length + 1 < m.args.length
  · refine iff_of_false ?_ fun h => absurd h.1 (Nat.not_le_of_lt hfew)
    rintro ⟨values, -, hfail⟩
    rw [if_pos hfew] at hfail
    exact Proc.not_returns_fail hfail
  · simp only [if_neg hfew, returns_callExpand]
    exact (and_iff_right (Nat.le_of_not_lt hfew)).symm

/-- The task as a computation. -/
def Task.expansion : Task → Expansion Str
  | .passes macros text => macros.foldlM (fun lines (name, m) => expandRest name m [] lines) text
  | .pass name m done rest => expandRest name m done rest

/-- One pass follows the rules, if `expander` does. -/
theorem derives_of_expandRest (hcode : reading.IsCode P)
    (ho : ∀ q r, o q = .ok r → (∀ inv ∈ sub q, P inv) → Derives reading table (.passes table q) r)
    (h : (expandRest name m done rest).Returns P o sub result) :
    Derives reading table (.pass name m done rest) result := by
  fun_induction expandRest name m done rest with
  | case1 done =>
    rw [Proc.returns_pure.mp h]
    exact .nil
  | case2 done c s hmatch ih =>
    obtain ⟨value, hvalue, hrest⟩ := Proc.returns_bind.mp h
    obtain ⟨hP, -, values, hvalues, hexpand⟩ := returns_invoke.mp hvalue
    obtain ⟨hlength, hzip⟩ := List.forall₂_iff_zip.mp hvalues
    refine .expand hmatch.1 hmatch.2 ((hcode.reads hmatch.2).mpr ⟨rfl, rfl, hP⟩) hlength
      (fun e he => ?_) hexpand (ih value hrest)
    obtain ⟨hanswer, hnoted⟩ := hzip he
    exact ho _ _ hanswer hnoted
  | case3 done c s hno ih => exact .keep hno (ih h)

theorem derives_of_returns (hcode : reading.IsCode P)
    (ho : ∀ q r, o q = .ok r → (∀ inv ∈ sub q, P inv) → Derives reading table (.passes table q) r)
    (h : (Task.passes macros text).expansion.Returns P o sub result) :
    Derives reading table (.passes macros text) result := by
  induction macros generalizing text with
  | nil =>
    rw [Proc.returns_pure.mp h]
    exact .done
  | cons e macros ih =>
    rw [Task.expansion, List.foldlM_cons] at h
    obtain ⟨between, hpass, hrest⟩ := Proc.returns_bind.mp h
    exact .next (derives_of_expandRest hcode ho hpass) (ih hrest)

/-- Budgets for several results can be replaced by one. -/
theorem exists_budget {α : Type} {l : List α} {Q : ℕ → α → Prop}
    (hmono : ∀ a n n', n ≤ n' → Q n a → Q n' a) (h : ∀ a ∈ l, ∃ n, Q n a) :
    ∃ n, ∀ a ∈ l, Q n a := by
  induction l with
  | nil => exact ⟨0, nofun⟩
  | cons a l ih =>
    obtain ⟨ha, hl⟩ := List.forall_mem_cons.mp h
    obtain ⟨n, hn⟩ := ha
    obtain ⟨n', hn'⟩ := ih hl
    exact ⟨max n n', List.forall_mem_cons.mpr ⟨hmono a _ _ (le_max_left n n') hn,
      fun b hb => hmono b _ _ (le_max_right n n') (hn' b hb)⟩⟩

/-- What the rules derive is returned, with a budget that is large enough for the arguments. By
induction on the derivation. -/
theorem returns_of_derives (hcode : reading.IsCode P) (h : Derives reading table task result) :
    ∃ fuel, task.expansion.Returns P (Proc.exec (expandTable table) fuel)
      (Proc.events (expandTable table) fuel) result := by
  induction h with
  | done => exact ⟨0, Proc.returns_pure.mpr rfl⟩
  | next _ _ ihpass ihrest =>
    obtain ⟨fuel, hpass⟩ := ihpass
    obtain ⟨fuel', hrest⟩ := ihrest
    refine ⟨max fuel fuel', ?_⟩
    rw [Task.expansion, List.foldlM_cons]
    exact Proc.returns_bind.mpr ⟨_, Proc.returns_mono (le_max_left fuel fuel') hpass,
      Proc.returns_mono (le_max_right fuel fuel') hrest⟩
  | nil =>
    refine ⟨0, ?_⟩
    rw [Task.expansion, expandRest_nil]
    exact Proc.returns_pure.mpr rfl
  | keep hno _ ih =>
    obtain ⟨fuel, hrest⟩ := ih
    refine ⟨fuel, ?_⟩
    rw [Task.expansion, expandRest_char hno]
    exact hrest
  | @expand name m done text rest value result args values hdone hopens hread hlength _ hexpand _
      ihargs ihrest =>
    obtain ⟨rfl, rfl, hP⟩ := (hcode.reads hopens).mp hread
    obtain ⟨fuel', hrest⟩ := ihrest
    -- an argument is expanded one level further down
    obtain ⟨fuel, hargs⟩ := exists_budget
      (Q := fun n (e : Str × Str) => (Task.passes table (strip e.1)).expansion.Returns P
        (Proc.exec (expandTable table) n) (Proc.events (expandTable table) n) e.2)
      (fun _ _ _ hle h => Proc.returns_mono hle h) ihargs
    refine ⟨max (fuel + 1) fuel', ?_⟩
    rw [Task.expansion, expandRest_invocation hdone hopens]
    refine Proc.returns_bind.mpr ⟨value, Proc.returns_mono (le_max_left _ _) ?_,
      Proc.returns_mono (le_max_right _ _) hrest⟩
    refine returns_invoke.mpr ⟨hP, hcode.enough _ hP, values, ?_, hexpand⟩
    refine List.forall₂_iff_zip.mpr ⟨hlength, fun he => ?_⟩
    have harg := hargs _ he
    rw [Task.expansion, ← expandTable_eq] at harg
    exact harg

/-- **`ExpandMacros` follows the rules.** It returns what can be derived, and nothing else, for
the invocations that are read as the code reads them. -/
theorem derives_iff (hcode : reading.IsCode P) :
    Derives reading macros (.passes macros text) result ↔
      ∃ fuel, expandMacros macros fuel text = .ok result ∧ ∀ inv ∈ met macros fuel text, P inv := by
  constructor
  · intro h
    have hreturns := returns_of_derives hcode h
    simp only [Task.expansion, ← expandTable_eq] at hreturns
    exact Proc.yields_iff.mpr hreturns
  · rintro ⟨fuel, hresult, hmet⟩
    -- by induction on the depth of the recursion
    induction fuel generalizing text result with
    | zero => cases hresult
    | succ fuel ih =>
      have hreturns : (Task.passes macros text).expansion.Returns P (expandMacros macros fuel)
          (met macros fuel) result := by
        rw [Task.expansion, ← expandTable_eq]
        exact ⟨hresult, hmet⟩
      exact derives_of_returns hcode (fun q r hq hsub => ih hq hsub) hreturns

end Code

end NodeMini.Js2c
