import NodeMini.Js2c.Macros

/-!
# The loop over one macro, on the rest of the text

The loop of `ExpandMacros` works with positions in a string that it rewrites while it goes.
What it does next depends on two parts of that string only: the part that is done, whose
last character decides whether a match can begin, and the rest, which is still the text it
was given. `expandRest` is the loop on these two parts, and `expandPass_eq` says that the
loop with positions is the same.

The arguments of an invocation are a matter of the rest alone: `splitArgs` reads them, and
the scan with its positions and its `add_arg` calls does nothing else.

## Main definitions

* `Call`, `splitArgs`, `callAt` — the arguments of an invocation and what follows it
* `bindings` — the mapping from parameters to arguments
* `invoke` — one invocation, from the match to the expansion
* `expandRest` — the loop on the rest of the text

## Main results

* `scan_addArg` — the scan of the arguments
* `expandPass_eq` — the loop with positions is `expandRest`
* `settles_expandTable` — every loop comes to an end, whatever `expander` answers
-/

namespace NodeMini.Js2c

open Lib

/-! ## The arguments of an invocation -/

/-- The argument texts of an invocation, the text behind it, and whether it was closed. -/
structure Call where
  args : List Str
  rest : Str
  closed : Bool
  deriving DecidableEq, Repr

/-- Put an argument in front. -/
def Call.cons (arg : Str) (call : Call) : Call := { call with args := arg :: call.args }

/-- Read the arguments from a text behind the opening delimiter: `depth` counts the further
delimiters that are open, `arg` is the part of an argument read so far. Without a closing
delimiter the last character of the text counts as one. -/
def splitArgs : (depth : ℕ) → (arg : Str) → Str → Call
  | _, arg, [] => ⟨[arg.dropLast], [], false⟩
  | depth, arg, c :: s =>
    if c = ',' ∧ depth = 0 then (splitArgs depth [] s).cons arg
    else if isOpening c then splitArgs (depth + 1) (arg ++ [c]) s
    else if isClosing c then
      match depth with
      | 0 => ⟨[arg], s, true⟩
      | depth + 1 => splitArgs depth (arg ++ [c]) s
    else splitArgs depth (arg ++ [c]) s

/-- The invocation of `name` with which a text begins. -/
def callAt (name text : Str) : Call := splitArgs 0 [] (text.drop (name.length + 1))

section SplitArgs

variable {depth : ℕ} {arg s : Str} {c : Char}

theorem ne_comma_of_isOpening (h : isOpening c) : c ≠ ',' := by
  rintro rfl
  exact absurd h (by decide)

theorem ne_comma_of_isClosing (h : isClosing c) : c ≠ ',' := by
  rintro rfl
  exact absurd h (by decide)

theorem isOpening_of_isClosing (h : isClosing c) : isOpening c = false := by
  simp only [isClosing, List.mem_cons, List.not_mem_nil, or_false, decide_eq_true_eq] at h
  rcases h with rfl | rfl | rfl <;> decide

theorem splitArgs_comma : splitArgs 0 arg (',' :: s) = (splitArgs 0 [] s).cons arg := by
  rw [splitArgs.eq_def]
  rfl

theorem splitArgs_opening (h : isOpening c) :
    splitArgs depth arg (c :: s) = splitArgs (depth + 1) (arg ++ [c]) s := by
  rw [splitArgs.eq_def]
  simp [h, ne_comma_of_isOpening h]

theorem splitArgs_close (h : isClosing c) : splitArgs 0 arg (c :: s) = ⟨[arg], s, true⟩ := by
  rw [splitArgs.eq_def]
  simp [h, ne_comma_of_isClosing h, isOpening_of_isClosing h]

theorem splitArgs_closing (h : isClosing c) :
    splitArgs (depth + 1) arg (c :: s) = splitArgs depth (arg ++ [c]) s := by
  rw [splitArgs.eq_def]
  simp [h, isOpening_of_isClosing h]

theorem splitArgs_plain (hcomma : ¬ (c = ',' ∧ depth = 0)) (hopen : ¬ isOpening c)
    (hclose : ¬ isClosing c) : splitArgs depth arg (c :: s) = splitArgs depth (arg ++ [c]) s := by
  rw [splitArgs.eq_def]
  simp [hcomma, hopen, hclose]

end SplitArgs

theorem rest_splitArgs (depth : ℕ) (arg s : Str) : (splitArgs depth arg s).rest <:+ s := by
  fun_induction splitArgs depth arg s with
  | case1 => exact List.suffix_refl []
  | case2 depth arg c s h ih => exact ih.trans (List.suffix_cons c s)
  | case3 depth arg c s h hopen ih => exact ih.trans (List.suffix_cons c s)
  | case4 arg c s => exact List.suffix_cons c s
  | case5 arg c s h hopen hclose depth ih => exact ih.trans (List.suffix_cons c s)
  | case6 depth arg c s h hopen hclose ih => exact ih.trans (List.suffix_cons c s)

/-- Behind an invocation there is less text than from the invocation on. -/
theorem length_rest_callAt (name : Str) {c : Char} {s : Str} :
    (callAt name (c :: s)).rest.length < (c :: s).length := by
  have hrest := (rest_splitArgs 0 [] ((c :: s).drop (name.length + 1))).length_le
  rw [List.length_drop] at hrest
  rw [callAt]
  simp only [List.length_cons] at hrest ⊢
  omega

section Scan

variable {lines s arg : Str} {c : Char} {fin lastMatch depth : ℕ} {params : List Str}
  {β : Type}

/-- The slice of an argument grows by the character at the position. -/
theorem slice_succ (hrest : lines.drop fin = c :: s) (hle : lastMatch ≤ fin) :
    slice lines lastMatch (fin + 1) = slice lines lastMatch fin ++ [c] := by
  have hc : lines[fin]? = some c := by
    rw [← List.head?_drop, hrest]
    rfl
  have hlt : fin < lines.length := (List.getElem?_eq_some_iff.mp hc).1
  rw [slice, List.take_add_one, hc, List.drop_append_of_le_length (by simp; omega)]
  rfl

theorem drop_succ_of_drop (hrest : lines.drop fin = c :: s) : lines.drop (fin + 1) = s := by
  rw [← List.drop_drop, hrest]
  rfl

/-- The slice of an argument without its last character. -/
theorem slice_pred (hfin : fin ≤ lines.length) :
    slice lines lastMatch (fin - 1) = (slice lines lastMatch fin).dropLast := by
  have hlength : ((lines.drop lastMatch).take (fin - lastMatch)).length = fin - lastMatch := by
    rw [List.length_take, List.length_drop]
    omega
  rw [slice, slice, List.drop_take, List.drop_take, List.dropLast_eq_take, hlength, List.take_take]
  congr 1
  omega

/-- The scan of the arguments, with the `add_arg` behind it: `add_arg` is called on the
argument texts in turn, and `end` is the position behind the invocation. -/
theorem scan_addArg (goOn : ℕ → ArgState → Expansion β) {st : ArgState}
    (hrest : lines.drop fin = s) (hfin : fin ≤ lines.length) (hle : lastMatch ≤ fin)
    (harg : slice lines lastMatch fin = arg) :
    (do
      let (fin, lastMatch, st) ← scan params lines s (depth + 1) fin lastMatch st
      let st ← addArg params st (slice lines lastMatch (fin - 1))
      goOn fin st) =
    (do
      let st ← (splitArgs depth arg s).args.foldlM (addArg params) st
      goOn (lines.length - (splitArgs depth arg s).rest.length) st) := by
  induction s generalizing depth fin lastMatch arg st with
  | nil =>
    obtain rfl : fin = lines.length := le_antisymm hfin (List.drop_eq_nil_iff.mp hrest)
    simp [scan, splitArgs, slice_pred hfin, harg]
  | cons c s ih =>
    have hlt : fin < lines.length := by
      by_contra hge
      rw [List.drop_eq_nil_of_le (by omega)] at hrest
      cases hrest
    have hnext := drop_succ_of_drop hrest
    have hgrow := slice_succ hrest hle
    rw [harg] at hgrow
    rw [scan]
    by_cases hcomma : c = ',' ∧ depth = 0
    · -- a comma ends an argument, and the next one begins behind it
      have hempty : slice lines (fin + 1) (fin + 1) = [] := by simp [slice]
      rw [if_pos hcomma, harg]
      obtain ⟨rfl, rfl⟩ := hcomma
      rw [splitArgs_comma, bind_assoc]
      simp only [Call.cons, List.foldlM_cons, bind_assoc]
      congr 1
      funext st'
      exact ih hnext hlt le_rfl hempty
    · rw [if_neg hcomma]
      by_cases hopen : isOpening c
      · rw [if_pos hopen, splitArgs_opening hopen]
        exact ih hnext hlt (hle.trans (Nat.le_succ fin)) hgrow
      · rw [if_neg hopen]
        by_cases hclose : isClosing c
        · rw [if_pos hclose]
          cases depth with
          | succ depth =>
            rw [splitArgs_closing hclose]
            exact ih hnext hlt (hle.trans (Nat.le_succ fin)) hgrow
          | zero =>
            -- the closing delimiter: the loop ends behind it
            have hlength : lines.length - s.length = fin + 1 := by
              have := congrArg List.length hrest
              simp only [List.length_drop, List.length_cons] at this
              omega
            have hstop : scan params lines s 0 (fin + 1) lastMatch st =
                return (fin + 1, lastMatch, st) := by
              cases s <;> rfl
            rw [splitArgs_close hclose]
            simp [hstop, harg, hlength]
        · rw [if_neg hclose, splitArgs_plain hcomma hopen hclose]
          exact ih hnext hlt (hle.trans (Nat.le_succ fin)) hgrow

end Scan

/-! ## One invocation -/

/-- The mapping that `add_arg` builds from the expanded arguments. -/
def bindings (params values : List Str) : Dict Str :=
  (params.zip values).foldl (fun mapping e => mapping.set e.1 e.2) []

/-- `add_arg` asks for the expansion of each stripped argument, as long as there is a
parameter for it. -/
theorem foldlM_addArg (params args : List Str) (st : ArgState) :
    args.foldlM (addArg params) st = (do
      let values ← (args.take (params.length - st.argIndex)).mapM fun arg => Proc.ask (strip arg)
      return ⟨st.argIndex + (args.take (params.length - st.argIndex)).length,
        ((params.drop st.argIndex).zip values).foldl (fun d e => d.set e.1 e.2) st.mapping⟩) := by
  induction args generalizing st with
  | nil => simp
  | cons arg args ih =>
    rw [List.foldlM_cons, addArg]
    by_cases h : st.argIndex < params.length
    · obtain ⟨n, hn⟩ : ∃ n, params.length - st.argIndex = n + 1 :=
        ⟨params.length - st.argIndex - 1, by omega⟩
      have hn' : params.length - (st.argIndex + 1) = n := by omega
      have hparams : params.drop st.argIndex =
          params[st.argIndex] :: params.drop (st.argIndex + 1) := List.drop_eq_getElem_cons h
      rw [dif_pos h, hn, List.take_succ_cons]
      simp only [List.mapM_cons, bind_assoc, pure_bind, ih, hn', hparams, List.zip_cons_cons,
        List.foldl_cons, List.length_cons]
      congr 1
      funext value
      congr 1
      funext values
      rw [Nat.add_right_comm, Nat.add_assoc]
    · have hnone : params.length - st.argIndex = 0 := by omega
      rw [dif_neg h, pure_bind, ih, hnone]
      simp

/-- One invocation, from the match to the expansion. -/
def invoke (name : Str) (m : Macro) (lineno : ℕ) (text : Str) : Expansion Str := do
  Proc.tell ⟨name, m.args, text⟩
  let values ← ((callAt name text).args.take m.args.length).mapM fun arg => Proc.ask (strip arg)
  if (callAt name text).args.length + 1 < m.args.length then
    Proc.fail (.tooFewArguments lineno name)
  else callExpand m (bindings m.args values)

/-! ## The loop -/

/-- The text ends in a word character, so that no word begins behind it. -/
def endsInWord (s : Str) : Bool := s.getLast?.any isWord

/-- The loop over one macro, on the text that is done and the rest of the text. -/
def expandRest (name : Str) (m : Macro) (done rest : Str) : Expansion Str :=
  match rest with
  | [] => return done
  | c :: s =>
    if endsInWord done = false ∧ name ++ ['('] <+: c :: s then do
      let result ← invoke name m (done.count '\n' + 1) (c :: s)
      expandRest name m (done ++ result) (callAt name (c :: s)).rest
    else expandRest name m (done ++ [c]) s
termination_by rest.length
decreasing_by
  · exact length_rest_callAt name
  · exact Nat.lt_succ_self _

section Loop

variable {name done rest s text : Str} {m : Macro} {c : Char} {i start : ℕ}

theorem expandRest_nil : expandRest name m done [] = return done := by
  rw [expandRest]

theorem expandRest_invocation (hdone : endsInWord done = false) (h : name ++ ['('] <+: text) :
    expandRest name m done text = (do
      let result ← invoke name m (done.count '\n' + 1) text
      expandRest name m (done ++ result) (callAt name text).rest) := by
  cases text with
  | nil => simp at h
  | cons c s => rw [expandRest, if_pos ⟨hdone, h⟩]

theorem expandRest_char (h : ¬ (endsInWord done = false ∧ name ++ ['('] <+: c :: s)) :
    expandRest name m done (c :: s) = expandRest name m (done ++ [c]) s := by
  rw [expandRest, if_neg h]

@[simp] theorem endsInWord_concat (done : Str) (c : Char) :
    endsInWord (done ++ [c]) = isWord c := by
  simp [endsInWord]

/-- Without a match the rest is kept. -/
theorem expandRest_of_searchFrom_none (h : searchFrom name (endsInWord done) i rest = none) :
    expandRest name m done rest = return done ++ rest := by
  induction rest generalizing done i with
  | nil => rw [expandRest_nil, List.append_nil]
  | cons c s ih =>
    rw [searchFrom] at h
    split at h
    · cases h
    · next hno =>
      rw [← endsInWord_concat done] at h
      rw [expandRest_char hno, ih h, List.append_assoc, List.singleton_append]

/-- The text up to a match is kept. -/
theorem expandRest_of_searchFrom_some
    (h : searchFrom name (endsInWord done) i rest = some start) :
    ∃ kept text, rest = kept ++ text ∧ start = i + kept.length ∧
      endsInWord (done ++ kept) = false ∧ name ++ ['('] <+: text ∧
      expandRest name m done rest = expandRest name m (done ++ kept) text := by
  induction rest generalizing done i with
  | nil => cases h
  | cons c s ih =>
    rw [searchFrom] at h
    split at h
    · next hmatch =>
      obtain rfl := Option.some.inj h
      exact ⟨[], c :: s, rfl, rfl, by simpa using hmatch.1, hmatch.2, by simp⟩
    · next hno =>
      rw [← endsInWord_concat done] at h
      obtain ⟨kept, text, hs, hstart, hdone, hopens, heq⟩ := ih h
      rw [List.append_assoc] at hdone heq
      refine ⟨c :: kept, text, by rw [hs, List.cons_append], ?_, hdone, hopens, ?_⟩
      · rw [hstart, List.length_cons]
        omega
      · rw [expandRest_char hno, heq]
        rfl

/-- The arity test sees how many arguments were bound. -/
theorem bound_add_one_lt {n k : ℕ} : min n k + 1 < n ↔ k + 1 < n := by omega

/-- An invocation of the loop with positions. -/
theorem scan_eq_invoke {lines : Str} {fin : ℕ} (goOn : ℕ → Str → Expansion Str) (lineno : ℕ)
    (hfin : fin ≤ lines.length) (htext : lines.drop fin = text.drop (name.length + 1)) :
    (do
      Proc.tell ⟨name, m.args, text⟩
      let (fin, lastMatch, st) ← scan m.args lines (lines.drop fin) 1 fin fin ⟨0, []⟩
      let st ← addArg m.args st (slice lines lastMatch (fin - 1))
      if st.argIndex + 1 < m.args.length then Proc.fail (.tooFewArguments lineno name)
      else do
        let result ← callExpand m st.mapping
        goOn fin result : Expansion Str) =
    (do
      let result ← invoke name m lineno text
      goOn (lines.length - (callAt name text).rest.length) result) := by
  have hempty : slice lines fin fin = [] := by simp [slice]
  rw [invoke, bind_assoc]
  congr 1
  funext _
  refine (scan_addArg (fun fin st =>
    if st.argIndex + 1 < m.args.length then Proc.fail (.tooFewArguments lineno name)
    else do
      let result ← callExpand m st.mapping
      goOn fin result) rfl hfin le_rfl hempty).trans ?_
  rw [foldlM_addArg, htext, ← callAt]
  simp only [bind_assoc, pure_bind, Nat.sub_zero, Nat.zero_add, List.drop_zero,
    List.length_take, bound_add_one_lt, bindings]
  congr 1
  funext values
  split
  · rfl
  · rfl

/-- The loop with positions is the loop on the rest of the text, if its budget is larger
than the rest. -/
theorem expandPass_eq {lines : Str} {pos fuel : ℕ} (hpos : pos ≤ lines.length)
    (hfuel : lines.length - pos < fuel) :
    expandPass name m fuel lines pos = expandRest name m (lines.take pos) (lines.drop pos) := by
  induction fuel generalizing lines pos with
  | zero => omega
  | succ fuel ih =>
    rw [expandPass]
    cases hsearch : search name lines pos with
    | none =>
      have hrest := expandRest_of_searchFrom_none (m := m) hsearch
      rw [hrest, List.take_append_drop]
    | some start =>
      obtain ⟨kept, text, hkept, hstart, hdone, hopens, heq⟩ :=
        expandRest_of_searchFrom_some (m := m) hsearch
      -- the match splits the string into what is done and the text from the invocation on
      have htake : lines.take start = lines.take pos ++ kept := by
        rw [hstart, List.take_add, hkept, List.take_left]
      have hdrop : lines.drop start = text := by
        rw [hstart, ← List.drop_drop, hkept, List.drop_left]
      have hlength := hopens.length_le
      rw [← hdrop, List.length_append, List.length_singleton, List.length_drop] at hlength
      have hfin : start + name.length + 1 ≤ lines.length := by omega
      have htext : lines.drop (start + name.length + 1) = text.drop (name.length + 1) := by
        rw [← hdrop, List.drop_drop, Nat.add_assoc]
      rw [heq, expandRest_invocation hdone hopens, ← htake]
      simp only [hdrop]
      refine (scan_eq_invoke (fun fin result => expandPass name m fuel
        (lines.take start ++ result ++ lines.drop fin) (start + result.length)) _
        hfin htext).trans ?_
      congr 1
      funext result
      -- behind the invocation the string is the old one
      have hrest : (callAt name text).rest <:+ lines := by
        refine ((rest_splitArgs 0 [] _).trans (List.drop_suffix _ _)).trans ?_
        rw [← hdrop]
        exact List.drop_suffix _ _
      have hshort : (callAt name text).rest.length < text.length := by
        cases text with
        | nil => simp at hopens
        | cons c s => exact length_rest_callAt name
      rw [← List.suffix_iff_eq_drop.mp hrest]
      have hstop : (lines.take start ++ result).length = start + result.length := by
        rw [List.length_append, List.length_take, Nat.min_eq_left (by omega)]
      rw [ih, ← hstop, List.take_left, List.drop_left]
      · rw [List.length_append, hstop]
        omega
      · have htextlength : text.length = lines.length - start := by rw [← hdrop, List.length_drop]
        rw [List.length_append, hstop]
        omega

end Loop

/-! ## The loops over a table -/

theorem expandTable_eq (macros : List (Str × Macro)) (lines : Str) :
    expandTable macros lines =
      macros.foldlM (fun lines (name, m) => expandRest name m [] lines) lines := by
  unfold expandTable
  congr 1
  funext lines ⟨name, m⟩
  exact expandPass_eq (Nat.zero_le _) (by omega)

theorem settles_callExpand (m : Macro) (mapping : Dict Str) : (callExpand m mapping).Settles := by
  unfold callExpand
  split <;> trivial

theorem settles_invoke (name : Str) (m : Macro) (lineno : ℕ) (text : Str) :
    (invoke name m lineno text).Settles := by
  refine Proc.settles_bind trivial fun _ => ?_
  refine Proc.settles_bind (Proc.settles_mapM (fun _ => Proc.settles_ask _) _) fun values => ?_
  split_ifs
  · trivial
  · exact settles_callExpand m _

/-- The loop over one macro comes to an end, whatever `expander` answers: each iteration
leaves a shorter rest. -/
theorem settles_expandRest (name : Str) (m : Macro) (done rest : Str) :
    (expandRest name m done rest).Settles := by
  fun_induction expandRest name m done rest with
  | case1 done => trivial
  | case2 done c s h ih => exact Proc.settles_bind (settles_invoke name m _ _) ih
  | case3 done c s h ih => exact ih

/-- One level of `ExpandMacros` comes to an end, whatever `expander` answers. -/
theorem settles_expandTable (macros : List (Str × Macro)) (lines : Str) :
    (expandTable macros lines).Settles := by
  rw [expandTable_eq]
  exact Proc.settles_foldlM (fun lines e => settles_expandRest e.1 e.2 [] lines) macros lines

end NodeMini.Js2c
