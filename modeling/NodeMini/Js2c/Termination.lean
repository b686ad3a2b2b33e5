import NodeMini.Js2c.Levels

/-!
# Whether macro expansion ends

Each loop of `ExpandMacros` ends, whatever the expander answers. The recursion need not:
the arguments that go to the expander may come from the text that an earlier pass has put
in, and then they are not smaller than the text they come from. All that can go wrong is an
infinite sequence of texts, each of them an argument that is met in the expansion of the
one before.

With one macro the arguments are parts of the text that is expanded, and the recursion ends.
So it does from a text whose calls are apart: the arguments are then those of the text, and
the calls in them lie less deep.

## Main definitions

* `textTable` — a table of text macros, in the order of the iteration
* `EndingLaw` — what ends, and how

## Main results

* `length_lt_of_mem_asked` — a pass over the original text asks for smaller texts only
* `endingLaw` — the law, for every table and text
* `not_ends_recursive` — a macro that calls itself in the argument of another
-/

namespace NodeMini.Js2c

open Lib

/-- A table of text macros. -/
def textTable (order : DictOrder) (macros : List (Str × TextMacro)) : List (Str × Macro) :=
  macros.map fun (name, m) => (name, m.toMacro order)

/-- How the expansion of a text with a table of text macros ends. -/
structure EndingLaw (order : DictOrder) (macros : List (Str × TextMacro)) (text : Str) : Prop where
  /-- The loop over one macro ends, whatever the expander answers. -/
  pass : ∀ e ∈ textTable order macros, ∀ lines,
    (expandPass e.1 e.2 (lines.length + 1) lines 0).Settles
  /-- So does the loop over the table. -/
  level : (expandTable (textTable order macros) text).Settles
  /-- The recursion ends if no infinite sequence of arguments leads away from the text. This is
  `Proc.ends_iff` for loops that end; the depth of the recursion has no limit here, as that of the
  interpreter has. -/
  ends : Proc.Ends (expandTable (textTable order macros)) text ↔
    ¬ ∃ f : ℕ → Str, f 0 = text ∧
      ∀ n, Proc.Asks (expandTable (textTable order macros)) (f n) (f (n + 1))
  /-- It does so with at most one macro. -/
  single : macros.length ≤ 1 → Proc.Ends (expandTable (textTable order macros)) text
  /-- It does so from a text that consists of characters and of calls that are apart. -/
  apart : (macros.map Prod.fst).Nodup → ∀ doc : Doc, doc.Apart (textTable order macros) →
    doc.source (textTable order macros) = text →
      Proc.Ends (expandTable (textTable order macros)) text
  /-- The only exception is that of the arity test. -/
  raises : ∀ fuel e, expandMacros (textTable order macros) fuel text = .error (.failed e) →
    ∃ lineno name, e = .tooFewArguments lineno name

/-! ## Arguments are parts of the text -/

theorem length_strip_le (s : Str) : (strip s).length ≤ s.length := by
  have hend := (List.dropWhile_suffix isSpace (l := (s.dropWhile isSpace).reverse)).length_le
  have hbegin := (List.dropWhile_suffix isSpace (l := s)).length_le
  rw [List.length_reverse] at hend
  rw [strip, List.length_reverse]
  exact hend.trans hbegin

theorem length_of_mem_args {depth : ℕ} {arg s a : Str} (h : a ∈ (splitArgs depth arg s).args) :
    a.length ≤ arg.length + s.length := by
  fun_induction splitArgs depth arg s with
  | case1 depth arg =>
    rw [List.mem_singleton.mp h, List.length_dropLast]
    omega
  | case2 depth arg c s hcomma ih =>
    rw [List.length_cons]
    rcases List.mem_cons.mp h with rfl | h
    · omega
    · have := ih h
      simp only [List.length_nil] at this
      omega
  | case3 depth arg c s hcomma hopen ih =>
    have := ih h
    simp only [List.length_append, List.length_cons, List.length_nil] at this ⊢
    omega
  | case4 arg c s hcomma hopen hclose =>
    rw [List.mem_singleton.mp h]
    omega
  | case5 arg c s hcomma hopen hclose depth ih =>
    have := ih h
    simp only [List.length_append, List.length_cons, List.length_nil] at this ⊢
    omega
  | case6 depth arg c s hcomma hopen hclose ih =>
    have := ih h
    simp only [List.length_append, List.length_cons, List.length_nil] at this ⊢
    omega

section Asked

variable {o : Str → Except (Stop MacroError) Str} {name done rest text q : Str} {m : Macro}

theorem not_mem_asked_callExpand (mapping : Dict Str) : q ∉ (callExpand m mapping).asked o := by
  unfold callExpand
  cases m.expand mapping <;> exact List.not_mem_nil

/-- An invocation asks for its arguments. -/
theorem mem_args_of_mem_asked {lineno : ℕ} (h : q ∈ (invoke name m lineno text).asked o) :
    ∃ arg ∈ (callAt name text).args, q = strip arg := by
  rw [invoke, Proc.mem_asked_bind] at h
  rcases h with h | ⟨-, -, h⟩
  · cases h
  rw [Proc.mem_asked_bind] at h
  rcases h with h | ⟨values, -, h⟩
  · obtain ⟨arg, harg, rfl⟩ := Proc.mem_asked_mapM_ask h
    exact ⟨arg, List.mem_of_mem_take harg, rfl⟩
  · split at h
    · cases h
    · exact absurd h (not_mem_asked_callExpand _)

/-- A pass over a text asks for smaller texts only. -/
theorem length_lt_of_mem_asked (h : q ∈ (expandRest name m done rest).asked o) :
    q.length < rest.length := by
  fun_induction expandRest name m done rest with
  | case1 done => cases h
  | case2 done c s hopens ih =>
    rw [Proc.mem_asked_bind] at h
    rcases h with h | ⟨result, -, h⟩
    · obtain ⟨arg, harg, rfl⟩ := mem_args_of_mem_asked h
      have hstrip := length_strip_le arg
      have hlength := length_of_mem_args harg
      simp only [List.length_nil, List.length_drop, List.length_cons] at hlength ⊢
      omega
    · exact (ih result h).trans (length_rest_callAt name)
  | case3 done c s hopens ih => exact (ih h).trans (Nat.lt_succ_self _)

end Asked

/-! ## The law -/

section Law

variable {order : DictOrder} {macros : List (Str × TextMacro)}
  {o : Str → Except (Stop MacroError) Str}

/-- With one macro the arguments are smaller than the text. -/
theorem ends_of_single (h : macros.length ≤ 1) (text : Str) :
    Proc.Ends (expandTable (textTable order macros)) text := by
  refine Proc.ends_of_measure (settles_expandTable _) List.length (fun lines q hasks => ?_) text
  obtain ⟨fuel, hasked⟩ := hasks
  rw [expandTable_eq] at hasked
  match macros, h with
  | [], _ => cases hasked
  | [(name, m)], _ =>
    rw [textTable, List.map_singleton, List.foldlM_cons, Proc.mem_asked_bind] at hasked
    rcases hasked with hasked | ⟨result, -, hasked⟩
    · exact length_lt_of_mem_asked hasked
    · cases hasked

/-- With calls that are apart the depth of the calls is a budget. -/
theorem ends_of_apart {doc : Doc} (hnodup : (macros.map Prod.fst).Nodup)
    (hdoc : doc.Apart (textTable order macros)) :
    Proc.Ends (expandTable (textTable order macros)) (doc.source (textTable order macros)) := by
  have hnames : ((textTable order macros).map Prod.fst).Nodup := by
    rwa [textTable, List.map_map]
  have hexec := exec_doc (List.Perm.refl _) hnames hdoc (Nat.lt_succ_self doc.depth)
  exact ⟨doc.depth + 1, by rw [← expandMacros, hexec]; simp⟩

/-- A text macro fails by the arity test only. -/
theorem fails_expandRest (m : TextMacro) (name done rest : Str)
    (ho : ∀ q e, o q = .error (.failed e) → ∃ lineno name, e = .tooFewArguments lineno name) :
    (expandRest name (m.toMacro order) done rest).Fails
      (fun e => ∃ lineno name, e = .tooFewArguments lineno name) o := by
  fun_induction expandRest name (m.toMacro order) done rest with
  | case1 done => exact Proc.fails_pure done
  | case2 done c s hopens ih =>
    refine Proc.fails_bind ?_ ih
    refine Proc.fails_bind (fun e he => (by cases he)) fun _ => ?_
    refine Proc.fails_bind (Proc.fails_mapM (fun arg => Proc.fails_ask ho (strip arg)) _) ?_
    intro values
    split
    · intro e he
      cases he
      exact ⟨_, _, rfl⟩
    · exact Proc.fails_pure _
  | case3 done c s hopens ih => exact ih

theorem fails_expandTable (lines : Str)
    (ho : ∀ q e, o q = .error (.failed e) → ∃ lineno name, e = .tooFewArguments lineno name) :
    (expandTable (textTable order macros) lines).Fails
      (fun e => ∃ lineno name, e = .tooFewArguments lineno name) o := by
  rw [expandTable_eq]
  induction macros generalizing lines with
  | nil => exact Proc.fails_pure lines
  | cons e macros ih =>
    rw [textTable, List.map_cons, List.foldlM_cons]
    exact Proc.fails_bind (fails_expandRest e.2 e.1 [] lines ho) ih

/-- How macro expansion ends, for every table of text macros in every order and every text. -/
theorem endingLaw (order : DictOrder) (macros : List (Str × TextMacro)) (text : Str) :
    EndingLaw order macros text where
  pass e _ lines := by
    have hpass : expandPass e.1 e.2 (lines.length + 1) lines 0 = expandRest e.1 e.2 [] lines :=
      expandPass_eq (Nat.zero_le _) (by omega)
    rw [hpass]
    exact settles_expandRest e.1 e.2 [] lines
  level := settles_expandTable _ text
  ends := Proc.ends_iff (settles_expandTable _)
  single h := ends_of_single h text
  apart hnodup doc hdoc hsource := hsource ▸ ends_of_apart hnodup hdoc
  raises fuel e he := Proc.exec_fails (fun o ho lines => fails_expandTable lines ho) he

end Law

/-! ## A recursion that does not end -/

/-- `macro f(x) = g(f(x));` and `macro g(y) = y;`. -/
def recursiveMacros : List (Str × TextMacro) :=
  [(['f'], ⟨[['x']], "g(f(x))".toList⟩), (['g'], ⟨[['y']], ['y']⟩)]

/-- `ReadMacros` accepts the two macros, and the expansion of `f(1)` asks for that of
`f(1)` again. -/
theorem not_ends_recursive :
    readMacros (fun _ => .error (.raised []))
        ["macro f(x) = g(f(x));".toList, "macro g(y) = y;".toList] =
      .ok ⟨[], recursiveMacros.map fun (name, m) => (name, .text m)⟩ ∧
    ¬ Proc.Ends (expandTable (textTable insertionOrder recursiveMacros)) "f(1)".toList := by
  refine ⟨rfl, fun hends => ?_⟩
  have hasks : Proc.Asks (expandTable (textTable insertionOrder recursiveMacros))
      "f(1)".toList "f(1)".toList := ⟨1, by decide⟩
  exact (Proc.ends_iff (settles_expandTable _)).mp hends
    ⟨fun _ => "f(1)".toList, rfl, fun _ => hasks⟩

end NodeMini.Js2c
