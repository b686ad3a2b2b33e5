import NodeMini.Js2c.Pass

/-!
# One macro pass and the segmentation of the text

The invocations of a macro cut a text into segments: a segment is an invocation, or a
character outside all of them. A pass over the text should replace each invocation by its
expansion and keep the characters.

The pass looks for the next match in the string it has rewritten, and the pattern looks
back at the character in front of it. Behind an invocation that is the last character of
the expansion, where the text had a closing delimiter. So a pass is the segmentation
exactly if no expansion that ends in a word character is directly followed by an invocation.

## Main definitions

* `Segment`, `segments` — the segmentation of a text
* `Call.value` — the expansion of an invocation
* `OnePass` — a pass replaces the invocations of the segmentation, and only these
* `Spaced` — no expansion hides the invocation behind it

## Main results

* `onePass_iff` — a pass is the segmentation exactly if the segments are spaced
-/

namespace NodeMini.Js2c

open Lib

/-- A segment of a text: a character, or an invocation with the text from there on. -/
inductive Segment
  | char (c : Char)
  | invocation (text : Str)
  deriving DecidableEq, Repr

/-- The segmentation of a text that begins behind a word character or not. Behind an
invocation there is its closing delimiter, which is none. -/
def segments (name : Str) (behindWord : Bool) (text : Str) : List Segment :=
  match text with
  | [] => []
  | c :: s =>
    if behindWord = false ∧ name ++ ['('] <+: c :: s then
      .invocation (c :: s) :: segments name false (callAt name (c :: s)).rest
    else .char c :: segments name (isWord c) s
termination_by text.length
decreasing_by
  · exact length_rest_callAt name
  · exact Nat.lt_succ_self _

/-- An invocation that is closed and has an argument for each parameter. -/
def Call.Complete (m : Macro) (call : Call) : Prop :=
  call.closed = true ∧ m.args.length ≤ call.args.length

/-- The expansion of an invocation: of its arguments, stripped and expanded by `o`, as many
as there are parameters. -/
def Call.value (o : Str → Except (Stop MacroError) Str) (m : Macro) (call : Call) :
    Except (Stop MacroError) Str := do
  let values ← (call.args.take m.args.length).mapM fun arg => o (strip arg)
  match m.expand (bindings m.args values) with
  | .ok result => .ok result
  | .error e => .error (.failed e)

/-- What a segment is replaced by. -/
def Segment.expansion (o : Str → Except (Stop MacroError) Str) (name : Str) (m : Macro) :
    Segment → Except (Stop MacroError) Str
  | .char c => .ok [c]
  | .invocation text => (callAt name text).value o m

/-- The text in which each segment is replaced. -/
def expandSegments (o : Str → Except (Stop MacroError) Str) (name : Str) (m : Macro)
    (segs : List Segment) : Except (Stop MacroError) Str := do
  return (← segs.mapM (Segment.expansion o name m)).flatten

/-- The invocations among the segments. -/
def invocations (name : Str) (m : Macro) (segs : List Segment) : List Invocation :=
  segs.filterMap fun
    | .char _ => none
    | .invocation text => some ⟨name, m.args, text⟩

/-- One pass for a macro is the segmentation of the text: it gives the text in which exactly
the invocations of the text are replaced, and these are the invocations it expands. -/
structure OnePass (o : Str → Except (Stop MacroError) Str) (name : Str) (m : Macro)
    (text : Str) : Prop where
  result : (expandPass name m (text.length + 1) text 0).run o =
    expandSegments o name m (segments name false text)
  expanded : (expandPass name m (text.length + 1) text 0).noted o (fun _ => []) =
    invocations name m (segments name false text)

/-- An invocation whose expansion ends in a word character is not followed by another. -/
def Spaced (o : Str → Except (Stop MacroError) Str) (name : Str) (m : Macro)
    (segs : List Segment) : Prop :=
  segs.IsChain fun
    | .invocation text, .invocation _ =>
      ∀ value, (callAt name text).value o m = .ok value → endsInWord value = false
    | _, _ => True

section Invoke

variable {o : Str → Except (Stop MacroError) Str} {name text : Str} {m : Macro} {lineno : ℕ}

theorem run_callExpand (mapping : Dict Str) : (callExpand m mapping).run o =
    match m.expand mapping with
    | .ok result => .ok result
    | .error e => .error (.failed e) := by
  unfold callExpand
  cases m.expand mapping <;> rfl

theorem noted_callExpand (mapping : Dict Str) (sub : Str → List Invocation) :
    (callExpand m mapping).noted o sub = [] := by
  unfold callExpand
  cases m.expand mapping <;> rfl

/-- An invocation with enough arguments is expanded. -/
theorem run_invoke (h : m.args.length ≤ (callAt name text).args.length + 1) :
    (invoke name m lineno text).run o = (callAt name text).value o m := by
  have henough : ¬ (callAt name text).args.length + 1 < m.args.length := by omega
  rw [invoke, Proc.run_tell_bind, Proc.run_bind, Proc.run_mapM_ask]
  simp only [if_neg henough, run_callExpand]
  rfl

/-- An invocation is noted once. -/
theorem noted_invoke : (invoke name m lineno text).noted o (fun _ => []) =
    [⟨name, m.args, text⟩] := by
  rw [invoke, Proc.noted_tell_bind]
  congr 1
  have hargs : (((callAt name text).args.take m.args.length).mapM fun arg =>
      (Proc.ask (strip arg) : Expansion Str)).noted o (fun _ => []) = [] :=
    Proc.noted_mapM_ask strip _ fun _ => rfl
  cases hrun : (((callAt name text).args.take m.args.length).mapM fun arg =>
      (Proc.ask (strip arg) : Expansion Str)).run o with
  | error s => rw [Proc.noted_bind_of_error hrun, hargs]
  | ok values =>
    rw [Proc.noted_bind hrun, hargs, List.nil_append]
    split_ifs
    · rfl
    · exact noted_callExpand _ _

end Invoke

/-! ## The invariant of the pass -/

/-- Between two iterations: the text that is done ends in a word character wherever the
original text does, and where it does so of its own no invocation begins. -/
structure Aligned (name : Str) (behindWord : Bool) (done rest : Str) : Prop where
  behind : behindWord = true → endsInWord done = true
  free : behindWord = false → endsInWord done = false ∨ ¬ name ++ ['('] <+: rest

section Pass

variable {o : Str → Except (Stop MacroError) Str} {name done rest text s t : Str} {m : Macro}
  {behindWord : Bool} {c : Char}

theorem endsInWord_append_eq_false (hs : endsInWord s = false) (ht : endsInWord t = false) :
    endsInWord (s ++ t) = false := by
  cases t using List.reverseRecOn with
  | nil => rwa [List.append_nil]
  | append_singleton t c =>
    rw [← List.append_assoc, endsInWord_concat]
    rwa [endsInWord_concat] at ht

theorem endsInWord_append_eq_true (ht : endsInWord t = true) : endsInWord (s ++ t) = true := by
  cases t using List.reverseRecOn with
  | nil => cases ht
  | append_singleton t c =>
    rw [← List.append_assoc, endsInWord_concat]
    rwa [endsInWord_concat] at ht

theorem segments_nil : segments name behindWord [] = [] := by
  rw [segments]

theorem segments_invocation (h : name ++ ['('] <+: text) :
    segments name false text = .invocation text :: segments name false (callAt name text).rest := by
  cases text with
  | nil => simp at h
  | cons c s => rw [segments, if_pos ⟨rfl, h⟩]

/-- A segmentation that begins with an invocation is that of a text that does. -/
theorem of_head?_segments (h : .invocation t ∈ (segments name behindWord s).head?) :
    t = s ∧ name ++ ['('] <+: s := by
  cases s with
  | nil => simp [segments_nil] at h
  | cons c s =>
    rw [segments] at h
    split at h
    · next hopens =>
      simp only [List.head?_cons, Option.mem_def, Option.some.injEq, Segment.invocation.injEq] at h
      exact ⟨h.symm, hopens.2⟩
    · simp at h

/-- What a pass notes is in the rest of the text. -/
theorem length_text_of_mem_noted {inv : Invocation}
    (h : inv ∈ (expandRest name m done rest).noted o (fun _ => [])) :
    inv.text.length ≤ rest.length := by
  fun_induction expandRest name m done rest with
  | case1 done => cases h
  | case2 done c s hopens ih =>
    cases hrun : (invoke name m (done.count '\n' + 1) (c :: s)).run o with
    | error e =>
      rw [Proc.noted_bind_of_error hrun, noted_invoke, List.mem_singleton] at h
      rw [h]
    | ok value =>
      rw [Proc.noted_bind hrun, noted_invoke, List.singleton_append, List.mem_cons] at h
      rcases h with rfl | h
      · exact le_rfl
      · exact (ih value h).trans (length_rest_callAt name).le
  | case3 done c s hopens ih => exact (ih h).trans (Nat.le_succ _)

/-- Behind a word character no invocation begins. -/
theorem length_text_of_hidden {inv : Invocation} (hdone : endsInWord done = true)
    (hopens : name ++ ['('] <+: rest)
    (h : inv ∈ (expandRest name m done rest).noted o (fun _ => [])) :
    inv.text.length < rest.length := by
  cases rest with
  | nil => simp at hopens
  | cons c s =>
    rw [expandRest_char (by simp [hdone])] at h
    exact Nat.lt_succ_of_le (length_text_of_mem_noted h)

theorem expandSegments_cons (seg : Segment) (segs : List Segment) :
    expandSegments o name m (seg :: segs) = (do
      let value ← seg.expansion o name m
      return value ++ (← expandSegments o name m segs)) := by
  simp only [expandSegments, List.mapM_cons, bind_assoc, pure_bind, List.flatten_cons]

theorem expandSegments_char (c : Char) (segs : List Segment) :
    expandSegments o name m (.char c :: segs) =
      (do return c :: (← expandSegments o name m segs)) := by
  rw [expandSegments_cons]
  rfl

theorem expandSegments_invocation {value : Str} (segs : List Segment)
    (h : (callAt name text).value o m = .ok value) :
    expandSegments o name m (.invocation text :: segs) =
      (do return value ++ (← expandSegments o name m segs)) := by
  rw [expandSegments_cons, Segment.expansion, h]
  rfl

/-- At an invocation of the text the pass is at a match. -/
theorem Aligned.done_of_invocation (h : Aligned name false done rest)
    (hopens : name ++ ['('] <+: rest) : endsInWord done = false :=
  (h.free rfl).resolve_right fun hno => hno hopens

/-- At a character of the text the pass is not at a match. -/
theorem Aligned.not_match (h : Aligned name behindWord done (c :: s))
    (hchar : ¬ (behindWord = false ∧ name ++ ['('] <+: c :: s)) :
    ¬ (endsInWord done = false ∧ name ++ ['('] <+: c :: s) := by
  rintro ⟨hdone, hopens⟩
  cases behindWord with
  | true => simp [h.behind rfl] at hdone
  | false => exact hchar ⟨rfl, hopens⟩

theorem aligned_char : Aligned name (isWord c) (done ++ [c]) s where
  behind h := by rw [endsInWord_concat, h]
  free h := by
    left
    rw [endsInWord_concat, h]

theorem aligned_invocation {value : Str} (hdone : endsInWord done = false)
    (hvalue : name ++ ['('] <+: rest → endsInWord value = false) :
    Aligned name false (done ++ value) rest where
  behind h := by cases h
  free _ := by
    by_cases hopens : name ++ ['('] <+: rest
    · exact Or.inl (endsInWord_append_eq_false hdone (hvalue hopens))
    · exact Or.inr hopens

/-- An aligned pass over spaced segments expands exactly the invocations. -/
theorem expandRest_of_spaced (hdone : Aligned name behindWord done rest)
    (hcomplete : ∀ text, .invocation text ∈ segments name behindWord rest →
      (callAt name text).Complete m)
    (hvalue : ∀ text, .invocation text ∈ segments name behindWord rest →
      ∃ value, (callAt name text).value o m = .ok value)
    (hspaced : Spaced o name m (segments name behindWord rest)) :
    (expandRest name m done rest).run o =
        (do return done ++ (← expandSegments o name m (segments name behindWord rest))) ∧
      (expandRest name m done rest).noted o (fun _ => []) =
        invocations name m (segments name behindWord rest) := by
  fun_induction segments name behindWord rest generalizing done with
  | case1 behindWord =>
    rw [expandRest_nil]
    constructor
    · simp only [expandSegments, List.mapM_nil, pure_bind, List.flatten_nil, List.append_nil]
      rfl
    · rfl
  | case2 behindWord c s hopens ih =>
    obtain ⟨rfl, hopens⟩ := hopens
    have hend := hdone.done_of_invocation hopens
    obtain ⟨value, hv⟩ := hvalue (c :: s) List.mem_cons_self
    obtain ⟨hfirst, hspaced⟩ := List.isChain_cons.mp hspaced
    have henough := (hcomplete (c :: s) List.mem_cons_self).2
    have hinvoke : (invoke name m (done.count '\n' + 1) (c :: s)).run o = .ok value :=
      (run_invoke (henough.trans (Nat.le_succ _))).trans hv
    -- an invocation that follows directly is not hidden by the expansion
    have hnext : Aligned name false (done ++ value) (callAt name (c :: s)).rest := by
      refine aligned_invocation hend fun hrest => ?_
      rw [segments_invocation hrest] at hfirst
      exact hfirst _ rfl value hv
    obtain ⟨hrun, hnoted⟩ := ih hnext
      (fun text htext => hcomplete text (List.mem_cons_of_mem _ htext))
      (fun text htext => hvalue text (List.mem_cons_of_mem _ htext)) hspaced
    rw [expandRest_invocation hend hopens]
    constructor
    · rw [Proc.run_bind, hinvoke, expandSegments_invocation _ hv]
      simp only [bind_assoc, pure_bind, ← List.append_assoc]
      exact hrun
    · rw [Proc.noted_bind hinvoke, hnoted, noted_invoke]
      rfl
  | case3 behindWord c s hchar ih =>
    obtain ⟨-, hspaced⟩ := List.isChain_cons.mp hspaced
    obtain ⟨hrun, hnoted⟩ := ih aligned_char
      (fun text htext => hcomplete text (List.mem_cons_of_mem _ htext))
      (fun text htext => hvalue text (List.mem_cons_of_mem _ htext)) hspaced
    rw [expandRest_char (hdone.not_match hchar)]
    constructor
    · rw [hrun, expandSegments_char]
      simp only [bind_assoc, pure_bind, List.append_assoc, List.singleton_append]
    · exact hnoted

/-- An aligned pass that expands exactly the invocations has spaced segments. -/
theorem spaced_of_noted (hdone : Aligned name behindWord done rest)
    (hcomplete : ∀ text, .invocation text ∈ segments name behindWord rest →
      (callAt name text).Complete m)
    (hvalue : ∀ text, .invocation text ∈ segments name behindWord rest →
      ∃ value, (callAt name text).value o m = .ok value)
    (hnoted : (expandRest name m done rest).noted o (fun _ => []) =
      invocations name m (segments name behindWord rest)) :
    Spaced o name m (segments name behindWord rest) := by
  fun_induction segments name behindWord rest generalizing done with
  | case1 behindWord => exact List.isChain_nil
  | case2 behindWord c s hopens ih =>
    obtain ⟨rfl, hopens⟩ := hopens
    have hend := hdone.done_of_invocation hopens
    obtain ⟨value, hv⟩ := hvalue (c :: s) List.mem_cons_self
    have henough := (hcomplete (c :: s) List.mem_cons_self).2
    have hinvoke : (invoke name m (done.count '\n' + 1) (c :: s)).run o = .ok value :=
      (run_invoke (henough.trans (Nat.le_succ _))).trans hv
    rw [expandRest_invocation hend hopens, Proc.noted_bind hinvoke, noted_invoke] at hnoted
    have hrest : (expandRest name m (done ++ value) (callAt name (c :: s)).rest).noted o
        (fun _ => []) = invocations name m (segments name false (callAt name (c :: s)).rest) :=
      (List.cons.inj hnoted).2
    -- if the expansion hid an invocation, the pass would never note its text
    have hfree : name ++ ['('] <+: (callAt name (c :: s)).rest → endsInWord value = false := by
      intro hnext
      by_contra hword
      have hhidden : endsInWord (done ++ value) = true :=
        endsInWord_append_eq_true (Bool.eq_true_of_not_eq_false hword)
      rw [segments_invocation hnext] at hrest
      have hmem : (⟨name, m.args, (callAt name (c :: s)).rest⟩ : Invocation) ∈
          (expandRest name m (done ++ value)
            (callAt name (c :: s)).rest).noted o (fun _ => []) := by
        rw [hrest]
        exact List.mem_cons_self
      exact absurd (length_text_of_hidden hhidden hnext hmem) (Nat.lt_irrefl _)
    refine List.isChain_cons.mpr ⟨fun seg hseg => ?_, ?_⟩
    · cases seg with
      | char c => trivial
      | invocation text =>
        intro value' hvalue'
        rw [hv] at hvalue'
        rw [← Except.ok.inj hvalue']
        exact hfree (of_head?_segments hseg).2
    · exact ih (aligned_invocation hend hfree)
        (fun text htext => hcomplete text (List.mem_cons_of_mem _ htext))
        (fun text htext => hvalue text (List.mem_cons_of_mem _ htext)) hrest
  | case3 behindWord c s hchar ih =>
    rw [expandRest_char (hdone.not_match hchar)] at hnoted
    have hrest := ih aligned_char
      (fun text htext => hcomplete text (List.mem_cons_of_mem _ htext))
      (fun text htext => hvalue text (List.mem_cons_of_mem _ htext)) hnoted
    exact List.isChain_cons.mpr ⟨fun seg _ => by cases seg <;> trivial, hrest⟩

/-- A pass is the segmentation of the text exactly if its segments are spaced, for every
macro and every expander that expands the arguments of the invocations. -/
theorem onePass_iff (o : Str → Except (Stop MacroError) Str) (name : Str) (m : Macro) (text : Str)
    (hcomplete : ∀ t, .invocation t ∈ segments name false text → (callAt name t).Complete m)
    (hvalue : ∀ t, .invocation t ∈ segments name false text →
      ∃ value, (callAt name t).value o m = .ok value) :
    OnePass o name m text ↔ Spaced o name m (segments name false text) := by
  have hstart : Aligned name false [] text := ⟨fun h => (by cases h), fun _ => Or.inl rfl⟩
  have hpass : expandPass name m (text.length + 1) text 0 = expandRest name m [] text :=
    expandPass_eq (Nat.zero_le _) (by omega)
  constructor
  · intro h
    refine spaced_of_noted hstart hcomplete hvalue ?_
    rw [← hpass]
    exact h.expanded
  · intro hspaced
    obtain ⟨hrun, hnoted⟩ := expandRest_of_spaced hstart hcomplete hvalue hspaced
    refine ⟨?_, ?_⟩
    · rw [hpass, hrun]
      simp only [List.nil_append, bind_pure]
    · rw [hpass, hnoted]

end Pass

/-! ## A hidden invocation -/

/-- The dictionary is iterated in the order in which the keys were set. -/
def insertionOrder : DictOrder := ⟨id, fun _ => List.Perm.refl _⟩

/-- `macro m(x) = x;` -/
def macroM : Macro := (TextMacro.mk [['x']] ['x']).toMacro insertionOrder

theorem segments_adjacent : segments ['m'] false "m(a)m(b)".toList =
    [.invocation "m(a)m(b)".toList, .invocation "m(b)".toList] := by
  rw [segments_invocation (by decide), show (callAt ['m'] "m(a)m(b)".toList).rest =
    "m(b)".toList by decide, segments_invocation (by decide),
    show (callAt ['m'] "m(b)".toList).rest = [] by decide, segments_nil]

theorem forall_segments_adjacent {P : Str → Prop} (ha : P "m(a)m(b)".toList)
    (hb : P "m(b)".toList) (t : Str)
    (ht : .invocation t ∈ segments ['m'] false "m(a)m(b)".toList) : P t := by
  rw [segments_adjacent] at ht
  simp only [List.mem_cons, Segment.invocation.injEq, List.not_mem_nil, or_false] at ht
  rcases ht with rfl | rfl
  · exact ha
  · exact hb

/-- Two adjacent invocations. -/
theorem onePass_iff_adjacent :
    OnePass (expandMacros [(['m'], macroM)] 1) ['m'] macroM "m(a)m(b)".toList ↔
      Spaced (expandMacros [(['m'], macroM)] 1) ['m'] macroM
        (segments ['m'] false "m(a)m(b)".toList) := by
  apply onePass_iff
  · apply forall_segments_adjacent <;> exact ⟨by decide, by decide⟩
  · apply forall_segments_adjacent
    · exact ⟨['a'], by decide⟩
    · exact ⟨['b'], by decide⟩

/-- The first expansion ends in a word character and hides the invocation behind it, which
stays in the text. -/
theorem not_onePass_adjacent :
    (expandPass ['m'] macroM 9 "m(a)m(b)".toList 0).run (expandMacros [(['m'], macroM)] 1) =
        .ok "am(b)".toList ∧
      expandSegments (expandMacros [(['m'], macroM)] 1) ['m'] macroM
        (segments ['m'] false "m(a)m(b)".toList) = .ok "ab".toList ∧
      ¬ OnePass (expandMacros [(['m'], macroM)] 1) ['m'] macroM "m(a)m(b)".toList := by
  have hpass : (expandPass ['m'] macroM 9 "m(a)m(b)".toList 0).run
      (expandMacros [(['m'], macroM)] 1) = .ok "am(b)".toList := by decide
  have hsegments : expandSegments (expandMacros [(['m'], macroM)] 1) ['m'] macroM
      (segments ['m'] false "m(a)m(b)".toList) = .ok "ab".toList := by
    rw [segments_adjacent]
    decide
  refine ⟨hpass, hsegments, fun h => ?_⟩
  have hresult := h.result
  rw [hsegments] at hresult
  exact absurd (hpass.symm.trans hresult) (by decide)

end NodeMini.Js2c
