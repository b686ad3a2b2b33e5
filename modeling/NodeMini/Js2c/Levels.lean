import NodeMini.Js2c.Calls
import NodeMini.Js2c.Definitions

/-!
# The levels of a text with calls

`ExpandMacros` makes a pass for each macro, and calls itself on the arguments of the calls.
The calls in a text are apart if the searches of all passes on all levels find them,
whichever macros are done. Then the passes of one level expand the calls of that level, the
calls in the arguments are expanded on the levels below, and the depth of the calls bounds
the depth of the recursion.

## Main definitions

* `Doc.Apart` — the searches find the calls, whatever has been expanded

## Main results

* `run_passes` — the passes of one level over a text with calls
* `exec_arg`, `exec_doc` — the recursion, on an argument and on the whole text
-/

namespace NodeMini.Js2c

open Lib

/-- The searches for the calls in a text find them, whatever has been expanded. -/
structure Doc.Apart (table : List (Str × Macro)) (doc : Doc) : Prop where
  calm : doc.Calm table
  found : ∀ done ∈ (table.map Prod.fst).sublists, ∀ e ∈ table, e.1 ∉ done →
    Found table (among done) e.1 [] (doc.steps table (among done) e.1)

/-! ## One level -/

section Level

variable {table macros before behind : List (Str × Macro)} {e : Str × Macro} {doc : Doc}
  {o : Str → Except (Stop MacroError) Str} {done : Str → Bool} {name : Str}

/-- When all macros of the table are done, all calls are expanded. -/
theorem render_all (h : ∀ e ∈ table, done e.1 = true) :
    ∀ doc : Doc, doc.Calm table → doc.render table done = doc.value table
  | .nil, _ => rfl
  | .char c rest, hcalm => by
    have hrest := render_all h rest hcalm
    rw [Doc.value] at hrest ⊢
    rw [Doc.render, Doc.render, hrest]
  | .call name args closing rest, ⟨⟨m, hm, _⟩, _, hcalm⟩ => by
    have hrest := render_all h rest hcalm
    rw [Doc.value] at hrest ⊢
    have hname : done name = true := h _ (mem_of_lookup hm)
    rw [Doc.render, Doc.render, hrest, if_pos hname, if_pos rfl]

/-- The arguments of a call are expanded to their values if each of them is. -/
theorem mapM_texts {args : Args} {count : ℕ} (hcalm : args.Calm table name count)
    (harg : ∀ before arg behind, ArgCalm table name before arg behind → arg.Calm table →
      arg.depth ≤ args.depth →
        o (strip (before ++ arg.render table done ++ behind)) = .ok (arg.value table)) :
    ((args.texts table done).take count).mapM (fun arg => o (strip arg)) =
      .ok ((args.values table).take count) := by
  cases count with
  | zero => rfl
  | succ count =>
    cases args with
    | last before arg behind =>
      have hvalue := harg before arg behind (hcalm.1 (Nat.succ_pos count)) hcalm.2 le_rfl
      rw [Args.texts, Args.values, List.take_succ_cons, List.take_succ_cons, List.take_nil,
        List.mapM_cons, hvalue]
      rfl
    | cons before arg behind more =>
      obtain ⟨hcalmarg, harg', hmore⟩ := hcalm
      have hvalue := harg before arg behind (hcalmarg (Nat.succ_pos count)) harg' (le_max_left _ _)
      have hrest := mapM_texts hmore fun before arg behind hargcalm hcalm hdepth =>
        harg before arg behind hargcalm hcalm (hdepth.trans (le_max_right _ _))
      rw [Nat.add_sub_cancel] at hrest
      rw [Args.texts, Args.values, List.take_succ_cons, List.take_succ_cons, List.mapM_cons,
        hvalue, hrest]
      rfl

/-- In an order of the table, what comes before a macro that is not among the first ones
begins with these. -/
theorem exists_eq_append {first rest : List (Str × Macro)}
    (hfirst : first ++ rest = before ++ e :: behind) (he : e.1 ∉ first.map Prod.fst) :
    ∃ more, before = first ++ more := by
  rcases List.append_eq_append_iff.mp hfirst with ⟨more, hmore, -⟩ | ⟨more, hmore, hrest⟩
  · exact ⟨more, hmore⟩
  · cases more with
    | nil => exact ⟨[], by rw [hmore, List.append_nil, List.append_nil]⟩
    | cons e' more =>
      obtain ⟨rfl, -⟩ := List.cons.inj hrest
      exact absurd (List.mem_map_of_mem (hmore ▸ by simp)) he

/-- The passes of one level over a text in which the calls of the first macros are already
expanded, if each search finds the calls and the arguments have their values. -/
theorem run_passes {first rest : List (Str × Macro)} (hmacros : macros.Perm table)
    (hnodup : (table.map Prod.fst).Nodup) (hfirst : first ++ rest = macros)
    (hcalm : doc.Calm table)
    (hfound : ∀ before e behind, macros = before ++ e :: behind →
      let done := among (first.map Prod.fst ++ before.map Prod.fst)
      Found table done e.1 [] (doc.steps table done e.1))
    (hargs : ∀ before e behind, macros = before ++ e :: behind → ∀ args : Args,
      args.Calm table e.1 e.2.args.length → args.depth < doc.depth →
        Answers o table (among (before.map Prod.fst)) e.2 args) :
    (expandTable macros (doc.render table (among (first.map Prod.fst)))).run o =
      .ok (doc.value table) := by
  have hmacrosnodup := (hmacros.map Prod.fst).nodup_iff.mpr hnodup
  have hpasses := foldlM_among (doc.render table) Prod.fst (first.map Prod.fst) macros
    (fun lines (e : Str × Macro) => (expandRest e.1 e.2 [] lines).run o)
    fun before e behind hsplit => by
      have hlookup : table.lookup e.1 = some e.2 :=
        lookup_eq_some_of_mem hnodup (hmacros.mem_iff.mp (hsplit ▸ by simp))
      have hrun := run_steps (o := o) hlookup (hfound before e behind hsplit)
        fun args closing hmem => by
          obtain ⟨hfresh, hexpands, hargscalm, hdepth⟩ := doc.of_mem_steps hmem hcalm
          refine ⟨hexpands, ?_⟩
          -- the macro is not among the first ones, so these have been made again
          rw [among_eq_false_iff, List.mem_append, not_or] at hfresh
          obtain ⟨more, rfl⟩ := exists_eq_append (hfirst.trans hsplit) hfresh.1
          have hsame : among (first.map Prod.fst ++ (first ++ more).map Prod.fst) =
              among ((first ++ more).map Prod.fst) := by
            apply among_congr
            simp
          rw [hsame]
          rw [arity, hlookup] at hargscalm
          exact hargs _ e behind hsplit args hargscalm hdepth
      rw [doc.flatMap_before, doc.flatMap_behind, List.nil_append] at hrun
      exact hrun
  rw [expandTable_eq, Proc.run_foldlM]
  refine hpasses.trans (congrArg Except.ok (render_all (fun e he => ?_) doc hcalm))
  rw [among_eq_true_iff, List.mem_append]
  exact Or.inr (List.mem_map_of_mem (hmacros.mem_iff.mpr he))

end Level

/-! ## The recursion -/

section Recursion

variable {table macros : List (Str × Macro)} {doc : Doc}

/-- The names of some macros are a sublist of the names in the table. -/
theorem exists_sublist_of_perm {l : List (Str × Macro)} (hmacros : macros.Perm table)
    (hl : ∀ e ∈ l, e ∈ macros) :
    ∃ done ∈ (table.map Prod.fst).sublists, ∀ k, k ∈ done ↔ k ∈ l.map Prod.fst := by
  refine exists_sublist fun k hk => ?_
  obtain ⟨e, he, rfl⟩ := List.mem_map.mp hk
  exact List.mem_map_of_mem (hmacros.mem_iff.mp (hl e he))

/-- An argument of a call is expanded to its value, whichever macros come before that of the
call. The induction is on a bound for the depth of the calls in it, which is the budget. -/
theorem exec_arg (hmacros : macros.Perm table) (hnodup : (table.map Prod.fst).Nodup) (depth : ℕ)
    {first rest : List (Str × Macro)} {e : Str × Macro} (hsplit : first ++ e :: rest = macros)
    {before : Str} {arg : Doc} {behind : Str} (hargcalm : ArgCalm table e.1 before arg behind)
    (hcalm : arg.Calm table) (hdepth : arg.depth < depth) :
    Proc.exec (expandTable macros) depth
        (strip (before ++ arg.render table (among (first.map Prod.fst)) ++ behind)) =
      .ok (arg.value table) := by
  have hmacrosnodup := (hmacros.map Prod.fst).nodup_iff.mpr hnodup
  induction depth generalizing first rest e before arg behind with
  | zero => omega
  | succ depth ih =>
    have hfresh : e.1 ∉ first.map Prod.fst := not_mem_map_of_nodup (hsplit ▸ hmacrosnodup)
    -- what is asked is the argument without its white space
    obtain ⟨done, hdone, hmem⟩ := exists_sublist_of_perm (l := first) hmacros
      fun e he => hsplit ▸ List.mem_append_left _ he
    have hstrip := (hargcalm done hdone).1 fun h => hfresh ((hmem e.1).mp h)
    rw [among_congr hmem] at hstrip
    rw [hstrip]
    refine run_passes hmacros hnodup hsplit hcalm (fun before' e' behind' hsplit' => ?_)
      fun before' e' behind' hsplit' args hargscalm hargsdepth => ?_
    · obtain ⟨done, hdone, hmem⟩ := exists_sublist_of_perm (l := first ++ before') hmacros
        fun e he => by
          rcases List.mem_append.mp he with he | he
          · exact hsplit ▸ List.mem_append_left _ he
          · exact hsplit' ▸ List.mem_append_left _ he
      rw [List.map_append] at hmem
      rw [← among_congr hmem]
      have he' : e' ∈ table := hmacros.mem_iff.mp (hsplit' ▸ by simp)
      refine (hargcalm done hdone).2 e' he' ?_
      rw [hmem, hmem, List.mem_append, List.mem_append]
      -- the macro of this pass or that of the call has not been made
      rcases List.append_eq_append_iff.mp (hsplit.trans hsplit') with
        ⟨more, hmore, -⟩ | ⟨more, hmore, -⟩
      · left
        have hfresh' : e'.1 ∉ before'.map Prod.fst := not_mem_map_of_nodup (hsplit' ▸ hmacrosnodup)
        rintro (hfirst | hbefore)
        · exact hfresh' (by rw [hmore, List.map_append]; exact List.mem_append_left _ hfirst)
        · exact hfresh' hbefore
      · right
        rintro (hfirst | hbefore)
        · exact hfresh hfirst
        · exact hfresh (by rw [hmore, List.map_append]; exact List.mem_append_left _ hbefore)
    · refine mapM_texts hargscalm fun before arg behind hargcalm hcalm hdepth' => ?_
      exact ih hsplit'.symm hargcalm hcalm (by omega)

/-- The whole text is expanded to its value. -/
theorem exec_doc (hmacros : macros.Perm table) (hnodup : (table.map Prod.fst).Nodup)
    (hdoc : doc.Apart table) {fuel : ℕ} (hfuel : doc.depth < fuel) :
    expandMacros macros fuel (doc.source table) = .ok (doc.value table) := by
  have hmacrosnodup := (hmacros.map Prod.fst).nodup_iff.mpr hnodup
  obtain ⟨fuel, rfl⟩ : ∃ n, fuel = n + 1 := ⟨fuel - 1, by omega⟩
  have hfirst : [] ++ macros = macros := rfl
  rw [Doc.source, ← among_nil]
  refine run_passes hmacros hnodup hfirst hdoc.calm (fun before e behind hsplit => ?_)
    fun before e behind hsplit args hargscalm hargsdepth => ?_
  · obtain ⟨done, hdone, hmem⟩ := exists_sublist_of_perm (l := before) hmacros
      fun e he => hsplit ▸ List.mem_append_left _ he
    have he : e ∈ table := hmacros.mem_iff.mp (hsplit ▸ by simp)
    have hfresh : e.1 ∉ before.map Prod.fst := not_mem_map_of_nodup (hsplit ▸ hmacrosnodup)
    rw [List.map_nil, List.nil_append, ← among_congr hmem]
    exact hdoc.found done hdone e he (by rwa [hmem])
  · refine mapM_texts hargscalm fun before arg behind hargcalm hcalm hdepth => ?_
    exact exec_arg hmacros hnodup fuel hsplit.symm hargcalm hcalm (by omega)

end Recursion

end NodeMini.Js2c
