import NodeMini.Js2c.Levels
import NodeMini.Js2c.Constants

/-!
# The order of the tables

`JS2C` expands the constants and then the macros of a source text, each in the order in
which a dictionary is iterated. The text that comes out is the same for every two orders if
the constants and the calls in the text keep out of each other's way: whatever has been
replaced already, the searches find the names and the calls that the source text has, and
nothing else.

## Main definitions

* `OrderFree` — every two orders give the same text
* `Undisturbed` — the replacements keep out of each other's way

## Main results

* `orderFree_of_undisturbed` — undisturbed texts do not depend on the order
* `not_orderFree` — texts that do
-/

namespace NodeMini.Js2c

open Lib

/-- The source text is made of characters and names of constants, and the text with the
constants replaced of characters and calls of macros, and all of them are found whatever
has been replaced. -/
def Undisturbed (constants : Dict Str) (table : List (Str × Macro)) (text : Str) : Prop :=
  ∃ (template : Template) (doc : Doc), template.source constants = text ∧
    template.Apart constants ∧ doc.source table = template.value constants ∧ doc.Apart table

/-- The expansion gives the same text for every two orders of the two tables. -/
def OrderFree (constants : Dict Str) (table : List (Str × Macro)) (text : Str) : Prop :=
  ∀ constants₁ constants₂ table₁ table₂, constants₁.Perm constants → constants₂.Perm constants →
    table₁.Perm table → table₂.Perm table →
      ∃ result fuel, ∀ n, fuel ≤ n → expandSource constants₁ table₁ n text = .ok result ∧
        expandSource constants₂ table₂ n text = .ok result

/-! ## Texts whose order does not matter -/

theorem nodup_toTable {order : DictOrder} {macros : Dict Definition} (h : Keyed macros) :
    ((toTable order macros).map Prod.fst).Nodup := by
  have hkeys : (toTable order macros).map Prod.fst = macros.map Prod.fst := by
    rw [toTable, List.map_map]
    rfl
  rw [hkeys]
  exact h.nodup

/-- For all dictionaries that `ReadMacros` returns, a source text in which the replacements
keep out of each other's way is expanded to the same text in every order. -/
theorem orderFree_of_undisturbed
    {evalLambda : Str → Except MacroError (List Str → Except MacroError Str)} {lines : List Str}
    {tables : Tables} (hread : readMacros evalLambda lines = .ok tables) (order : DictOrder)
    (text : Str) (h : Undisturbed tables.constants (toTable order tables.macros) text) :
    OrderFree tables.constants (toTable order tables.macros) text := by
  intro constants₁ constants₂ table₁ table₂ hconstants₁ hconstants₂ htable₁ htable₂
  obtain ⟨template, doc, rfl, htemplate, hsource, hdoc⟩ := h
  have hwell := Tables.wellFormed_of_readMacros hread
  have hnames : ∀ e ∈ tables.constants, e.1 ≠ [] := fun e he =>
    (hwell.constants.identifier e.1 (List.mem_map_of_mem he)).ne_nil
  have hnodup : ((toTable order tables.macros).map Prod.fst).Nodup := nodup_toTable hwell.macros
  -- every order gives the value of the text
  have hvalue : ∀ constants' table' n, constants'.Perm tables.constants →
      table'.Perm (toTable order tables.macros) → doc.depth + 1 ≤ n →
      expandSource constants' table' n (template.source tables.constants) =
        .ok (doc.value (toTable order tables.macros)) := by
    intro constants' table' n hconstants htable hn
    have htext := expandConstants_eq htemplate hwell.constants.nodup hnames hconstants
    rw [expandSource, htext, ← hsource]
    exact exec_doc htable hnodup hdoc hn
  exact ⟨_, doc.depth + 1, fun n hn => ⟨hvalue _ _ n hconstants₁ htable₁ hn,
    hvalue _ _ n hconstants₂ htable₂ hn⟩⟩

/-- Where the order does not matter, all runs that return return the same text. -/
theorem OrderFree.result_eq {constants constants₁ constants₂ : Dict Str}
    {table table₁ table₂ : List (Str × Macro)} {text result₁ result₂ : Str} {n₁ n₂ : ℕ}
    (h : OrderFree constants table text) (hconstants₁ : constants₁.Perm constants)
    (hconstants₂ : constants₂.Perm constants) (htable₁ : table₁.Perm table)
    (htable₂ : table₂.Perm table) (h₁ : expandSource constants₁ table₁ n₁ text = .ok result₁)
    (h₂ : expandSource constants₂ table₂ n₂ text = .ok result₂) : result₁ = result₂ := by
  obtain ⟨result, fuel, hn⟩ := h _ _ _ _ hconstants₁ hconstants₂ htable₁ htable₂
  -- with the largest budget both runs are those of the common result
  obtain ⟨hlarge₁, hlarge₂⟩ := hn (max fuel (max n₁ n₂)) (le_max_left _ _)
  have hle₁ : n₁ ≤ max fuel (max n₁ n₂) := (le_max_left _ _).trans (le_max_right _ _)
  have hle₂ : n₂ ≤ max fuel (max n₁ n₂) := (le_max_right _ _).trans (le_max_right _ _)
  rw [expandSource, expandMacros] at h₁ h₂ hlarge₁ hlarge₂
  rw [Proc.exec_mono hle₁ (by simp [h₁]), h₁] at hlarge₁
  rw [Proc.exec_mono hle₂ (by simp [h₂]), h₂] at hlarge₂
  exact (Except.ok.inj hlarge₁).trans (Except.ok.inj hlarge₂).symm

/-- The constants `A` and `B`, `macro m(x) = [x];` and `macro n(y) = (y);`. -/
def tablesAB : Tables :=
  ⟨[(['A'], ['1']), (['B'], ['2'])],
    [(['m'], .text ⟨[['x']], "[x]".toList⟩), (['n'], .text ⟨[['y']], "(y)".toList⟩)]⟩

/-- The text `1 m(n(2))` with its calls. -/
def nestedDoc : Doc :=
  .char '1' (.char ' ' (.call ['m']
    (.last [] (.call ['n'] (.last [] (.char '2' .nil) []) [')'] .nil) []) [')'] .nil))

/-- Two constants, and a call in the argument of another. -/
theorem orderFree_nested :
    OrderFree tablesAB.constants (toTable insertionOrder tablesAB.macros) "A m(n(B))".toList := by
  have hread : readMacros (fun _ => .error (.raised []))
      ["const A = 1;".toList, "const B = 2;".toList, "macro m(x) = [x];".toList,
        "macro n(y) = (y);".toList] = .ok tablesAB := rfl
  have hfound : ∀ done ∈ ((toTable insertionOrder tablesAB.macros).map Prod.fst).sublists,
      ∀ e ∈ toTable insertionOrder tablesAB.macros, e.1 ∉ done →
        Found (toTable insertionOrder tablesAB.macros) (among done) e.1 []
          (nestedDoc.steps (toTable insertionOrder tablesAB.macros) (among done) e.1) := by decide
  have houter : ArgCalm (toTable insertionOrder tablesAB.macros) ['m'] []
      (.call ['n'] (.last [] (.char '2' .nil) []) [')'] .nil) [] := by decide
  have hinner : ArgCalm (toTable insertionOrder tablesAB.macros) ['n'] [] (.char '2' .nil) [] := by
    decide
  have hcalm : nestedDoc.Calm (toTable insertionOrder tablesAB.macros) :=
    ⟨⟨_, rfl, by decide, _, rfl⟩, ⟨fun _ => houter, ⟨_, rfl, by decide, _, rfl⟩,
      ⟨fun _ => hinner, trivial⟩, trivial⟩, trivial⟩
  exact orderFree_of_undisturbed hread insertionOrder _ ⟨
    .const ['A'] :: " m(n(".toList.map .char ++ .const ['B'] :: "))".toList.map .char, nestedDoc,
    by decide, by decide, by decide, hcalm, hfound⟩

/-! ## Orders that matter -/

/-- The constants `A` and `AB`: one name is part of the other. -/
def nestedNames : Dict Str := [(['A'], ['1']), ("AB".toList, ['2'])]

/-- `macro f(x) = g(x);` and `macro g(x) = [x];`: the body of one calls the other. -/
def nestedBodies : Dict Definition :=
  [(['f'], .text ⟨[['x']], "g(x)".toList⟩), (['g'], .text ⟨[['x']], "[x]".toList⟩)]

/-- `AB` is replaced by `2` or, when `A` comes first, by `1B`; and `f(1)` by `[1]` or, when
`g` comes first, by `g(1)`. -/
theorem not_orderFree :
    readMacros (fun _ => .error (.raised []))
        ["const A = 1;".toList, "const AB = 2;".toList, "macro f(x) = g(x);".toList,
          "macro g(x) = [x];".toList] = .ok ⟨nestedNames, nestedBodies⟩ ∧
      expandConstants "AB".toList nestedNames = "1B".toList ∧
      expandConstants "AB".toList nestedNames.reverse = "2".toList ∧
      expandMacros (toTable insertionOrder nestedBodies) 2 "f(1)".toList = .ok "[1]".toList ∧
      expandMacros (toTable insertionOrder nestedBodies).reverse 2 "f(1)".toList =
        .ok "g(1)".toList ∧
      ¬ OrderFree nestedNames (toTable insertionOrder nestedBodies) "AB".toList ∧
      ¬ OrderFree nestedNames (toTable insertionOrder nestedBodies) "f(1)".toList := by
  have hconstants := List.Perm.refl nestedNames
  have htable := List.Perm.refl (toTable insertionOrder nestedBodies)
  refine ⟨rfl, by decide, by decide, by decide, by decide, fun h => ?_, fun h => ?_⟩
  · have hfirst : expandSource nestedNames (toTable insertionOrder nestedBodies) 1 "AB".toList =
        .ok "1B".toList := by decide
    have hsecond : expandSource nestedNames.reverse (toTable insertionOrder nestedBodies) 1
        "AB".toList = .ok "2".toList := by decide
    have hsame := h.result_eq hconstants (List.reverse_perm _) htable htable hfirst hsecond
    exact absurd hsame (by decide)
  · have hfirst : expandSource nestedNames (toTable insertionOrder nestedBodies) 2
        "f(1)".toList = .ok "[1]".toList := by decide
    have hsecond : expandSource nestedNames (toTable insertionOrder nestedBodies).reverse 2
        "f(1)".toList = .ok "g(1)".toList := by decide
    have hsame := h.result_eq hconstants hconstants htable (List.reverse_perm _) hfirst hsecond
    exact absurd hsame (by decide)

end NodeMini.Js2c
