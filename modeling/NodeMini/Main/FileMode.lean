import NodeMini.Loaders.Initialisation
import NodeMini.Main.Console
import NodeMini.Native.Lookup

/-!
# `main` in file mode

`main` registers the builtin modules, evaluates `lib/console.js`, runs the loader's
bootstrap and then the script. The startup files are those of the repository, so nothing
is reported missing. A script is given by the console calls it makes.

## Main definitions

* `startup`, `fileMode` — everything before the script, and the whole process
* `OutputLaw` — each stream carries what its console calls were given, and nothing else

## Main results

* `fileMode_output` — what the process writes
* `outputLaw_never` — the law fails for every script
-/

namespace NodeMini

open Lib

/-- A console call of a script, with string arguments. -/
inductive OutputAction
  | log (args : List JsString)
  | error (args : List JsString)
  deriving DecidableEq, Repr

/-- Run a console call. -/
def OutputAction.perform (console : Console) (w : World) : OutputAction → World
  | .log args => console.log w (args.map some)
  | .error args => console.error w (args.map some)

/-- `main` up to the script. The `process` object given to the loader, with its
`moduleLoadList` and `binding`, is not reachable from the script. -/
def startup (fuel : ℕ) : Except Halt (Console × World) := do
  let w := World.start registerBuiltinModules
  let console := newConsole none none
  let loader ← bootstrapLoaders fuel w .empty
  return (console, loader.world)

/-- `main` in file mode. -/
def fileMode (fuel : ℕ) (script : List OutputAction) : Except Halt World := do
  let (console, w) ← startup fuel
  return script.foldl (OutputAction.perform console) w

/-! ## What the streams should carry -/

/-- The arguments of a console call in UTF-8, with spaces between, and a newline. -/
def consoleLine (args : List JsString) : List UInt8 :=
  (utf8 " ").intercalate (args.map Utf8.encodeUnits) ++ utf8 "\n"

/-- What a console call should write to standard output. -/
def OutputAction.toStdout : OutputAction → List UInt8
  | .log args => consoleLine args
  | .error _ => []

/-- What a console call should write to standard error. -/
def OutputAction.toStderr : OutputAction → List UInt8
  | .log _ => []
  | .error args => utf8 "Error: " ++ consoleLine args

/-- The output of a process that started a script in the state `w₀` and ended in `w`. -/
structure OutputLaw (w₀ : World) (script : List OutputAction) (w : World) : Prop where
  stdout : w.stdout = script.flatMap OutputAction.toStdout
  stderr : w.stderr = script.flatMap OutputAction.toStderr
  silent : w₀.stdout = [] ∧ w₀.stderr = []

/-! ## What they carry -/

/-- The arguments of a console call as `print` writes them. -/
def printedLine (args : List JsString) : List UInt8 := printArgs true (args.map some) ++ utf8 "\n"

/-- What a console call writes to standard output. -/
def OutputAction.printed : OutputAction → List UInt8
  | .log args => printedLine args
  | .error args => utf8 "Error: " ++ printedLine args

section

variable {fuel : ℕ} {script : List OutputAction} {w w₀ : World} {console : Console}

theorem OutputAction.perform_eq (action : OutputAction) :
    action.perform (newConsole none none) w = w.cout action.printed := by
  cases action with
  | log args => rfl
  | error args =>
    change w.cout (utf8 "Error: " ++ printArgs true (args.map some) ++ utf8 "\n") = _
    rw [List.append_assoc]
    rfl

/-- A script appends to standard output only. -/
theorem foldl_perform :
    script.foldl (OutputAction.perform (newConsole none none)) w =
      w.cout (script.flatMap OutputAction.printed) := by
  induction script generalizing w with
  | nil => simp [World.cout]
  | cons action script ih =>
    rw [List.foldl_cons, OutputAction.perform_eq, ih, List.flatMap_cons]
    simp [World.cout]

/-- No builtin module is named `"natives"`. -/
theorem findBuiltin_natives {mod : Option Ptr}
    (h : registerBuiltinModules.findBuiltin fuel natives = some mod) : mod = none := by
  -- one iteration is enough for the one module there is
  have hnone : registerBuiltinModules.findBuiltin 1 natives = some none := by decide
  exact Registry.findBuiltin_unique h hnone

/-- The loader's lookup of `"natives"` prints its result. -/
theorem startup_cases (h : startup fuel = .ok (console, w₀)) :
    console = newConsole none none ∧ w₀.stdout = utf8 "1\n" ∧ w₀.stderr = [] := by
  obtain ⟨L, hboot, h⟩ := except_bind_eq_ok.mp h
  obtain ⟨rfl, rfl⟩ := Prod.mk.inj (Except.ok.inj h)
  obtain ⟨v, w, hget, rfl⟩ := bootstrapLoaders_cases hboot
  obtain ⟨mod, hfound, -, -, -, hout, herr, -⟩ := World.getBinding_cases hget
  obtain rfl := findBuiltin_natives hfound
  exact ⟨rfl, hout, herr⟩

/-- **What a process writes**: the result of the loader's lookup, then every console call,
all to standard output. -/
theorem fileMode_output (h : fileMode fuel script = .ok w) :
    w.stdout = utf8 "1\n" ++ script.flatMap OutputAction.printed ∧ w.stderr = [] := by
  obtain ⟨⟨console, w₀⟩, hstartup, h⟩ := except_bind_eq_ok.mp h
  obtain ⟨rfl, hout, herr⟩ := startup_cases hstartup
  obtain rfl := Except.ok.inj h
  rw [foldl_perform]
  exact ⟨congrArg (· ++ _) hout, herr⟩

/-- File mode reaches the script. -/
theorem startup_returns (hfuel : 1 ≤ fuel) :
    ∃ w₀, startup fuel = .ok (newConsole none none, w₀) := by
  have hshape :
      (World.start registerBuiltinModules).registry.Shape (fun _ => contextifyModule) [0] :=
    Registry.shape_registerAll (by decide)
  obtain ⟨v, w, hget⟩ :=
    World.getBinding_of_shape hshape (fun _ _ => ⟨rfl, rfl⟩) hfuel (js "natives")
  exact ⟨_, except_bind_eq_ok.mpr ⟨_, except_bind_eq_ok.mpr ⟨_, hget, rfl⟩, rfl⟩⟩

theorem zero_notMem_printed (action : OutputAction) : (0 : UInt8) ∉ action.printed := by
  have hline : ∀ args, (0 : UInt8) ∉ printedLine args := by
    intro args
    rw [printedLine, List.mem_append]
    exact fun h => h.elim zero_notMem_printArgs (by decide)
  cases action with
  | log args => exact hline args
  | error args =>
    rw [OutputAction.printed, List.mem_append]
    exact fun h => h.elim (by decide) (hline args)

theorem mem_intercalate_of_mem {α : Type*} {sep part : List α} {parts : List (List α)} {x : α}
    (hpart : part ∈ parts) (hx : x ∈ part) : x ∈ sep.intercalate parts := by
  induction parts with
  | nil => cases hpart
  | cons head parts ih =>
    cases parts with
    | nil =>
      rw [List.intercalate_singleton]
      exact List.mem_singleton.mp hpart ▸ hx
    | cons next parts =>
      rw [List.intercalate_cons_cons, List.mem_append]
      rcases List.mem_cons.mp hpart with rfl | hpart
      · exact Or.inl (List.mem_append_left _ hx)
      · exact Or.inr (ih hpart)

/-- Without zero code units a line is printed as it should be. -/
theorem consoleLine_eq_printedLine {args : List JsString} (h : (0 : UInt8) ∉ consoleLine args) :
    consoleLine args = printedLine args := by
  -- a zero code unit of an argument would be a zero byte of the line
  have hargs : ∀ s ∈ args, (0 : UInt16) ∉ s := by
    intro s hs hzero
    apply h
    refine List.mem_append_left _ (mem_intercalate_of_mem (List.mem_map_of_mem hs) ?_)
    exact Utf8.zero_mem_encodeUnits_iff.mpr hzero
  rw [consoleLine, printedLine, printArgs_eq_intercalate, List.map_map]
  have hmap : args.map (printedArg ∘ some) = args.map Utf8.encodeUnits :=
    List.map_congr_left fun s hs => printedArg_some (hargs s hs)
  rw [hmap]

/-- A console call prints at least what it should, unless a zero byte is lost. -/
theorem length_toStdout_le {action : OutputAction} (h : (0 : UInt8) ∉ action.toStdout) :
    action.toStdout.length ≤ action.printed.length := by
  cases action with
  | log args => exact Nat.le_of_eq (congrArg List.length (consoleLine_eq_printedLine h))
  | error args => exact Nat.zero_le _

theorem length_flatMap_toStdout_le (h : (0 : UInt8) ∉ script.flatMap OutputAction.toStdout) :
    (script.flatMap OutputAction.toStdout).length ≤
      (script.flatMap OutputAction.printed).length := by
  induction script with
  | nil => exact Nat.le_refl _
  | cons action script ih =>
    rw [List.flatMap_cons, List.mem_append, not_or] at h
    rw [List.flatMap_cons, List.flatMap_cons, List.length_append, List.length_append]
    exact Nat.add_le_add (length_toStdout_le h.1) (ih h.2)

/-- No script gets the standard output it should: either a zero byte is lost, or the
loader's output is too much. -/
theorem printed_ne_toStdout (script : List OutputAction) :
    utf8 "1\n" ++ script.flatMap OutputAction.printed ≠ script.flatMap OutputAction.toStdout := by
  intro heq
  -- what is printed has no zero byte, so neither has what should be
  have hzero : (0 : UInt8) ∉ script.flatMap OutputAction.toStdout := by
    rw [← heq, List.mem_append]
    rintro (h | h)
    · exact absurd h (by decide)
    · obtain ⟨action, -, h⟩ := List.mem_flatMap.mp h
      exact zero_notMem_printed action h
  -- then every call prints at least as much as it should, and two bytes are in front
  have hle := length_flatMap_toStdout_le hzero
  rw [← heq, List.length_append] at hle
  have hprefix : (utf8 "1\n").length = 2 := by decide
  omega

/-- Standard error should carry something exactly if there is a `console.error` call. -/
theorem toStderr_eq_nil_iff :
    script.flatMap OutputAction.toStderr = [] ↔ ∀ args, .error args ∉ script := by
  rw [List.flatMap_eq_nil_iff]
  constructor
  · intro h args hmem
    have := h _ hmem
    simp [OutputAction.toStderr, utf8, Utf8.encodeText, Utf8.encodeCodePoint] at this
  · intro h action hmem
    cases action with
    | log args => rfl
    | error args => exact absurd hmem (h args)

/-- **The output law fails for every script.** The process is not silent before the script,
and standard output never is what it should be; standard error is exactly when the script
makes no `console.error` call. File mode does reach the end of every script. -/
theorem outputLaw_never (fuel : ℕ) (script : List OutputAction) :
    (∀ console w₀ w, startup fuel = .ok (console, w₀) → fileMode fuel script = .ok w →
      ¬ OutputLaw w₀ script w ∧
      w.stdout ≠ script.flatMap OutputAction.toStdout ∧
      (w.stderr = script.flatMap OutputAction.toStderr ↔ ∀ args, .error args ∉ script) ∧
      w₀.stdout ≠ []) ∧
    (1 ≤ fuel → ∃ w, fileMode fuel script = .ok w) := by
  constructor
  · intro console w₀ w hstartup hmain
    obtain ⟨-, hboot, -⟩ := startup_cases hstartup
    obtain ⟨hout, herr⟩ := fileMode_output hmain
    have hnoise : w₀.stdout ≠ [] := by
      rw [hboot]
      decide
    refine ⟨fun hlaw => hnoise hlaw.silent.1, ?_, ?_, hnoise⟩
    · rw [hout]
      exact printed_ne_toStdout script
    · rw [herr, ← toStderr_eq_nil_iff]
      exact eq_comm
  · intro hfuel
    obtain ⟨w₀, hstartup⟩ := startup_returns hfuel
    exact ⟨_, except_bind_eq_ok.mpr ⟨_, hstartup, rfl⟩⟩

/-- A zero byte is lost, the error line goes to standard output, and the loader's lookup
is in front. -/
theorem fileMode_cut_and_error :
    ∃ w, fileMode 1 [.log [js "a" ++ 0 :: js "b"], .error [js "x"]] = .ok w ∧
      w.stdout = utf8 "1\na\nError: x\n" ∧ w.stderr = [] ∧
      w.stdout ≠ consoleLine [js "a" ++ 0 :: js "b"] ∧
      w.stderr ≠ utf8 "Error: " ++ consoleLine [js "x"] := by
  refine ⟨_, rfl, ?_, rfl, ?_, ?_⟩ <;> decide

theorem outputLaw_never_log :
    ∃ console w₀ w, startup 1 = .ok (console, w₀) ∧ fileMode 1 [.log [js "a"]] = .ok w ∧
      ¬ OutputLaw w₀ [.log [js "a"]] w := by
  have hlaw := outputLaw_never 1 [.log [js "a"]]
  obtain ⟨w, hmain⟩ := hlaw.2 (Nat.le_refl 1)
  obtain ⟨w₀, hstartup⟩ := startup_returns (Nat.le_refl 1)
  exact ⟨_, w₀, w, hstartup, hmain, (hlaw.1 _ w₀ w hstartup hmain).1⟩

end

end NodeMini
