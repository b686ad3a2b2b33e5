import NodeMini.Main.FileMode
import NodeMini.Main.Script

/-!
# The script as its console calls

`Main.FileMode` takes a script for its console calls, and the bootstrap for the one lookup that the
loader makes. In `Main.Script` an isolate runs the files, and calls native functions when the code
does. If the files are there, and the code makes just these calls, then the process that runs it
returns, and writes what `fileMode` does.

## Main definitions

* `Request` — a call of a native function with strings
* `Makes` — the calls that the code makes until it completes
* `Follows` — the files are there and make the calls of `fileMode`

## Main results

* `prints_body` — code that makes some calls writes what they write
* `main_refines_fileMode` — the process writes what `fileMode` does
-/

namespace NodeMini.Main

open Lib Shell

variable {σ V α β : Type}

/-! ## Computations that return -/

/-- The computation returns the value, and writes the bytes to standard output. -/
def Prints (o : σ → Except (Stop Exit) (Completion V × σ)) (sub : σ → List Output) (a : α)
    (bytes : List UInt8) (p : NativeCode σ V α) : Prop :=
  p.Meets o sub fun r t => r = .ok a ∧ stdoutOf t = bytes ∧ stderrOf t = []

section Prints

variable {o : σ → Except (Stop Exit) (Completion V × σ)} {sub : σ → List Output} {a : α} {b : β}
  {bytes more : List UInt8} {p : NativeCode σ V α} {f : α → NativeCode σ V β} {s : σ}

theorem prints_pure (a : α) : Prints o sub a [] (pure a : NativeCode σ V α) :=
  Proc.meets_pure ⟨rfl, rfl, rfl⟩

theorem prints_printf (bytes : List UInt8) :
    Prints o sub () bytes (printf bytes : NativeCode σ V Unit) :=
  Proc.meets_tell ⟨rfl, List.append_nil bytes, rfl⟩

/-- A call of the isolate returns what it has returned. -/
theorem prints_ask {r : Completion V × σ} (h : o s = .ok r) (hstdout : stdoutOf (sub s) = bytes)
    (hstderr : stderrOf (sub s) = []) : Prints o sub r bytes (.ask s) :=
  Proc.meets_ask ⟨h, hstdout, hstderr⟩

theorem prints_bind (hp : Prints o sub a bytes p) (hf : Prints o sub b more (f a)) :
    Prints o sub b (bytes ++ more) (p >>= f) := by
  refine Proc.meets_bind hp ?_ ?_
  · rintro stop t ⟨hstop, -⟩
    cases hstop
  · rintro a' t ⟨ha, hstdout, hstderr⟩
    cases ha
    refine Proc.meets_mono hf fun r u hu => ?_
    obtain ⟨hr, hout, herr⟩ := hu
    refine ⟨hr, ?_, ?_⟩
    · rw [stdoutOf_append, hstdout, hout]
    · rw [stderrOf_append, hstderr, herr, List.append_nil]

/-- A computation that is silent, and another one. -/
theorem prints_bind_silent (hp : Prints o sub a [] p) (hf : Prints o sub b bytes (f a)) :
    Prints o sub b bytes (p >>= f) := prints_bind hp hf

/-- A computation whose value is handed back. -/
theorem prints_bind_pure (hp : Prints o sub a bytes p) (hf : f a = pure b) :
    Prints o sub b bytes (p >>= f) := by
  have hend : Prints o sub b [] (f a) := by
    rw [hf]
    exact prints_pure b
  rw [← List.append_nil bytes]
  exact prints_bind hp hend

end Prints

/-! ## Calls -/

/-- A call of a native function with strings. -/
inductive Request
  | print (args : List JsString)
  | printError (args : List JsString)
  | getBinding (module : JsString)
  deriving DecidableEq, Repr

/-- The native function that is called. -/
def Request.function : Request → NativeFunction
  | .print _ => .print
  | .printError _ => .printError
  | .getBinding _ => .getBinding

/-- The strings that it is given. -/
def Request.args : Request → List JsString
  | .print args => args
  | .printError args => args
  | .getBinding module => [module]

/-- What the call hands back, and what it writes. -/
def Request.answer (fuel : ℕ) : Request → Option (Return × List UInt8)
  | .print args => some (.undefined, printedLine args)
  | .printError args => some (.undefined, utf8 "Error: " ++ printedLine args)
  | .getBinding module =>
    match (World.start registerBuiltinModules).getBinding fuel module with
    | .ok (exports, w) => some (returned w exports, w.stdout)
    | .error _ => none

/-- What the call writes, if it returns. -/
def Request.printed (fuel : ℕ) (q : Request) : List UInt8 :=
  ((q.answer fuel).map Prod.snd).getD []

/-- Until its activation has completed, the isolate makes these calls. -/
inductive Makes (isolate : MainIsolate σ V) (fuel : ℕ) :
    σ → List Request → Completion V → σ → Prop
  | completes {s s' : σ} {c : Completion V} : isolate.next s = .completes c s' →
    Makes isolate fuel s [] c s'
  | calls {s s₁ s' : σ} {c : Completion V} {q : Request} {rest : List Request} {args : List V}
    {r : Return} {bytes : List UInt8} : isolate.next s = .calls q.function args s₁ →
    args.map isolate.stringUnits = q.args.map some → q.answer fuel = some (r, bytes) →
    Makes isolate fuel (isolate.resume r s₁) rest c s' → Makes isolate fuel s (q :: rest) c s'

section Calls

variable {isolate : MainIsolate σ V} {fuel depth : ℕ}
  {o : σ → Except (Stop Exit) (Completion V × σ)} {sub : σ → List Output} {s s' : σ}
  {args : List V}

theorem prints_printLoop {strings : List JsString}
    (hargs : args.map isolate.stringUnits = strings.map some) (first : Bool) (s : σ) :
    Prints o sub s (printArgs first (strings.map some)) (printLoop isolate first args s) := by
  induction args generalizing strings first with
  | nil =>
    cases strings with
    | nil => exact prints_pure s
    | cons x strings => cases hargs
  | cons arg args ih =>
    cases strings with
    | nil => cases hargs
    | cons x strings =>
      obtain ⟨harg, hrest⟩ := List.cons.inj hargs
      -- a string is not converted
      have hvalue : utf8ValueOf isolate (some arg) s = pure (some (utf8Value x), s) := by
        simp only [utf8ValueOf, harg]
      have hseparator : Prints o sub () (if first then [] else utf8 " ")
          (separator first : NativeCode σ V Unit) := by
        cases first with
        | true => exact prints_pure ()
        | false => exact prints_printf (utf8 " ")
      rw [printLoop, hvalue, List.map_cons, printArgs, List.append_assoc]
      exact prints_bind hseparator (prints_bind_silent (prints_pure _)
        (prints_bind (prints_printf _) (ih hrest false)))

/-- The end of a function that prints a line. -/
theorem prints_line {strings : List JsString}
    (hargs : args.map isolate.stringUnits = strings.map some) (s : σ) :
    Prints o sub ((.undefined, s) : Return × σ) (printedLine strings) (do
      let s ← printLoop isolate true args s
      printf (utf8 "\n")
      pure (.undefined, s)) :=
  prints_bind (prints_printLoop hargs true s) (prints_bind_pure (prints_printf _) rfl)

/-- A native function does what is said of the call. -/
theorem prints_native {q : Request} {r : Return} {bytes : List UInt8}
    (hargs : args.map isolate.stringUnits = q.args.map some)
    (hanswer : q.answer fuel = some (r, bytes)) (s : σ) :
    Prints o sub (r, s) bytes (native isolate fuel q.function args s) := by
  cases q with
  | print strings =>
    cases hanswer
    exact prints_line hargs s
  | printError strings =>
    cases hanswer
    exact prints_bind (prints_printf _) (prints_line hargs s)
  | getBinding module =>
    -- there is one argument, and it is the name
    obtain ⟨arg, rfl⟩ : ∃ arg, args = [arg] := by
      refine List.length_eq_one_iff.mp ?_
      rw [← List.length_map isolate.stringUnits, hargs]
      rfl
    have harg : isolate.stringUnits arg = some module := List.head_eq_of_cons_eq hargs
    rw [Request.answer] at hanswer
    change Prints o sub (r, s) bytes (getBinding isolate fuel [arg] s)
    simp only [getBinding, List.head?_cons, Option.bind_some, harg]
    cases hbinding : (World.start registerBuiltinModules).getBinding fuel module with
    | error halt =>
      rw [hbinding] at hanswer
      cases hanswer
    | ok result =>
      obtain ⟨exports, w⟩ := result
      rw [hbinding] at hanswer
      cases hanswer
      exact prints_bind_pure (prints_printf _) rfl

/-- Code that makes some calls writes what they write, by induction on the calls: each of them
takes one level of the recursion. -/
theorem prints_body {requests : List Request} {c : Completion V}
    (h : Makes isolate fuel s requests c s') (hdepth : requests.length ≤ depth) :
    Prints (Proc.exec (body isolate fuel) depth) (Proc.events (body isolate fuel) depth) (c, s')
      (requests.flatMap (Request.printed fuel)) (body isolate fuel s) := by
  induction h generalizing depth with
  | completes hnext =>
    rw [body, bodyOf, hnext]
    exact prints_pure _
  | @calls s s₁ s' c q rest args r bytes hnext hargs hanswer _ ih =>
    obtain ⟨depth, rfl⟩ : ∃ n, depth = n + 1 := by
      rw [List.length_cons] at hdepth
      exact ⟨depth - 1, by omega⟩
    have hrest := ih (Nat.le_of_succ_le_succ hdepth)
    have hprinted : q.printed fuel = bytes := by
      rw [Request.printed, hanswer]
      rfl
    rw [body, bodyOf, hnext, List.flatMap_cons, hprinted]
    exact prints_bind (prints_native hargs hanswer s₁) (prints_ask hrest.1 hrest.2.1 hrest.2.2)

/-- An activation of such code. -/
theorem prints_activate {activation : Activation V} {requests : List Request} {c : Completion V}
    (h : Makes isolate fuel (isolate.enter activation s) requests c s')
    (hdepth : requests.length < depth) :
    Prints (Proc.exec (body isolate fuel) depth) (Proc.events (body isolate fuel) depth) (c, s')
      (requests.flatMap (Request.printed fuel)) (activate isolate activation s) := by
  obtain ⟨depth, rfl⟩ : ∃ n, depth = n + 1 := ⟨depth - 1, by omega⟩
  have hbody := prints_body h (Nat.le_of_lt_succ hdepth)
  exact prints_ask hbody.1 hbody.2.1 hbody.2.2

end Calls

/-! ## Files -/

/-- A file is there; its script makes these calls, and has this value. -/
inductive Runs (isolate : MainIsolate σ V) (fuel : ℕ) (file : CString) (name : V)
    (requests : List Request) (s : σ) : V → σ → Prop
  | intro {bytes : List UInt8} {script value : V} {caught caught' : Option (Caught V)} {s₁ s₂ : σ} :
    Shell.readFile fuel (isolate.fopen file s).1 = .ok (some bytes) →
    Makes isolate fuel
      (isolate.enter (.compile (newFromBytes bytes) name) (isolate.fopen file s).2) []
      ⟨some script, caught⟩ s₁ →
    Makes isolate fuel (isolate.enter (.run script) s₁) requests ⟨some value, caught'⟩ s₂ →
    Runs isolate fuel file name requests s value s₂

/-- The native call behind a console call. -/
def consoleCall : OutputAction → Request
  | .log args => .print args
  | .error args => .printError args

/-- The files are there, the loader's bootstrapper makes its lookup, and the script makes its
console calls. -/
inductive Follows (isolate : MainIsolate σ V) (fuel : ℕ) (filename : CString)
    (script : List OutputAction) (s : σ) : Prop
  | intro {s₀ s₁ s₂ s₃ s₄ : σ} {console bootstrapper object value : V}
    {caught : Option (Caught V)} : isolate.newContext globalTemplate s = some s₀ →
    Runs isolate fuel bootstrapJsCore isolate.undefined [] s₀ console s₁ →
    Runs isolate fuel loadersName (isolate.newString (js "lib/bootstrap/loaders.js")) [] s₁
      bootstrapper s₂ →
    isolate.isFunction bootstrapper = true →
    Makes isolate fuel (isolate.enter (.call bootstrapper) s₂) [.getBinding (js "natives")]
      ⟨some object, caught⟩ s₃ →
    Runs isolate fuel filename isolate.undefined (script.map consoleCall) s₃ value s₄ →
    Follows isolate fuel filename script s

section Files

variable {isolate : MainIsolate σ V} {fuel depth : ℕ} {file filename : CString} {name value : V}
  {requests : List Request} {script : List OutputAction} {s s' : σ}

/-- A file that is there is read without a warning. -/
theorem prints_readOrWarn {o : σ → Except (Stop Exit) (Completion V × σ)} {sub : σ → List Output}
    {bytes : List UInt8} (hread : Shell.readFile fuel (isolate.fopen file s).1 = .ok (some bytes))
    (message : List UInt8) :
    Prints o sub (some (newFromBytes bytes), (isolate.fopen file s).2) []
      (readOrWarn isolate fuel file message s) := by
  have hnamed : readNamed isolate fuel file s =
      pure (some (newFromBytes bytes), (isolate.fopen file s).2) := by
    simp only [readNamed, hread, Option.map_some]
  rw [readOrWarn, hnamed]
  exact prints_bind_silent (prints_pure _) (prints_pure _)

/-- The console or the script: a file that is read, compiled and run. -/
theorem prints_compile (h : Runs isolate fuel file isolate.undefined requests s value s')
    (hdepth : requests.length < depth) (message : List UInt8) :
    ∃ source s₁, Prints (Proc.exec (body isolate fuel) depth)
        (Proc.events (body isolate fuel) depth) (some source, s₁) []
        (readOrWarn isolate fuel file message s) ∧
      Prints (Proc.exec (body isolate fuel) depth) (Proc.events (body isolate fuel) depth) s'
        (requests.flatMap (Request.printed fuel)) (compile isolate (some source) s₁) := by
  obtain ⟨hread, hcompile, hrun⟩ := h
  refine ⟨_, _, prints_readOrWarn hread message, ?_⟩
  rw [compile]
  exact prints_bind_silent (prints_activate hcompile (Nat.zero_lt_of_lt hdepth))
    (prints_bind_pure (prints_activate hrun hdepth) rfl)

/-- The loader's script: its value is the bootstrapper. -/
theorem prints_getBootstrapper (h : Runs isolate fuel file name requests s value s')
    (hfunction : isolate.isFunction value = true) (hdepth : requests.length < depth)
    (message : List UInt8) :
    ∃ source s₁, Prints (Proc.exec (body isolate fuel) depth)
        (Proc.events (body isolate fuel) depth) (some source, s₁) []
        (readOrWarn isolate fuel file message s) ∧
      Prints (Proc.exec (body isolate fuel) depth) (Proc.events (body isolate fuel) depth)
        (some value, s') (requests.flatMap (Request.printed fuel))
        (getBootstrapper isolate (some source) name s₁) := by
  obtain ⟨hread, hcompile, hrun⟩ := h
  refine ⟨_, _, prints_readOrWarn hread message, ?_⟩
  rw [getBootstrapper, executeString]
  refine prints_bind_pure (prints_bind_silent
    (prints_activate hcompile (Nat.zero_lt_of_lt hdepth))
    (prints_bind_pure (prints_activate hrun hdepth) rfl)) ?_
  -- the check that the value is a function
  dsimp only
  rw [hfunction]
  rfl

/-- The script, at the end of `main`. -/
theorem prints_runScript
    (h : Runs isolate fuel filename isolate.undefined requests s value s')
    (hdepth : requests.length < depth) :
    Prints (Proc.exec (body isolate fuel) depth) (Proc.events (body isolate fuel) depth) 0
      (requests.flatMap (Request.printed fuel)) (runScript isolate fuel filename s) := by
  obtain ⟨source, s₁, hread, hcompile⟩ := prints_compile h hdepth scriptMissing
  rw [runScript]
  exact prints_bind_silent hread (prints_bind_pure hcompile rfl)

/-- What `main` writes if the code makes the calls of `fileMode`. -/
theorem prints_main (h : Follows isolate fuel filename script s)
    (hdepth : script.length + 1 < depth) :
    Prints (Proc.exec (body isolate fuel) depth) (Proc.events (body isolate fuel) depth) 0
      (Request.printed fuel (.getBinding (js "natives")) ++
        (script.map consoleCall).flatMap (Request.printed fuel))
      (main isolate fuel filename s) := by
  obtain ⟨hcontext, hconsole, hloaders, hfunction, hcall, hscript⟩ := h
  have hnone : ([] : List Request).length < depth := Nat.zero_lt_of_lt hdepth
  have hone : [Request.getBinding (js "natives")].length < depth := by
    rw [List.length_singleton]
    omega
  have hall : (script.map consoleCall).length < depth := by
    rw [List.length_map]
    omega
  obtain ⟨console, t₁, hread, hcompile⟩ := prints_compile hconsole hnone startupMissing
  obtain ⟨loaders, t₂, hread', hbootstrapper⟩ :=
    prints_getBootstrapper hloaders hfunction hnone startupMissing
  have hlookup := prints_activate hcall hone
  rw [List.flatMap_singleton] at hlookup
  simp only [main, hcontext]
  rw [runFiles]
  -- the console is there before the loaders are read
  refine prints_bind_silent hread (prints_bind_silent hcompile ?_)
  rw [runLoaders]
  exact prints_bind_silent hread' (prints_bind_silent hbootstrapper
    (prints_bind hlookup (prints_runScript hscript hall)))

/-- A console call is printed by the function behind it. -/
theorem printed_consoleCall (action : OutputAction) :
    (consoleCall action).printed fuel = action.printed := by
  cases action <;> rfl

/-- Everything before the script writes what the loader's lookup does. -/
theorem startup_of_answer {r : Return} {bytes : List UInt8}
    (h : (Request.getBinding (js "natives")).answer fuel = some (r, bytes)) :
    bytes = utf8 "1\n" ∧ ∃ w, startup fuel = .ok (newConsole none none, w) := by
  rw [Request.answer] at h
  cases hbinding : (World.start registerBuiltinModules).getBinding fuel (js "natives") with
  | error halt =>
    rw [hbinding] at h
    cases h
  | ok result =>
    obtain ⟨exports, w⟩ := result
    rw [hbinding] at h
    cases h
    have hstartup : startup fuel = .ok (newConsole none none, w.newObject.2) :=
      except_bind_eq_ok.mpr ⟨_, except_bind_eq_ok.mpr ⟨_, hbinding, rfl⟩, rfl⟩
    exact ⟨(startup_cases hstartup).2.1, _, hstartup⟩

/-- **The process is the one of `Main.FileMode`.** If the files are there and the code makes the
calls that `fileMode` takes a script for, then `fileMode` returns; and so does the process, with
exit code zero, having written the same to both streams. -/
theorem main_refines_fileMode (h : Follows isolate fuel filename script s)
    (hdepth : script.length + 1 < depth) :
    ∃ w, fileMode fuel script = .ok w ∧
      (main isolate fuel filename s).run (Proc.exec (body isolate fuel) depth) = .ok 0 ∧
      stdoutOf ((main isolate fuel filename s).noted (Proc.exec (body isolate fuel) depth)
        (Proc.events (body isolate fuel) depth)) = w.stdout ∧
      stderrOf ((main isolate fuel filename s).noted (Proc.exec (body isolate fuel) depth)
        (Proc.events (body isolate fuel) depth)) = w.stderr := by
  obtain ⟨hrun, hstdout, hstderr⟩ := prints_main h hdepth
  -- the loader's lookup has been answered, so there is a result of it
  obtain ⟨r, bytes, hanswer⟩ :
      ∃ r bytes, (Request.getBinding (js "natives")).answer fuel = some (r, bytes) := by
    obtain ⟨-, -, -, -, hcall, -⟩ := h
    cases hcall with
    | calls _ _ hanswer _ => exact ⟨_, _, hanswer⟩
  obtain ⟨rfl, w, hstartup⟩ := startup_of_answer hanswer
  have hmain : fileMode fuel script =
      .ok (script.foldl (OutputAction.perform (newConsole none none)) w) :=
    except_bind_eq_ok.mpr ⟨_, hstartup, rfl⟩
  obtain ⟨hout, herr⟩ := fileMode_output hmain
  have hlookup : Request.printed fuel (.getBinding (js "natives")) = utf8 "1\n" := by
    rw [Request.printed, hanswer]
    rfl
  refine ⟨_, hmain, hrun, ?_, ?_⟩
  · rw [hstdout, hout, hlookup, List.flatMap_map]
    simp only [printed_consoleCall]
  · rw [hstderr, herr]

/-! ### A process that follows -/

/-- The name of the example. -/
def exampleName : CString := CString.ofBuffer (utf8 "a.js")

/-- What the files of the example hold. -/
def exampleText (file : CString) : List UInt8 :=
  if file.bytes = exampleName.bytes then utf8 "console.log('a\\0b'); console.error('x')"
  else if file.bytes = loadersName.bytes then utf8 "getBinding => getBinding('natives')"
  else utf8 "var console = new Console()"

theorem exampleText_ne_nil (file : CString) : exampleText file ≠ [] := by
  unfold exampleText
  split_ifs <;> decide

theorem length_exampleText_lt (file : CString) : (exampleText file).length < 2 ^ 62 := by
  unfold exampleText
  split_ifs <;> decide

/-- An isolate that goes through a list of calls and completions, whatever it is entered for. -/
def exampleIsolate : MainIsolate (List (Option Request)) JsString where
  newContext _ s := some s
  enter _ s := s
  next
    | some q :: s => .calls q.function q.args s
    | none :: s => .completes ⟨some (js "value"), none⟩ s
    | [] => .completes ⟨none, none⟩ []
  resume _ s := s
  undefined := []
  newString := id
  stringUnits := some
  int32 _ := none
  isUndefined _ := false
  isFunction _ := true
  hasTask _ := false
  fopen file s :=
    (some (.whole (exampleText file) (exampleText_ne_nil file) (length_exampleText_lt file)), s)
  getVersion := CString.ofBuffer []

/-- The script of the example. -/
def exampleScript : List OutputAction := [.log [js "a" ++ 0 :: js "b"], .error [js "x"]]

/-- The calls and completions of the example: two for each of the console and the loader's script,
the lookup, and two for the script. -/
def exampleCalls : List (Option Request) :=
  [none, none, none, none, some (.getBinding (js "natives")), none, none,
    some (.print [js "a" ++ 0 :: js "b"]), some (.printError [js "x"]), none]

end Files

theorem follows_example : Follows exampleIsolate 1 exampleName exampleScript exampleCalls := by
  have hread : ∀ file s, Shell.readFile 1 (exampleIsolate.fopen file s).1 =
      .ok (some (exampleText file)) := by
    intro file s
    refine readFile_whole (exampleText_ne_nil file) (length_exampleText_lt file) ?_
    unfold exampleText
    split_ifs <;> decide
  have hlookup : Makes exampleIsolate 1 (exampleCalls.drop 4) [.getBinding (js "natives")]
      ⟨some (js "value"), none⟩ (exampleCalls.drop 6) := .calls rfl rfl rfl (.completes rfl)
  have hscript : Runs exampleIsolate 1 exampleName [] (exampleScript.map consoleCall)
      (exampleCalls.drop 6) (js "value") [] :=
    .intro (hread _ _) (.completes rfl) (.calls rfl rfl rfl (.calls rfl rfl rfl (.completes rfl)))
  exact .intro rfl (.intro (hread _ _) (.completes rfl) (.completes rfl))
    (.intro (hread _ _) (.completes rfl) (.completes rfl)) rfl hlookup hscript

/-- Two console calls. -/
theorem main_refines_fileMode_two : ∃ w, fileMode 1 exampleScript = .ok w ∧
    (main exampleIsolate 1 exampleName exampleCalls).run (Proc.exec (body exampleIsolate 1) 4) =
      .ok 0 ∧
    stdoutOf ((main exampleIsolate 1 exampleName exampleCalls).noted
      (Proc.exec (body exampleIsolate 1) 4) (Proc.events (body exampleIsolate 1) 4)) = w.stdout ∧
    stderrOf ((main exampleIsolate 1 exampleName exampleCalls).noted
      (Proc.exec (body exampleIsolate 1) 4) (Proc.events (body exampleIsolate 1) 4)) = w.stderr :=
  main_refines_fileMode follows_example (by decide)

end NodeMini.Main
