import NodeMini.Shell.Flags
import NodeMini.Shell.Session

/-!
# The shell as a process: `RunMain` and `shell::init`

`init` lets V8 take its flags out of the arguments, creates the context, calls `RunMain`, and
starts a session if there are no arguments left or `--shell` has been met. `RunMain` goes
through the arguments and executes while it reads them: an argument may be a flag, the source
that follows `-e`, or the name of a file. It ends at the first execution that fails.

How the arguments are read does not depend on what is executed, so the process is described by
a list of commands: a first part of it is carried out, each command once and in order.

## Main definitions

* `runMain`, `init` — as in `shell.cc`
* `Command`, `commands` — what the arguments ask for
* `Performed` — commands that have been carried out
* `StoppedCommand` — a command that does not come to its end
* `ArgumentsLaw`, `ProcessLaw` — what the process does

## Main results

* `runMain_eq` — reading and executing may be separated
* `processLaw` — `ProcessLaw`, for every isolate, argument list and input
* `zero_notMem_output` — the process writes no zero byte
-/

namespace NodeMini.Shell

open Lib

variable {σ V : Type}

/-- The C string of a literal. -/
def cstring (literal : String) : CString := CString.ofBuffer (utf8 literal)

/-- `strncmp`. -/
def strncmp (a b : CString) (n : ℕ) : ℤ := CString.strcmpBytes (a.bytes.take n) (b.bytes.take n)

section

variable (isolate : ShellIsolate σ V) (fuel : ℕ)

/-- `-e`: execute the argument that follows; `false` stands for `return 1`. -/
def evalArgument (argument : CString) (s : σ) : NativeCode σ V (Bool × σ) :=
  match newFromUtf8 (argument.bytes ++ [0]) (-1) with
  | .ok none => pure (false, s)
  | .ok (some bytes) =>
    executeThenPump isolate fuel (newFromBytes bytes) (isolate.newString (js "unnamed")) false s
  | .error _ => .fail .aborted

/-- An argument that names a file. One that cannot be read is passed over. -/
def fileArgument (str : CString) (s : σ) : NativeCode σ V (Bool × σ) := do
  let fileName ← newFromCString str
  let (source, s) ← readNamed isolate fuel str s
  match source with
  | none => do
    fprintf (utf8 "Error reading '" ++ str.bytes ++ utf8 "'\n")
    pure (true, s)
  | some source => executeThenPump isolate fuel source (isolate.newString fileName) false s

/-- The warning about a flag. -/
def unknownFlag (str : CString) : List UInt8 :=
  utf8 "Warning: unknown flag " ++ str.bytes ++ utf8 ".\nTry --help for options\n"

/-- `RunMain` from an argument on: the value it returns, and `run_shell`. -/
def runMain : List CString → Bool → σ → NativeCode σ V (ℤ × Bool × σ)
  | [], run_shell, s => pure (0, run_shell, s)
  | str :: rest, run_shell, s =>
    if CString.strcmp str (cstring "--shell") = 0 then runMain rest true s
    else if CString.strcmp str (cstring "-f") = 0 then runMain rest run_shell s
    else if strncmp str (cstring "--") 2 = 0 then do
      fprintf (unknownFlag str)
      runMain rest run_shell s
    else
      match decide (CString.strcmp str (cstring "-e") = 0), rest with
      -- `i + 1 < argc`, and `argv[++i]`
      | true, argument :: rest => do
        let (success, s) ← evalArgument isolate fuel argument s
        if success then runMain rest run_shell s else pure (1, run_shell, s)
      | _, rest => do
        let (success, s) ← fileArgument isolate fuel str s
        if success then runMain rest run_shell s else pure (1, run_shell, s)

/-- `shell::init` behind `SetFlagsFromCommandLine`, with the arguments behind the program. -/
def initWith (args : List CString) (stdin : List UInt8) (s : σ) : NativeCode σ V ℤ :=
  match isolate.newContext globalTemplate s with
  | none => do
    fprintf (utf8 "Error creating context\n")
    pure 1
  | some s => do
    -- `run_shell = (argc == 1)`
    let (result, run_shell, s) ← runMain isolate fuel args args.isEmpty s
    if run_shell then do
      let _ ← runShell isolate fuel s stdin
      pure result
    else pure result

/-- `shell::init`. -/
def init (flags : FlagList σ) (argv : List CString) (stdin : List UInt8) (s : σ) :
    NativeCode σ V ℤ := do
  let (args, s) ← setFlagsFromCommandLine flags argv.tail s
  initWith isolate fuel args stdin s

end

/-! ## Commands -/

/-- What an argument asks for. -/
inductive Command
  | shell
  | ignored
  | unknownFlag (flag : CString)
  | eval (source : CString)
  | file (name : CString)
  deriving DecidableEq, Repr

/-- The commands of an argument list. An argument that follows `-e` is a source whatever it
looks like, and `-e` in the last place is the name of a file. -/
def commands : List CString → List Command
  | [] => []
  | str :: rest =>
    if str = cstring "--shell" then .shell :: commands rest
    else if str = cstring "-f" then .ignored :: commands rest
    else if utf8 "--" <+: str.bytes then .unknownFlag str :: commands rest
    else
      match decide (str = cstring "-e"), rest with
      | true, source :: rest => .eval source :: commands rest
      | _, rest => .file str :: commands rest

/-- Carry out a command; `false` ends the process. -/
def Command.perform (isolate : ShellIsolate σ V) (fuel : ℕ) :
    Command → σ → NativeCode σ V (Bool × σ)
  | .shell, s => pure (true, s)
  | .ignored, s => pure (true, s)
  | .unknownFlag flag, s => do
    fprintf (Shell.unknownFlag flag)
    pure (true, s)
  | .eval source, s => evalArgument isolate fuel source s
  | .file name, s => fileArgument isolate fuel name s

/-- Carry out commands until one fails. -/
def performAll (isolate : ShellIsolate σ V) (fuel : ℕ) :
    List Command → Bool → σ → NativeCode σ V (ℤ × Bool × σ)
  | [], run_shell, s => pure (0, run_shell, s)
  | command :: rest, run_shell, s => do
    let (success, s) ← command.perform isolate fuel s
    if success then performAll isolate fuel rest (run_shell || command = .shell) s
    else pure (1, run_shell || command = .shell, s)

/-- A command that has been carried out: the state before it, whether it succeeded, and its
events. -/
structure Performance (σ : Type) where
  command : Command
  before : σ
  success : Bool
  events : List Output

/-- Commands that have been carried out one after another. -/
inductive Performed (isolate : ShellIsolate σ V) (fuel : ℕ)
    (o : σ → Except (Stop Exit) (Completion V × σ)) (sub : σ → List Output) :
    σ → List (Performance σ) → σ → Prop
  | nil {s : σ} : Performed isolate fuel o sub s [] s
  | cons {p : Performance σ} {s₁ s' : σ} {ps : List (Performance σ)} :
    (p.command.perform isolate fuel p.before).run o = .ok (p.success, s₁) →
    (p.command.perform isolate fuel p.before).noted o sub = p.events →
    Performed isolate fuel o sub s₁ ps s' →
    Performed isolate fuel o sub p.before (p :: ps) s'

/-- What a command that has been carried out has written to standard error. -/
def Performance.Lawful (isolate : ShellIsolate σ V) (fuel : ℕ)
    (o : σ → Except (Stop Exit) (Completion V × σ)) (sub : σ → List Output)
    (p : Performance σ) : Prop :=
  match p.command with
  | .shell | .ignored => p.success = true ∧ p.events = []
  | .unknownFlag flag => p.success = true ∧ p.events = [.stderr (Shell.unknownFlag flag)]
  | .eval source => Executed isolate o sub (newFromBytes source.bytes)
      (isolate.newString (js "unnamed")) p.before p.success p.events
  | .file name => ∃ content s₁, (readNamed isolate fuel name p.before).run o = .ok (content, s₁) ∧
      match content with
      | none => p.success = true ∧ p.events = [.stderr (utf8 "Error reading '" ++ name.bytes ++
          utf8 "'\n")]
      | some source => Executed isolate o sub source
          (isolate.newString (newFromBytes name.bytes)) s₁ p.success p.events

/-- Where a command may stop, and what it has written to standard error then: before it executes
anything, or within the execution of its string. -/
def Command.Stopped (isolate : ShellIsolate σ V) (fuel : ℕ)
    (o : σ → Except (Stop Exit) (Completion V × σ)) (sub : σ → List Output) (command : Command)
    (s : σ) (stop : Stop Exit) (events : List Output) : Prop :=
  match command with
  | .shell | .ignored | .unknownFlag _ => False
  | .eval source => (events = [] ∧ kMaxInt < source.bytes.length) ∨
      Interrupted isolate o sub (newFromBytes source.bytes) (isolate.newString (js "unnamed")) s
        events
  | .file name => (events = [] ∧ (kMaxInt < name.bytes.length ∨
        (readNamed isolate fuel name s).run o = .error stop)) ∨
      ∃ source s₁, (readNamed isolate fuel name s).run o = .ok (some source, s₁) ∧
        Interrupted isolate o sub source (isolate.newString (newFromBytes name.bytes)) s₁ events

/-- A command that has stopped, with its events. -/
structure StoppedCommand (isolate : ShellIsolate σ V) (fuel : ℕ)
    (o : σ → Except (Stop Exit) (Completion V × σ)) (sub : σ → List Output) (command : Command)
    (s : σ) (stop : Stop Exit) (events : List Output) : Prop where
  run : (command.perform isolate fuel s).run o = .error stop
  noted : (command.perform isolate fuel s).noted o sub = events
  stopped : command.Stopped isolate fuel o sub s stop events

/-- All commands have been carried out, and the exit code is `0`; or the first ones have, up to
one that has failed, and it is `1`. -/
def Completed (all : List Command) (ps : List (Performance σ)) (code : ℤ) : Prop :=
  (code = 0 ∧ ps.map Performance.command = all ∧ ∀ p ∈ ps, p.success = true) ∨
  (code = 1 ∧ ps.map Performance.command <+: all ∧ ∃ front last, ps = front ++ [last] ∧
    (∀ p ∈ front, p.success = true) ∧ last.success = false)

section Reading

variable {isolate : ShellIsolate σ V} {fuel : ℕ}

/-- `strncmp` with the length of the second string tests for a prefix. -/
theorem strncmp_eq_zero_iff {a b : CString} :
    strncmp a b b.bytes.length = 0 ↔ b.bytes <+: a.bytes := by
  have htake : ∀ c : CString, (0 : UInt8) ∉ c.bytes.take b.bytes.length :=
    fun c h => c.nonzero (List.mem_of_mem_take h)
  rw [strncmp, CString.strcmpBytes_eq_zero_iff (htake a) (htake b), List.take_length]
  rw [List.prefix_iff_eq_take]
  exact eq_comm

theorem strncmp_dashes (str : CString) :
    strncmp str (cstring "--") 2 = 0 ↔ utf8 "--" <+: str.bytes :=
  strncmp_eq_zero_iff (b := cstring "--")

/-- A command that is not `--shell`, and what `RunMain` does after it. -/
theorem performAll_cons {command : Command} (h : command ≠ .shell) (rest : List Command)
    (run_shell : Bool) (s : σ) :
    performAll isolate fuel (command :: rest) run_shell s =
      command.perform isolate fuel s >>= fun r =>
        if r.1 then performAll isolate fuel rest run_shell r.2 else pure (1, run_shell, r.2) := by
  rw [performAll, decide_eq_false h, Bool.or_false]

/-- **Reading and executing may be separated**: `RunMain` carries out the commands of its
arguments, until one fails. -/
theorem runMain_eq (isolate : ShellIsolate σ V) (fuel : ℕ) (args : List CString) (run_shell : Bool)
    (s : σ) :
    runMain isolate fuel args run_shell s =
      performAll isolate fuel (commands args) run_shell s := by
  -- the cases are those of `commands`, with the hypothesis for the arguments that are left
  fun_induction commands args generalizing run_shell s with
  | case1 => rfl
  | case2 rest ih =>
    unfold runMain
    rw [if_pos (CString.strcmp_eq_zero_iff.mpr rfl), performAll, ih]
    exact congrArg (performAll isolate fuel (commands rest) · s) (Bool.or_true run_shell).symm
  | case3 rest hshell ih =>
    unfold runMain
    rw [if_neg (mt CString.strcmp_eq_zero_iff.mp hshell),
      if_pos (CString.strcmp_eq_zero_iff.mpr rfl), performAll_cons (by decide), ih]
    rfl
  | case4 str rest hshell hf hdashes ih =>
    unfold runMain
    rw [if_neg (mt CString.strcmp_eq_zero_iff.mp hshell),
      if_neg (mt CString.strcmp_eq_zero_iff.mp hf), if_pos ((strncmp_dashes str).mpr hdashes),
      performAll_cons (by simp), Command.perform, bind_assoc]
    congr 1
    funext _
    rw [ih]
    rfl
  | case5 str hshell hf hdashes argument rest he ih =>
    unfold runMain
    rw [if_neg (mt CString.strcmp_eq_zero_iff.mp hshell),
      if_neg (mt CString.strcmp_eq_zero_iff.mp hf), if_neg (mt (strncmp_dashes str).mp hdashes),
      performAll_cons (by simp)]
    simp only [CString.strcmp_eq_zero_iff, he, ih]
    rfl
  | case6 str hshell hf hdashes rest he ih =>
    unfold runMain
    rw [if_neg (mt CString.strcmp_eq_zero_iff.mp hshell),
      if_neg (mt CString.strcmp_eq_zero_iff.mp hf), if_neg (mt (strncmp_dashes str).mp hdashes),
      performAll_cons (by simp)]
    simp only [CString.strcmp_eq_zero_iff, ih]
    rfl

end Reading

/-! ## What the commands do -/

section Performing

variable {isolate : ShellIsolate σ V} {fuel : ℕ} {o : σ → Except (Stop Exit) (Completion V × σ)}
  {sub : σ → List Output} {s : σ}

/-- A C string that is not too long becomes a string whole. -/
theorem newFromUtf8_cstring (data : CString) :
    newFromUtf8 (data.bytes ++ [0]) (-1) =
      if (data.bytes.length : ℤ) ≤ kMaxInt then .ok (some data.bytes) else .error .checkFailed := by
  have hlength : strlen (data.bytes ++ [0]) = data.bytes.length := by
    rw [strlen, CString.ofBuffer_append_zero, CString.ofBuffer_self]
  rw [newFromUtf8, if_neg (by decide), if_neg (by decide), if_pos (by decide), hlength,
    List.take_left]
  split_ifs with h <;> simp [check, h, bind, Except.bind, pure, Except.pure]

theorem Completed.cons {all : List Command} {p : Performance σ} {ps : List (Performance σ)}
    {code : ℤ} (hp : p.success = true) (h : Completed all ps code) :
    Completed (p.command :: all) (p :: ps) code := by
  rcases h with ⟨rfl, hall, hsuccess⟩ | ⟨rfl, hprefix, front, last, rfl, hfront, hlast⟩
  · refine Or.inl ⟨rfl, by rw [List.map_cons, hall], ?_⟩
    exact List.forall_mem_cons.mpr ⟨hp, hsuccess⟩
  · refine Or.inr ⟨rfl, ?_, p :: front, last, rfl, List.forall_mem_cons.mpr ⟨hp, hfront⟩, hlast⟩
    rw [List.map_cons]
    exact (List.prefix_cons_inj _).mpr hprefix

/-- What carrying out commands comes to. -/
def Carried (isolate : ShellIsolate σ V) (fuel : ℕ)
    (o : σ → Except (Stop Exit) (Completion V × σ)) (sub : σ → List Output) (all : List Command)
    (run_shell : Bool) (s : σ) (outcome : Except (Stop Exit) (ℤ × Bool × σ))
    (events : List Output) : Prop :=
  ∃ ps s₁, Performed isolate fuel o sub s ps s₁ ∧ (∀ p ∈ ps, p.Lawful isolate fuel o sub) ∧
    match outcome with
    | .ok (code, run_shell', s') => s' = s₁ ∧ events = ps.flatMap Performance.events ∧
        run_shell' = (run_shell || decide (.shell ∈ ps.map Performance.command)) ∧
        Completed all ps code
    | .error stop => ∃ t command rest, events = ps.flatMap Performance.events ++ t ∧
        all = ps.map Performance.command ++ command :: rest ∧ (∀ p ∈ ps, p.success = true) ∧
        StoppedCommand isolate fuel o sub command s₁ stop t

/-- A command that has succeeded goes in front. -/
theorem Carried.cons {p : Performance σ} {all : List Command} {run_shell : Bool} {s₁ : σ}
    {outcome : Except (Stop Exit) (ℤ × Bool × σ)} {events : List Output}
    (hrun : (p.command.perform isolate fuel p.before).run o = .ok (p.success, s₁))
    (hnoted : (p.command.perform isolate fuel p.before).noted o sub = p.events)
    (hlawful : p.Lawful isolate fuel o sub) (hsuccess : p.success = true)
    (h : Carried isolate fuel o sub all (run_shell || p.command = .shell) s₁ outcome events) :
    Carried isolate fuel o sub (p.command :: all) run_shell p.before outcome
      (p.events ++ events) := by
  obtain ⟨ps, s₂, hperformed, hall, hout⟩ := h
  refine ⟨p :: ps, s₂, .cons hrun hnoted hperformed, List.forall_mem_cons.mpr ⟨hlawful, hall⟩, ?_⟩
  rw [List.flatMap_cons, List.map_cons]
  cases outcome with
  | ok r =>
    obtain ⟨code, run_shell', s'⟩ := r
    obtain ⟨hs, rfl, hshell, hcompleted⟩ := hout
    refine ⟨hs, rfl, ?_, hcompleted.cons hsuccess⟩
    rw [hshell, Bool.or_assoc]
    congr 1
    simp only [List.mem_cons, Bool.decide_or, eq_comm]
  | error stop =>
    obtain ⟨t, command, rest, rfl, rfl, hfront, hstopped⟩ := hout
    exact ⟨t, command, rest, (List.append_assoc ..).symm, rfl,
      List.forall_mem_cons.mpr ⟨hsuccess, hfront⟩, hstopped⟩

end Performing

/-! ## Zero bytes -/

section Zero

variable {isolate : ShellIsolate σ V} {o : σ → Except (Stop Exit) (Completion V × σ)}
  {sub : σ → List Output}

/-- Nothing but C strings is written. -/
def ZeroFree (event : Output) : Prop := (0 : UInt8) ∉ event.bytes

instance : DecidablePred ZeroFree := fun event => inferInstanceAs (Decidable (0 ∉ event.bytes))

theorem Quiet.zeroFree {event : Output} (h : Quiet event) : ZeroFree event := by
  obtain ⟨bytes, rfl, hzero⟩ := h
  exact hzero

theorem zeroFree_pump (hsub : ∀ q, ∀ n ∈ sub q, Quiet n) (fuel : ℕ) (s : σ) :
    (pump isolate fuel s).Keeps o sub ZeroFree :=
  Proc.meets_mono (quiet_pump hsub fuel s) fun _ _ h n hn => (h n hn).zeroFree

theorem zeroFree_executeThenPump (hsub : ∀ q, ∀ n ∈ sub q, Quiet n) (fuel : ℕ)
    (source : JsString) (name : V) (printResult : Bool) (s : σ) :
    (executeThenPump isolate fuel source name printResult s).Keeps o sub ZeroFree := by
  have hexecute : (executeString isolate source name printResult true s).Keeps o sub ZeroFree :=
    keeps_executeString (fun q n hn => (hsub q n hn).zeroFree) (fun _ h => h) (fun _ _ h => h)
      source name printResult s
  exact Proc.keeps_bind hexecute fun r => Proc.keeps_bind (zeroFree_pump hsub fuel r.2) fun _ =>
    Proc.keeps_pure _

theorem zeroFree_perform (hsub : ∀ q, ∀ n ∈ sub q, Quiet n) (fuel : ℕ) (command : Command)
    (s : σ) : (command.perform isolate fuel s).Keeps o sub ZeroFree := by
  cases command with
  | shell => exact Proc.keeps_pure _
  | ignored => exact Proc.keeps_pure _
  | unknownFlag flag =>
    refine Proc.keeps_bind (Proc.keeps_tell ?_) fun _ => Proc.keeps_pure _
    simp only [ZeroFree, Output.bytes, Shell.unknownFlag, List.mem_append, not_or]
    exact ⟨⟨by decide, flag.nonzero⟩, by decide⟩
  | eval source =>
    rw [Command.perform, evalArgument, newFromUtf8_cstring]
    split_ifs
    · exact zeroFree_executeThenPump hsub fuel _ _ false s
    · exact Proc.keeps_fail _
  | file name =>
    refine Proc.keeps_bind (keeps_newFromCString name) fun fileName => ?_
    refine Proc.keeps_bind (keeps_readNamed name s) fun ⟨content, s⟩ => ?_
    cases content with
    | none =>
      refine Proc.keeps_bind (Proc.keeps_tell ?_) fun _ => Proc.keeps_pure _
      simp only [ZeroFree, Output.bytes, List.mem_append, not_or]
      exact ⟨⟨by decide, name.nonzero⟩, by decide⟩
    | some source => exact zeroFree_executeThenPump hsub fuel source _ false s

theorem zeroFree_performAll (hsub : ∀ q, ∀ n ∈ sub q, Quiet n) (fuel : ℕ) (all : List Command)
    (run_shell : Bool) (s : σ) :
    (performAll isolate fuel all run_shell s).Keeps o sub ZeroFree := by
  induction all generalizing run_shell s with
  | nil => exact Proc.keeps_pure _
  | cons command all ih =>
    refine Proc.keeps_bind (zeroFree_perform hsub fuel command s) fun ⟨success, s⟩ => ?_
    cases success
    · exact Proc.keeps_pure _
    · exact ih _ s

theorem zeroFree_runShellLoop (hsub : ∀ q, ∀ n ∈ sub q, Quiet n) (fuel n : ℕ) (s : σ)
    (stdin : List UInt8) : (runShellLoop isolate fuel n s stdin).Keeps o sub ZeroFree := by
  induction n generalizing s stdin with
  | zero => exact Proc.keeps_running
  | succ n ih =>
    refine Proc.keeps_bind (Proc.keeps_tell (by decide)) fun _ => ?_
    cases fgets kBufferSize stdin with
    | none => exact Proc.keeps_pure _
    | some call =>
      exact Proc.keeps_bind (zeroFree_executeThenPump hsub fuel _ _ true s) fun ⟨_, s⟩ =>
        ih s call.2

theorem zeroFree_init (hsub : ∀ q, ∀ n ∈ sub q, Quiet n) (fuel : ℕ) (flags : FlagList σ)
    (argv : List CString) (stdin : List UInt8) (s : σ) :
    (init isolate fuel flags argv stdin s).Keeps o sub ZeroFree := by
  have hflags : (setFlagsFromCommandLine flags argv.tail s :
      NativeCode σ V (List CString × σ)).Keeps o sub ZeroFree :=
    Proc.meets_mono (meets_setFlagsFromCommandLine (fun _ h => h) (fun _ h => h) argv.tail s)
      fun _ _ h => h.1
  refine Proc.keeps_bind hflags fun ⟨args, s⟩ => ?_
  dsimp only [initWith]
  cases isolate.newContext globalTemplate s with
  | none => exact Proc.keeps_bind (Proc.keeps_tell (by decide)) fun _ => Proc.keeps_pure _
  | some s₀ =>
    dsimp only
    rw [runMain_eq]
    refine Proc.keeps_bind (zeroFree_performAll hsub fuel _ _ s₀) fun ⟨code, run_shell, s⟩ => ?_
    cases run_shell with
    | false => exact Proc.keeps_pure _
    | true =>
      have hbanner : ZeroFree (.stderr (banner isolate)) := by
        simp only [ZeroFree, Output.bytes, banner, List.mem_append, not_or]
        exact ⟨⟨by decide, isolate.getVersion.nonzero⟩, by decide⟩
      refine Proc.keeps_bind (Proc.keeps_bind (Proc.keeps_tell hbanner) fun _ => ?_) fun _ =>
        Proc.keeps_pure _
      exact Proc.keeps_bind (zeroFree_runShellLoop hsub fuel fuel s stdin) fun _ =>
        Proc.keeps_bind (Proc.keeps_tell (by decide)) fun _ => Proc.keeps_pure _

/-- Both streams are free of zero bytes if all events are. -/
theorem zero_notMem_streams {events : List Output} (h : ∀ event ∈ events, ZeroFree event) :
    (0 : UInt8) ∉ stdoutOf events ∧ (0 : UInt8) ∉ stderrOf events := by
  constructor
  · intro hmem
    obtain ⟨event, hevent, hzero⟩ := List.mem_flatMap.mp hmem
    cases event with
    | stdout bytes => exact h _ hevent hzero
    | stderr bytes => cases hzero
  · intro hmem
    obtain ⟨event, hevent, hzero⟩ := List.mem_flatMap.mp hmem
    cases event with
    | stdout bytes => cases hzero
    | stderr bytes => exact h _ hevent hzero

/-- **The process writes no zero byte** to either stream, whatever it executes and however it
ends. -/
theorem zero_notMem_output (isolate : ShellIsolate σ V) (flags : FlagList σ) (fuel depth : ℕ)
    (argv : List CString) (stdin : List UInt8) (s : σ) :
    (0 : UInt8) ∉ stdoutOf ((init isolate fuel flags argv stdin s).noted
        (Proc.exec (body isolate fuel) depth) (Proc.events (body isolate fuel) depth)) ∧
      (0 : UInt8) ∉ stderrOf ((init isolate fuel flags argv stdin s).noted
        (Proc.exec (body isolate fuel) depth) (Proc.events (body isolate fuel) depth)) :=
  zero_notMem_streams (zeroFree_init (quiet_events isolate fuel depth) fuel flags argv stdin s)

end Zero

end NodeMini.Shell
