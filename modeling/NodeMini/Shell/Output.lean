import NodeMini.Shell.Isolate
import NodeMini.Shell.RunShell

/-!
# What the shell writes

JavaScript code reaches the streams through `print` only, so whatever a program does, at any
depth, it writes to standard output, and never a zero byte. Standard error is written by
`ExecuteString`, and only for a string that is executed with `report_exceptions`: one report
if the execution fails, nothing if it succeeds.

## Main definitions

* `stdoutOf`, `stderrOf` — the two streams
* `Report`, `Report.Describes` — what `ReportException` writes about an exception
* `Attempt` — how the execution of a string has completed
* `Interrupted` — what it has written if it does not come to its end
* `ExecutionLaw` — what `ExecuteString` writes

## Main results

* `quiet_events` — what JavaScript code writes
* `executeString_meets` — `ExecutionLaw`, for every isolate
-/

namespace NodeMini.Shell

open Lib

/-- The bytes on standard output. -/
def stdoutOf (events : List Output) : List UInt8 :=
  events.flatMap fun
    | .stdout bytes => bytes
    | .stderr _ => []

/-- The bytes on standard error. -/
def stderrOf (events : List Output) : List UInt8 :=
  events.flatMap fun
    | .stdout _ => []
    | .stderr bytes => bytes

/-- The bytes of an event. -/
def Output.bytes : Output → List UInt8
  | .stdout bytes => bytes
  | .stderr bytes => bytes

/-- Something that JavaScript code may write. -/
def Quiet (event : Output) : Prop := ∃ bytes, event = .stdout bytes ∧ (0 : UInt8) ∉ bytes

/-! ## Reports -/

/-- The part of a report that comes from a message. -/
structure Details where
  filename : CString
  lineNumber : ℤ
  sourceLine : CString
  startColumn : ℤ
  endColumn : ℤ
  stackTrace : Option CString
  deriving DecidableEq, Repr

/-- What `ReportException` writes. -/
structure Report where
  exception : CString
  details : Option Details
  deriving DecidableEq, Repr

/-- The line of the file and the exception, the source line, and the underline. -/
def Details.bytes (exception : CString) (d : Details) : List UInt8 :=
  d.filename.bytes ++ utf8 ":" ++ formatInt d.lineNumber ++ utf8 ": " ++ exception.bytes ++
    utf8 "\n" ++ (d.sourceLine.bytes ++ utf8 "\n") ++
    (List.replicate d.startColumn.toNat (utf8 " ")).flatten ++
    (List.replicate (d.endColumn - d.startColumn).toNat (utf8 "^")).flatten ++ utf8 "\n" ++
    d.stackTrace.elim [] fun trace => trace.bytes ++ utf8 "\n"

/-- A report. -/
def Report.bytes (r : Report) : List UInt8 :=
  r.details.elim (r.exception.bytes ++ utf8 "\n") (Details.bytes r.exception)

variable {F R σ V : Type}

/-- The report is about what has been caught: it has the message's position, source line and
columns, and an exception or a script name that is a string appears as it is. -/
structure Report.Describes (isolate : Isolate F R σ V) (caught : Option (Caught V)) (r : Report) :
    Prop where
  exception : ∀ units, (caught.map Caught.exception).bind isolate.stringUnits = some units →
    r.exception = utf8Value units
  details : match caught.bind Caught.message with
    | none => r.details = none
    | some m => ∃ filename stackTrace, r.details = some {
        filename := filename
        lineNumber := m.lineNumber
        sourceLine := utf8Value m.sourceLine
        startColumn := m.startColumn
        endColumn := m.endColumn
        stackTrace := stackTrace } ∧
      ∀ units, isolate.stringUnits m.resourceName = some units → filename = utf8Value units

/-! ## Executions -/

/-- How the execution of a string has completed, with the events until then: it could not be
compiled, or it has been run. -/
inductive Attempt (isolate : Isolate F R σ V) (o : σ → Except (Stop Exit) (Completion V × σ))
    (sub : σ → List Output) (source : JsString) (name : V) (s : σ) :
    Completion V → σ → List Output → Prop
  | notCompiled {c : Completion V} {s₁ : σ} :
    o (isolate.enter (.compile source name) s) = .ok (c, s₁) → c.result = none →
    Attempt isolate o sub source name s c s₁ (sub (isolate.enter (.compile source name) s))
  | ran {c c' : Completion V} {script : V} {s₁ s₂ : σ} :
    o (isolate.enter (.compile source name) s) = .ok (c, s₁) → c.result = some script →
    o (isolate.enter (.run script) s₁) = .ok (c', s₂) →
    Attempt isolate o sub source name s c' s₂
      (sub (isolate.enter (.compile source name) s) ++ sub (isolate.enter (.run script) s₁))

/-- What a string has written to standard error that has not been executed to its end, nor have
the tasks after it: nothing, or the beginning of one report about what has been caught. -/
def Interrupted (isolate : Isolate F R σ V) (o : σ → Except (Stop Exit) (Completion V × σ))
    (sub : σ → List Output) (source : JsString) (name : V) (s : σ) (events : List Output) : Prop :=
  stderrOf events = [] ∨ ∃ c s₁ t r, Attempt isolate o sub source name s c s₁ t ∧ t <+: events ∧
    c.result = none ∧ Report.Describes isolate c.caught r ∧ stderrOf events <+: r.bytes

/-- What `ExecuteString` does until it returns or stops, with the events up to there. -/
structure ExecutionLaw (isolate : Isolate F R σ V) (o : σ → Except (Stop Exit) (Completion V × σ))
    (sub : σ → List Output) (source : JsString) (name : V) (reportExceptions : Bool) (s : σ)
    (outcome : Except (Stop Exit) (Bool × σ)) (events : List Output) : Prop where
  /-- It succeeds with the result of the script, and then reports nothing; otherwise it writes
  one report about what has been caught, if it has to. -/
  returned : ∀ success s', outcome = .ok (success, s') →
    ∃ c s₁ t, Attempt isolate o sub source name s c s₁ t ∧ t <+: events ∧
      success = c.result.isSome ∧
      if success || !reportExceptions then stderrOf events = []
      else ∃ r, Report.Describes isolate c.caught r ∧ stderrOf events = r.bytes
  /-- If it stops, it has not begun a report, or written a part of it. -/
  stopped : ∀ stop, outcome = .error stop → stderrOf events = [] ∨
    reportExceptions = true ∧ ∃ c s₁ t, Attempt isolate o sub source name s c s₁ t ∧
      t <+: events ∧ c.result = none ∧
      ∃ r, Report.Describes isolate c.caught r ∧ stderrOf events <+: r.bytes

/-! ## The streams -/

section

variable {events more : List Output}

@[simp] theorem stderrOf_nil : stderrOf [] = [] := rfl

@[simp] theorem stdoutOf_append : stdoutOf (events ++ more) = stdoutOf events ++ stdoutOf more :=
  List.flatMap_append

@[simp] theorem stderrOf_append : stderrOf (events ++ more) = stderrOf events ++ stderrOf more :=
  List.flatMap_append

@[simp] theorem stdoutOf_singleton_stdout (bytes : List UInt8) :
    stdoutOf [.stdout bytes] = bytes := List.append_nil bytes

@[simp] theorem stderrOf_singleton_stderr (bytes : List UInt8) :
    stderrOf [.stderr bytes] = bytes := List.append_nil bytes

/-- JavaScript code writes nothing to standard error. -/
theorem stderrOf_of_quiet (h : ∀ event ∈ events, Quiet event) : stderrOf events = [] := by
  rw [stderrOf, List.flatMap_eq_nil_iff]
  intro event hevent
  obtain ⟨bytes, rfl, -⟩ := h event hevent
  rfl

end

/-! ## What JavaScript code writes -/

section Quiet

variable {isolate : Isolate F R σ V} {fuel : ℕ} {o : σ → Except (Stop Exit) (Completion V × σ)}
  {sub : σ → List Output} {s : σ} {P : Output → Prop}

theorem keeps_activate (hsub : ∀ q, ∀ n ∈ sub q, P n) (activation : Activation V) (s : σ) :
    (activate isolate activation s).Keeps o sub P := Proc.keeps_ask (hsub _)

theorem keeps_utf8ValueOf (hsub : ∀ q, ∀ n ∈ sub q, P n) (value : Option V) (s : σ) :
    (utf8ValueOf isolate value s).Keeps o sub P := by
  cases value with
  | none => exact Proc.keeps_pure _
  | some value =>
    rw [utf8ValueOf]
    cases isolate.stringUnits value with
    | some units => exact Proc.keeps_pure _
    | none => exact Proc.keeps_bind (keeps_activate hsub _ s) fun _ => Proc.keeps_pure _

theorem keeps_int32Value (hsub : ∀ q, ∀ n ∈ sub q, P n) (value : V) (s : σ) :
    (int32Value isolate value s).Keeps o sub P := by
  rw [int32Value]
  cases isolate.int32 value with
  | some n => exact Proc.keeps_pure _
  | none => exact Proc.keeps_bind (keeps_activate hsub _ s) fun _ => Proc.keeps_pure _

theorem keeps_readNamed (name : CString) (s : σ) :
    (readNamed isolate fuel name s).Keeps o sub P := by
  rw [readNamed]
  cases Shell.readFile fuel (isolate.fopen name s).1 with
  | ok bytes => exact Proc.keeps_pure _
  | error halt =>
    cases halt with
    | checkFailed => exact Proc.keeps_fail _
    | badAlloc => exact Proc.keeps_fail _
    | running => exact Proc.keeps_running

theorem keeps_newFromCString (data : CString) :
    (newFromCString data : NativeCode σ V JsString).Keeps o sub P := by
  unfold newFromCString
  split
  · exact Proc.keeps_pure _
  · exact Proc.keeps_fail _
  · exact Proc.keeps_fail _

theorem keeps_assert (condition : Bool) :
    (assert condition : NativeCode σ V Unit).Keeps o sub P := by
  cases condition
  · exact Proc.keeps_fail _
  · exact Proc.keeps_pure _

theorem quiet_stdout {bytes : List UInt8} (h : (0 : UInt8) ∉ bytes) : Quiet (.stdout bytes) :=
  ⟨bytes, rfl, h⟩

theorem zero_notMem_line {str : CString} : (0 : UInt8) ∉ str.bytes ++ utf8 "\n" := by
  rw [List.mem_append]
  exact fun h => h.elim str.nonzero (by decide)

theorem keeps_repeated {bytes : List UInt8} (h : P (.stderr bytes)) (n : ℕ) :
    (repeated bytes n : NativeCode σ V Unit).Keeps o sub P := by
  induction n with
  | zero => exact Proc.keeps_pure _
  | succ n ih => exact Proc.keeps_bind (Proc.keeps_tell h) fun _ => ih

theorem zero_notMem_formatInt (n : ℤ) : (0 : UInt8) ∉ formatInt n := by
  have hdigits : '\x00' ∉ decimal n.natAbs := fun h => absurd (isDigit_of_mem_decimal h) (by decide)
  rw [formatInt]
  intro h
  rcases List.mem_append.mp (zero_mem_encodeText_iff.mp h) with h | h
  · split_ifs at h
    · exact absurd h (by decide)
    · exact absurd h List.not_mem_nil
  · exact hdigits h

/-- A report consists of C strings and numbers. -/
theorem keeps_reportException (hsub : ∀ q, ∀ n ∈ sub q, P n)
    (hstderr : ∀ bytes, (0 : UInt8) ∉ bytes → P (.stderr bytes)) (caught : Option (Caught V))
    (s : σ) : (reportException isolate caught s).Keeps o sub P := by
  refine Proc.keeps_bind (keeps_utf8ValueOf hsub _ s) fun ⟨exception, s⟩ => ?_
  dsimp only
  cases caught.bind fun c => c.message.map (c.exception, ·) with
  | none =>
    exact Proc.keeps_bind (Proc.keeps_tell (hstderr _ zero_notMem_line)) fun _ => Proc.keeps_pure _
  | some p =>
    obtain ⟨thrown, m⟩ := p
    refine Proc.keeps_bind (keeps_utf8ValueOf hsub _ s) fun ⟨filename, s⟩ => ?_
    have hheader : (0 : UInt8) ∉ (toCString filename).bytes ++ utf8 ":" ++ formatInt m.lineNumber ++
        utf8 ": " ++ (toCString exception).bytes ++ utf8 "\n" := by
      simp only [List.mem_append, not_or]
      exact ⟨⟨⟨⟨⟨(toCString filename).nonzero, by decide⟩, zero_notMem_formatInt _⟩, by decide⟩,
        (toCString exception).nonzero⟩, by decide⟩
    refine Proc.keeps_bind (Proc.keeps_tell (hstderr _ hheader)) fun _ => ?_
    refine Proc.keeps_bind (Proc.keeps_tell (hstderr _ zero_notMem_line)) fun _ => ?_
    refine Proc.keeps_bind (keeps_repeated (hstderr _ (by decide)) _) fun _ => ?_
    refine Proc.keeps_bind (keeps_repeated (hstderr _ (by decide)) _) fun _ => ?_
    refine Proc.keeps_bind (Proc.keeps_tell (hstderr _ (by decide))) fun _ => ?_
    refine Proc.keeps_bind (keeps_activate hsub _ s) fun ⟨c, s⟩ => ?_
    dsimp only
    cases c.result.bind isolate.stringUnits with
    | none => exact Proc.keeps_pure _
    | some units =>
      dsimp only
      split_ifs
      · exact Proc.keeps_bind (Proc.keeps_tell (hstderr _ zero_notMem_line)) fun _ =>
          Proc.keeps_pure _
      · exact Proc.keeps_pure _

/-- What `ExecuteString` writes: what the activations write, the result, and reports if it is
to report. -/
theorem keeps_executeString (hsub : ∀ q, ∀ n ∈ sub q, P n)
    (hstdout : ∀ bytes, (0 : UInt8) ∉ bytes → P (.stdout bytes)) {reportExceptions : Bool}
    (hstderr : reportExceptions = true → ∀ bytes, (0 : UInt8) ∉ bytes → P (.stderr bytes))
    (source : JsString) (name : V) (printResult : Bool) (s : σ) :
    (executeString isolate source name printResult reportExceptions s).Keeps o sub P := by
  have hfailed : ∀ caught (s : σ),
      (executionFailed isolate reportExceptions caught s).Keeps o sub P := by
    intro caught s
    unfold executionFailed
    split_ifs with hreport
    · exact Proc.keeps_bind (keeps_reportException hsub (hstderr hreport) caught s) fun _ =>
        Proc.keeps_pure _
    · exact Proc.keeps_pure _
  refine Proc.keeps_bind (keeps_activate hsub _ s) fun ⟨script, s⟩ => ?_
  dsimp only
  cases script.result with
  | none => exact hfailed _ s
  | some script =>
    refine Proc.keeps_bind (keeps_activate hsub _ s) fun ⟨result, s⟩ => ?_
    dsimp only
    cases result.result with
    | none => exact Proc.keeps_bind (keeps_assert _) fun _ => hfailed _ s
    | some result' =>
      refine Proc.keeps_bind (keeps_assert _) fun _ => ?_
      unfold executionSucceeded
      split
      · refine Proc.keeps_bind (keeps_utf8ValueOf hsub _ s) fun ⟨str, s⟩ => ?_
        exact Proc.keeps_bind (Proc.keeps_tell (hstdout _ zero_notMem_line)) fun _ =>
          Proc.keeps_pure _
      · exact Proc.keeps_pure _

theorem quiet_printLoop (hsub : ∀ q, ∀ n ∈ sub q, Quiet n) (first : Bool) (args : List V) (s : σ) :
    (printLoop isolate first args s).Keeps o sub Quiet := by
  induction args generalizing first s with
  | nil => exact Proc.keeps_pure _
  | cons arg args ih =>
    have hspace : (separator first : NativeCode σ V Unit).Keeps o sub Quiet := by
      cases first
      · exact Proc.keeps_tell (quiet_stdout (by decide))
      · exact Proc.keeps_pure _
    refine Proc.keeps_bind hspace fun _ => ?_
    refine Proc.keeps_bind (keeps_utf8ValueOf hsub _ s) fun ⟨str, s⟩ => ?_
    refine Proc.keeps_bind (Proc.keeps_tell (quiet_stdout (toCString str).nonzero)) fun _ => ?_
    exact ih false s

theorem keeps_readArgument (hsub : ∀ q, ∀ n ∈ sub q, P n) (arg : V) (s : σ) :
    (readArgument isolate fuel arg s).Keeps o sub P := by
  refine Proc.keeps_bind (keeps_utf8ValueOf hsub _ s) fun ⟨file, s⟩ => ?_
  cases file with
  | none => exact Proc.keeps_pure _
  | some file => exact keeps_readNamed file s

theorem quiet_load (hsub : ∀ q, ∀ n ∈ sub q, Quiet n) (args : List V) (s : σ) :
    (load isolate fuel args s).Keeps o sub Quiet := by
  induction args generalizing s with
  | nil => exact Proc.keeps_pure _
  | cons arg args ih =>
    refine Proc.keeps_bind (keeps_readArgument hsub arg s) fun ⟨source, s⟩ => ?_
    cases source with
    | none => exact Proc.keeps_pure _
    | some source =>
      have hexecute : (executeString isolate source arg false false s).Keeps o sub Quiet :=
        keeps_executeString hsub (fun _ => quiet_stdout) (by simp) source arg false s
      refine Proc.keeps_bind hexecute fun ⟨success, s⟩ => ?_
      cases success
      · exact Proc.keeps_pure _
      · exact ih s

theorem quiet_native (hsub : ∀ q, ∀ n ∈ sub q, Quiet n) (f : NativeFunction) (args : List V)
    (s : σ) : (native isolate fuel f args s).Keeps o sub Quiet := by
  cases f with
  | print =>
    refine Proc.keeps_bind (quiet_printLoop hsub true args s) fun s => ?_
    exact Proc.keeps_bind (Proc.keeps_tell (quiet_stdout (by decide))) fun _ => Proc.keeps_pure _
  | read =>
    change (read isolate fuel args s).Keeps o sub Quiet
    unfold read
    split
    · refine Proc.keeps_bind (keeps_readArgument hsub _ s) fun ⟨source, s⟩ => ?_
      cases source
      · exact Proc.keeps_pure _
      · exact Proc.keeps_pure _
    · exact Proc.keeps_pure _
  | load => exact quiet_load hsub args s
  | quit => exact Proc.keeps_bind (keeps_int32Value hsub _ s) fun _ => Proc.keeps_fail _
  | version => exact Proc.keeps_bind (keeps_newFromCString _) fun _ => Proc.keeps_pure _

/-- Code is quiet whose native functions are. -/
theorem quiet_events_of (isolate : Isolate F R σ V)
    {native : F → List V → σ → NativeCode σ V (R × σ)}
    (hnative : ∀ (o : σ → Except (Stop Exit) (Completion V × σ)) sub,
      (∀ q, ∀ n ∈ sub q, Quiet n) → ∀ f args s, (native f args s).Keeps o sub Quiet)
    (depth : ℕ) (s : σ) : ∀ event ∈ Proc.events (bodyOf isolate native) depth s, Quiet event := by
  refine Proc.events_keeps (fun o sub hsub s => ?_) depth s
  unfold bodyOf
  split
  · exact Proc.keeps_pure _
  · exact Proc.keeps_bind (hnative o sub hsub _ _ _) fun _ => Proc.keeps_ask (hsub _)
  · next message _ _ =>
    have hmessage : (0 : UInt8) ∉ message.bytes ++ utf8 "\n" := by
      rw [List.mem_append]
      exact fun h => h.elim message.nonzero (by decide)
    exact Proc.keeps_bind (Proc.keeps_tell (quiet_stdout hmessage)) fun _ => Proc.keeps_ask (hsub _)

/-- **What JavaScript code writes**: whatever it does, and however it ends, it writes to
standard output only, and no zero byte. -/
theorem quiet_events (isolate : ShellIsolate σ V) (fuel depth : ℕ) (s : σ) :
    ∀ event ∈ Proc.events (body isolate fuel) depth s, Quiet event :=
  quiet_events_of isolate (fun _ _ hsub f args s => quiet_native hsub f args s) depth s

end Quiet

/-! ## How native code fails -/

section Fails

variable {isolate : Isolate F R σ V} {fuel : ℕ} {o : σ → Except (Stop Exit) (Completion V × σ)}
  {s : σ} {P : Exit → Prop}

end Fails

/-! ## What is reported -/

section Reported

variable {isolate : Isolate F R σ V} {o : σ → Except (Stop Exit) (Completion V × σ)}
  {sub : σ → List Output} {s : σ} {caught : Option (Caught V)} {α : Type}

/-- The events of a report, or of the part of one that was written before the process
stopped. -/
def Reported (isolate : Isolate F R σ V) (caught : Option (Caught V)) :
    Except (Stop Exit) σ → List Output → Prop
  | .ok _, t => ∃ r, Report.Describes isolate caught r ∧ stderrOf t = r.bytes
  | .error _, t => ∃ r, Report.Describes isolate caught r ∧ stderrOf t <+: r.bytes

theorem meets_fprintf_bind {bytes : List UInt8} {f : Unit → NativeCode σ V α}
    {Φ : Except (Stop Exit) α → List Output → Prop}
    (h : (f ()).Meets o sub fun r u => Φ r (.stderr bytes :: u)) :
    (fprintf bytes >>= f).Meets o sub Φ := h

theorem meets_repeated_bind {bytes : List UInt8} {n : ℕ} {f : Unit → NativeCode σ V α}
    {Φ : Except (Stop Exit) α → List Output → Prop}
    (h : (f ()).Meets o sub fun r u => Φ r (List.replicate n (.stderr bytes) ++ u)) :
    (repeated bytes n >>= f).Meets o sub Φ := by
  induction n generalizing Φ with
  | zero => exact h
  | succ n ih =>
    rw [repeated, bind_assoc]
    exact meets_fprintf_bind (ih h)

theorem stderrOf_replicate (n : ℕ) (bytes : List UInt8) :
    stderrOf (List.replicate n (.stderr bytes)) = (List.replicate n bytes).flatten := by
  induction n with
  | zero => rfl
  | succ n ih =>
    rw [List.replicate_succ, List.replicate_succ, List.flatten_cons, ← ih]
    rfl

/-- An activation writes nothing to standard error. -/
theorem meets_activate (hsub : ∀ q, ∀ n ∈ sub q, Quiet n) (activation : Activation V) (s : σ) :
    (activate isolate activation s).Meets o sub fun r t => stderrOf t = [] ∧
      r = o (isolate.enter activation s) ∧ t = sub (isolate.enter activation s) :=
  Proc.meets_ask ⟨stderrOf_of_quiet (hsub _), rfl, rfl⟩

/-- A conversion writes nothing to standard error, and a string is taken as it is. -/
theorem meets_utf8ValueOf (hsub : ∀ q, ∀ n ∈ sub q, Quiet n) (value : Option V) (s : σ) :
    (utf8ValueOf isolate value s).Meets o sub fun r t => stderrOf t = [] ∧
      ∀ str s', r = .ok (str, s') → ∀ units, value.bind isolate.stringUnits = some units →
        str = some (utf8Value units) := by
  refine ⟨stderrOf_of_quiet (keeps_utf8ValueOf hsub value s), ?_⟩
  intro str s' hrun units hunits
  cases value with
  | none => cases hunits
  | some value =>
    rw [Option.bind_some] at hunits
    rw [utf8ValueOf, hunits] at hrun
    cases hrun
    rfl

/-- There is a report about everything. -/
theorem exists_describes (isolate : Isolate F R σ V) (caught : Option (Caught V)) :
    ∃ r, Report.Describes isolate caught r := by
  have hvalue : ∀ value : Option V, ∃ str : CString, ∀ units,
      value.bind isolate.stringUnits = some units → str = utf8Value units := by
    intro value
    cases value.bind isolate.stringUnits with
    | none => exact ⟨CString.ofBuffer [], nofun⟩
    | some units => exact ⟨utf8Value units, fun _ h => by rw [Option.some.inj h]⟩
  obtain ⟨exception, hexception⟩ := hvalue (caught.map Caught.exception)
  cases hmessage : caught.bind Caught.message with
  | none => exact ⟨⟨exception, none⟩, hexception, by rw [hmessage]⟩
  | some m =>
    obtain ⟨filename, hfilename⟩ := hvalue (some m.resourceName)
    refine ⟨⟨exception, some ⟨filename, m.lineNumber, utf8Value m.sourceLine, m.startColumn,
      m.endColumn, none⟩⟩, hexception, ?_⟩
    rw [hmessage]
    exact ⟨filename, none, rfl, hfilename⟩

/-- Nothing of a report has been written. -/
theorem reported_nothing {stop : Stop Exit} {t : List Output} (h : stderrOf t = []) :
    Reported isolate caught (.error stop) t := by
  obtain ⟨r, hr⟩ := exists_describes isolate caught
  exact ⟨r, hr, h ▸ List.nil_prefix⟩

theorem meets_reportStackTrace (hsub : ∀ q, ∀ n ∈ sub q, Quiet n) (exception : V) (s : σ) :
    (reportStackTrace isolate exception s).Meets o sub fun r t =>
      match r with
      | .ok _ => ∃ trace : Option CString,
          stderrOf t = trace.elim [] fun trace => trace.bytes ++ utf8 "\n"
      | .error _ => stderrOf t = [] := by
  refine Proc.meets_bind (meets_activate hsub (.stackTrace exception) s) (fun _ _ h => h.1)
    fun ⟨c, s⟩ t ht => ?_
  have hquiet := ht.1
  dsimp only
  cases c.result.bind isolate.stringUnits with
  | none => exact ⟨none, by simpa using hquiet⟩
  | some units =>
    dsimp only
    split_ifs
    · exact ⟨some (utf8Value units), by
        rw [stderrOf_append, hquiet]
        exact stderrOf_singleton_stderr _⟩
    · exact ⟨none, by simpa using hquiet⟩

theorem meets_reportException (hsub : ∀ q, ∀ n ∈ sub q, Quiet n) (caught : Option (Caught V))
    (s : σ) :
    (reportException isolate caught s).Meets o sub (Reported isolate caught) := by
  refine Proc.meets_bind (meets_utf8ValueOf hsub (caught.map Caught.exception) s)
    (fun _ _ h => reported_nothing h.1) fun ⟨exception, s⟩ t ht => ?_
  obtain ⟨ht, hexception⟩ := ht
  -- the exception as it will be written
  have hdescribed : ∀ units, (caught.map Caught.exception).bind isolate.stringUnits = some units →
      toCString exception = utf8Value units := by
    intro units hunits
    rw [hexception _ _ rfl units hunits]
    rfl
  dsimp only
  cases hmessage : caught.bind fun c => c.message.map (c.exception, ·) with
  | none =>
    have hnone : caught.bind Caught.message = none := by
      cases caught with
      | none => rfl
      | some c => simpa using hmessage
    refine ⟨⟨toCString exception, none⟩, ⟨hdescribed, by rw [hnone]⟩, ?_⟩
    rw [stderrOf_append, ht]
    exact stderrOf_singleton_stderr _
  | some p =>
    obtain ⟨thrown, m⟩ := p
    have hsome : caught.bind Caught.message = some m := by
      cases caught with
      | none => cases hmessage
      | some c =>
        obtain ⟨m', hm', heq⟩ := Option.map_eq_some_iff.mp hmessage
        rw [Option.bind_some, hm', (Prod.mk.inj heq).2]
    dsimp only
    refine Proc.meets_bind (meets_utf8ValueOf hsub (some m.resourceName) s)
      (fun _ u hu => reported_nothing (by rw [stderrOf_append, ht, hu.1]; rfl))
      fun ⟨filename, s⟩ u hu => ?_
    obtain ⟨hu, hfilename⟩ := hu
    have hname : ∀ units, isolate.stringUnits m.resourceName = some units →
        toCString filename = utf8Value units := by
      intro units hunits
      rw [hfilename _ _ rfl units hunits]
      rfl
    -- with any stack trace the report is about the exception
    have hreport : ∀ trace, Report.Describes isolate caught
        ⟨toCString exception, some ⟨toCString filename, m.lineNumber, utf8Value m.sourceLine,
          m.startColumn, m.endColumn, trace⟩⟩ := by
      intro trace
      refine ⟨hdescribed, ?_⟩
      rw [hsome]
      exact ⟨_, trace, rfl, hname⟩
    refine meets_fprintf_bind (meets_fprintf_bind (meets_repeated_bind (meets_repeated_bind
      (meets_fprintf_bind ?_))))
    refine Proc.meets_mono (meets_reportStackTrace hsub thrown s) fun r w hw => ?_
    -- what has been written when the stack trace is asked for
    have hwritten : ∀ trace : Option CString,
        (stderrOf w = trace.elim [] fun trace => trace.bytes ++ utf8 "\n") →
        stderrOf (t ++ (u ++ (.stderr ((toCString filename).bytes ++ utf8 ":" ++
          formatInt m.lineNumber ++ utf8 ": " ++ (toCString exception).bytes ++ utf8 "\n") ::
          .stderr ((toCString (some (utf8Value m.sourceLine))).bytes ++ utf8 "\n") ::
          (List.replicate m.startColumn.toNat (.stderr (utf8 " ")) ++
          (List.replicate (m.endColumn - m.startColumn).toNat (.stderr (utf8 "^")) ++
          .stderr (utf8 "\n") :: w))))) =
        Report.bytes ⟨toCString exception, some ⟨toCString filename, m.lineNumber,
          utf8Value m.sourceLine, m.startColumn, m.endColumn, trace⟩⟩ := by
      intro trace htrace
      have hcons : ∀ bytes rest, stderrOf (.stderr bytes :: rest) = bytes ++ stderrOf rest :=
        fun _ _ => rfl
      simp only [stderrOf_append, hcons, stderrOf_replicate, ht, hu, htrace, List.nil_append]
      simp only [Report.bytes, Details.bytes, Option.elim_some, List.append_assoc]
      rfl
    cases r with
    | ok s' =>
      obtain ⟨trace, htrace⟩ := hw
      exact ⟨_, hreport trace, hwritten trace htrace⟩
    | error stop => exact ⟨_, hreport none, (hwritten none hw).symm ▸ List.prefix_rfl⟩

end Reported

/-! ## What `ExecuteString` writes -/

section Execution

variable {isolate : Isolate F R σ V} {o : σ → Except (Stop Exit) (Completion V × σ)}
  {sub : σ → List Output} {source : JsString} {name : V} {s s₁ : σ} {c : Completion V}
  {t : List Output} {reportExceptions : Bool} {α : Type}

/-- The process has stopped before anything could be reported. -/
theorem executionLaw_silent {stop : Stop Exit} (h : stderrOf t = []) :
    ExecutionLaw isolate o sub source name reportExceptions s (.error stop) t where
  returned := nofun
  stopped := fun _ _ => Or.inl h

/-- An assertion fails, or the computation goes on. -/
theorem meets_assert_bind {condition : Bool} {f : Unit → NativeCode σ V α}
    {Φ : Except (Stop Exit) α → List Output → Prop}
    (hfail : Φ (.error (.failed .aborted)) []) (h : (f ()).Meets o sub Φ) :
    (assert condition >>= f).Meets o sub Φ := by
  cases condition
  · exact hfail
  · exact h

/-- Without a result, the exception is reported if it has to be. -/
theorem meets_executionFailed (reportExceptions : Bool) (hsub : ∀ q, ∀ n ∈ sub q, Quiet n)
    (hattempt : Attempt isolate o sub source name s c s₁ t) (hresult : c.result = none)
    (ht : stderrOf t = []) :
    (executionFailed isolate reportExceptions c.caught s₁).Meets o sub fun r u =>
      ExecutionLaw isolate o sub source name reportExceptions s r (t ++ u) := by
  have hnone : c.result.isSome = false := by rw [hresult]; rfl
  unfold executionFailed
  cases reportExceptions with
  | false =>
    refine { returned := ?_, stopped := nofun }
    rintro success s' ⟨⟩
    exact ⟨c, s₁, t, hattempt, List.prefix_append t _, hnone.symm, by simpa using ht⟩
  | true =>
    refine Proc.meets_bind (meets_reportException hsub c.caught s₁) ?_ ?_
    · rintro stop u ⟨r, hr, hu⟩
      refine { returned := nofun, stopped := fun _ _ => Or.inr ⟨rfl, c, s₁, t, hattempt,
        List.prefix_append t u, hresult, r, hr, ?_⟩ }
      rwa [stderrOf_append, ht, List.nil_append]
    · rintro s₂ u ⟨r, hr, hu⟩
      refine { returned := ?_, stopped := nofun }
      rintro success s' ⟨⟩
      refine ⟨c, s₁, t, hattempt, List.prefix_append t _, hnone.symm, r, hr, ?_⟩
      simp [ht, hu]

/-- With a result, nothing is reported. -/
theorem meets_executionSucceeded (reportExceptions : Bool) (hsub : ∀ q, ∀ n ∈ sub q, Quiet n)
    (printResult : Bool) {result : V} (hattempt : Attempt isolate o sub source name s c s₁ t)
    (hresult : c.result = some result) (ht : stderrOf t = []) :
    (executionSucceeded isolate printResult result s₁).Meets o sub fun r u =>
      ExecutionLaw isolate o sub source name reportExceptions s r (t ++ u) := by
  have hsome : c.result.isSome = true := by rw [hresult]; rfl
  unfold executionSucceeded
  split
  · refine Proc.meets_bind (meets_utf8ValueOf hsub (some result) s₁)
      (fun _ u hu => executionLaw_silent (by rw [stderrOf_append, ht, hu.1]; rfl))
      fun ⟨str, s₂⟩ u hu => ?_
    refine { returned := ?_, stopped := nofun }
    rintro success s' ⟨⟩
    refine ⟨c, s₁, t, hattempt, List.prefix_append t _, hsome.symm, ?_⟩
    rw [Bool.true_or, if_pos rfl, stderrOf_append, stderrOf_append, ht, hu.1]
    rfl
  · refine { returned := ?_, stopped := nofun }
    rintro success s' ⟨⟩
    exact ⟨c, s₁, t, hattempt, List.prefix_append t _, hsome.symm, by simpa using ht⟩

/-- **What `ExecuteString` writes to standard error**, whatever the string does. -/
theorem executeString_meets (hsub : ∀ q, ∀ n ∈ sub q, Quiet n) (source : JsString) (name : V)
    (printResult reportExceptions : Bool) (s : σ) :
    (executeString isolate source name printResult reportExceptions s).Meets o sub
      (ExecutionLaw isolate o sub source name reportExceptions s) := by
  refine Proc.meets_bind (meets_activate hsub (.compile source name) s)
    (fun _ _ h => executionLaw_silent h.1) fun ⟨script, s₁⟩ t ht => ?_
  obtain ⟨hquiet, hcompiled, rfl⟩ := ht
  dsimp only
  cases hscript : script.result with
  | none =>
    exact meets_executionFailed reportExceptions hsub (.notCompiled hcompiled.symm hscript) hscript
      hquiet
  | some script' =>
    refine Proc.meets_bind (meets_activate hsub (.run script') s₁)
      (fun _ _ h => executionLaw_silent (by rw [stderrOf_append, hquiet, h.1]; rfl))
      fun ⟨result, s₂⟩ u hu => ?_
    obtain ⟨hquiet', hran, rfl⟩ := hu
    have hattempt : Attempt isolate o sub source name s result s₂ _ :=
      .ran hcompiled.symm hscript hran.symm
    have hboth : stderrOf (sub (isolate.enter (.compile source name) s) ++
        sub (isolate.enter (.run script') s₁)) = [] := by
      rw [stderrOf_append, hquiet, hquiet']
      rfl
    dsimp only
    cases hresult : result.result with
    | none =>
      refine meets_assert_bind (executionLaw_silent ?_) ?_
      · simpa using hboth
      · have h := meets_executionFailed reportExceptions hsub hattempt hresult hboth
        exact Proc.meets_mono h fun r w hw => by rwa [List.append_assoc] at hw
    | some value =>
      refine meets_assert_bind (executionLaw_silent ?_) ?_
      · simpa using hboth
      · have h := meets_executionSucceeded reportExceptions hsub printResult hattempt hresult
          hboth
        exact Proc.meets_mono h fun r w hw => by rwa [List.append_assoc] at hw

end Execution

end NodeMini.Shell
