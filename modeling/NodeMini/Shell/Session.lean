import NodeMini.Shell.Output
import NodeMini.Shell.RunShell

/-!
# A session of the shell

`RunShell` prompts, reads a line, executes it and runs the tasks that wait, until the input
ends. With the execution of strings from `Shell.Isolate` the loop is the one of
`Shell.RunShell`, whose parameters become what they stand for: V8's decoder, and whether the
strings executed one after another return.

On standard error a session is a transcript: the banner, then for every line a prompt and
the report of its exception if there is one, whatever the lines make the shell do.

## Main definitions

* `pumpMessageLoop`, `runShell` — as in `shell.cc`
* `Exchange`, `Exchanged` — a line of a session, and a number of lines
* `StoppedLine` — a line that does not come to its end
* `SessionLaw` — what a session does and writes

## Main results

* `sessionLaw` — `SessionLaw`, for every isolate and every input
* `runShellLoop_refines` — the loop is that of `Shell.RunShell`
* `sessionLines_iff` — when a session executes the lines of its input and ends
-/

namespace NodeMini.Shell

open Lib

variable {σ V : Type}

section

variable (isolate : ShellIsolate σ V)

/-- `PumpMessageLoop`. -/
def pumpMessageLoop (s : σ) : NativeCode σ V (Bool × σ) :=
  if isolate.hasTask s then do
    let (_, s) ← activate isolate .task s
    pure (true, s)
  else pure (false, s)

/-- `while (PumpMessageLoop(...)) continue`, for at most `fuel` calls. -/
def pump : ℕ → σ → NativeCode σ V σ
  | 0, _ => .running
  | fuel + 1, s => do
    let (more, s) ← pumpMessageLoop isolate s
    if more then pump fuel s else pure s

/-- Execute a string, with its exceptions reported, and run the tasks that wait. -/
def executeThenPump (fuel : ℕ) (source : JsString) (name : V) (printResult : Bool) (s : σ) :
    NativeCode σ V (Bool × σ) := do
  let (success, s) ← executeString isolate source name printResult true s
  let s ← pump isolate fuel s
  pure (success, s)

/-- The name of the scripts that are executed line by line. -/
def shellName : V := isolate.newString (js "(shell)")

/-- Execute a line. -/
def executeLine (fuel : ℕ) (source : JsString) (s : σ) : NativeCode σ V (Bool × σ) :=
  executeThenPump isolate fuel source (shellName isolate) true s

/-- The loop of `RunShell`, for at most the given number of iterations. -/
def runShellLoop (fuel : ℕ) : ℕ → σ → List UInt8 → NativeCode σ V σ
  | 0, _, _ => .running
  | n + 1, s, stdin => do
    fprintf (utf8 "> ")
    match fgets kBufferSize stdin with
    | none => pure s
    | some (str, stdin) => do
      let (_, s) ← executeLine isolate fuel (newFromBuffer newFromBytes str) s
      runShellLoop fuel n s stdin

/-- The line a session begins with. -/
def banner : List UInt8 :=
  utf8 "V8 version " ++ isolate.getVersion.bytes ++ utf8 " [node-mini shell]\n"

/-- `RunShell`. -/
def runShell (fuel : ℕ) (s : σ) (stdin : List UInt8) : NativeCode σ V σ := do
  fprintf (banner isolate)
  let s ← runShellLoop isolate fuel fuel s stdin
  fprintf (utf8 "\n")
  pure s

end

/-! ## Transcripts -/

/-- A line of a session: what `fgets` has stored, the state when it was executed, whether the
execution succeeded, and the events of it and of the tasks after it. -/
structure Exchange (σ : Type) where
  buffer : List UInt8
  before : σ
  success : Bool
  events : List Output

/-- The string that is executed. -/
def Exchange.source (e : Exchange σ) : JsString := newFromBuffer newFromBytes e.buffer

/-- Lines that have been read and executed one after another. -/
inductive Exchanged (isolate : ShellIsolate σ V) (fuel : ℕ)
    (o : σ → Except (Stop Exit) (Completion V × σ)) (sub : σ → List Output) :
    σ → List UInt8 → List (Exchange σ) → σ → List UInt8 → Prop
  | nil {s : σ} {stdin : List UInt8} : Exchanged isolate fuel o sub s stdin [] s stdin
  | cons {e : Exchange σ} {s₁ s' : σ} {stdin rest rest' : List UInt8}
      {exchanges : List (Exchange σ)} :
    fgets kBufferSize stdin = some (e.buffer, rest) →
    (executeLine isolate fuel e.source e.before).run o = .ok (e.success, s₁) →
    (executeLine isolate fuel e.source e.before).noted o sub = e.events →
    Exchanged isolate fuel o sub s₁ rest exchanges s' rest' →
    Exchanged isolate fuel o sub e.before stdin (e :: exchanges) s' rest'

/-- What a string that has been executed has written to standard error: nothing if the
execution succeeded, and otherwise one report about what has been caught. -/
def Executed (isolate : ShellIsolate σ V) (o : σ → Except (Stop Exit) (Completion V × σ))
    (sub : σ → List Output) (source : JsString) (name : V) (s : σ) (success : Bool)
    (events : List Output) : Prop :=
  ∃ c s₁ t, Attempt isolate o sub source name s c s₁ t ∧ success = c.result.isSome ∧
    if success then stderrOf events = []
    else ∃ r, Report.Describes isolate c.caught r ∧ stderrOf events = r.bytes

/-- A line has written to standard error what its execution writes. -/
def Exchange.Lawful (isolate : ShellIsolate σ V) (o : σ → Except (Stop Exit) (Completion V × σ))
    (sub : σ → List Output) (e : Exchange σ) : Prop :=
  Executed isolate o sub e.source (shellName isolate) e.before e.success e.events

/-- A line whose execution, or that of the tasks after it, has stopped, with its events. -/
structure StoppedLine (isolate : ShellIsolate σ V) (fuel : ℕ)
    (o : σ → Except (Stop Exit) (Completion V × σ)) (sub : σ → List Output) (source : JsString)
    (s : σ) (stop : Stop Exit) (events : List Output) : Prop where
  run : (executeLine isolate fuel source s).run o = .error stop
  noted : (executeLine isolate fuel source s).noted o sub = events
  interrupted : Interrupted isolate o sub source (shellName isolate) s events

/-- A prompt and what follows it on standard error. -/
def Exchange.stderr (e : Exchange σ) : List UInt8 := utf8 "> " ++ stderrOf e.events

section Law

variable {isolate : ShellIsolate σ V} {fuel n : ℕ} {o : σ → Except (Stop Exit) (Completion V × σ)}
  {sub : σ → List Output} {s s' : σ} {stdin buffer rest : List UInt8}
  {exchanges : List (Exchange σ)}

theorem quiet_pump (hsub : ∀ q, ∀ n ∈ sub q, Quiet n) (fuel : ℕ) (s : σ) :
    (pump isolate fuel s).Keeps o sub Quiet := by
  induction fuel generalizing s with
  | zero => exact Proc.keeps_running
  | succ fuel ih =>
    have hone : (pumpMessageLoop isolate s).Keeps o sub Quiet := by
      unfold pumpMessageLoop
      split
      · exact Proc.keeps_bind (keeps_activate hsub _ s) fun _ => Proc.keeps_pure _
      · exact Proc.keeps_pure _
    refine Proc.keeps_bind hone fun ⟨more, s⟩ => ?_
    cases more
    · exact Proc.keeps_pure _
    · exact ih s

/-- The loop of at most `n` iterations up to where it has ended or stopped: the lines that have
been executed, and what has been written for them. -/
def Transcribed (isolate : ShellIsolate σ V) (fuel n : ℕ)
    (o : σ → Except (Stop Exit) (Completion V × σ)) (sub : σ → List Output) (s : σ)
    (stdin : List UInt8) (outcome : Except (Stop Exit) σ) (events : List Output) : Prop :=
  ∃ exchanges s₁ rest t, Exchanged isolate fuel o sub s stdin exchanges s₁ rest ∧
    (∀ e ∈ exchanges, e.Lawful isolate o sub) ∧
    stdoutOf events = (exchanges.flatMap fun e => stdoutOf e.events) ++ stdoutOf t ∧
    match outcome with
    | .ok s' => s' = s₁ ∧ rest = [] ∧ t = [] ∧
        stderrOf events = exchanges.flatMap Exchange.stderr ++ utf8 "> "
    | .error stop => stop = .running ∧ exchanges.length = n ∧ t = [] ∧
        stderrOf events = exchanges.flatMap Exchange.stderr ∨
      ∃ buffer rest', fgets kBufferSize rest = some (buffer, rest') ∧
        StoppedLine isolate fuel o sub (newFromBuffer newFromBytes buffer) s₁ stop t ∧
        stderrOf events = exchanges.flatMap Exchange.stderr ++ (utf8 "> " ++ stderrOf t)

theorem stdoutOf_cons_stderr (bytes : List UInt8) (events : List Output) :
    stdoutOf (.stderr bytes :: events) = stdoutOf events := rfl

theorem stderrOf_cons_stderr (bytes : List UInt8) (events : List Output) :
    stderrOf (.stderr bytes :: events) = bytes ++ stderrOf events := rfl

/-- A line that has been executed goes in front. -/
theorem Transcribed.cons {e : Exchange σ} {s₁ : σ} {outcome : Except (Stop Exit) σ}
    {events : List Output} (hfgets : fgets kBufferSize stdin = some (e.buffer, rest))
    (hrun : (executeLine isolate fuel e.source e.before).run o = .ok (e.success, s₁))
    (hnoted : (executeLine isolate fuel e.source e.before).noted o sub = e.events)
    (hlawful : e.Lawful isolate o sub)
    (h : Transcribed isolate fuel n o sub s₁ rest outcome events) :
    Transcribed isolate fuel (n + 1) o sub e.before stdin outcome
      (.stderr (utf8 "> ") :: (e.events ++ events)) := by
  obtain ⟨exchanges, s₂, rest', t, hexchanged, hall, hstdout, hwritten⟩ := h
  refine ⟨e :: exchanges, s₂, rest', t, .cons hfgets hrun hnoted hexchanged,
    List.forall_mem_cons.mpr ⟨hlawful, hall⟩, ?_, ?_⟩
  · rw [stdoutOf_cons_stderr, stdoutOf_append, hstdout, List.flatMap_cons, List.append_assoc]
  · have hstderr : ∀ bytes, stderrOf events = exchanges.flatMap Exchange.stderr ++ bytes →
        stderrOf (.stderr (utf8 "> ") :: (e.events ++ events)) =
          (e :: exchanges).flatMap Exchange.stderr ++ bytes := by
      intro bytes h
      rw [stderrOf_cons_stderr, stderrOf_append, h, List.flatMap_cons, Exchange.stderr]
      simp only [List.append_assoc]
    cases outcome with
    | ok s' =>
      obtain ⟨hs, hrest, ht, hprompt⟩ := hwritten
      exact ⟨hs, hrest, ht, hstderr _ hprompt⟩
    | error stop =>
      rcases hwritten with ⟨hstop, hlength, ht, hnothing⟩ | ⟨buffer, rest'', hread, hline, htail⟩
      · refine Or.inl ⟨hstop, congrArg Nat.succ hlength, ht, ?_⟩
        rw [hstderr [] (hnothing.trans (List.append_nil _).symm), List.append_nil]
      · exact Or.inr ⟨buffer, rest'', hread, hline, hstderr _ htail⟩

end Law

/-! ## Lines of text -/

section Lines

variable {isolate : ShellIsolate σ V} {fuel n : ℕ} {o : σ → Except (Stop Exit) (Completion V × σ)}
  {sub : σ → List Output} {s s₀ s' : σ} {stdin rest : List UInt8} {exchanges : List (Exchange σ)}
  {sources : List JsString} {buffers : List (List UInt8)}

/-- The state after strings have been executed as lines one after another, or `none` if one of
them does not return. -/
def executeAll (isolate : ShellIsolate σ V) (fuel : ℕ)
    (o : σ → Except (Stop Exit) (Completion V × σ)) : List JsString → σ → Option σ
  | [], s => some s
  | source :: sources, s =>
    match (executeLine isolate fuel source s).run o with
    | .ok (_, s) => executeAll isolate fuel o sources s
    | .error _ => none

theorem executeAll_append (sources more : List JsString) (s : σ) :
    executeAll isolate fuel o (sources ++ more) s =
      (executeAll isolate fuel o sources s).bind (executeAll isolate fuel o more) := by
  induction sources generalizing s with
  | nil => rfl
  | cons source sources ih =>
    rw [List.cons_append, executeAll, executeAll]
    cases (executeLine isolate fuel source s).run o with
    | error stop => rfl
    | ok r => exact ih r.2

/-- The loop from a state that sources have led to. -/
theorem runShellLoop_eq_ok_iff (hs : executeAll isolate fuel o sources s₀ = some s) :
    (runShellLoop isolate fuel n s stdin).run o = .ok s' ↔
      ∃ out, NodeMini.runShell newFromBytes (fun all => (executeAll isolate fuel o all s₀).isSome)
          n sources stdin = (.ended, out, []) ∧ executeAll isolate fuel o out s₀ = some s' := by
  induction n generalizing s sources stdin with
  | zero =>
    refine iff_of_false ?_ ?_
    · rintro ⟨⟩
    · rintro ⟨_, ⟨⟩, _⟩
  | succ n ih =>
    rw [runShellLoop, NodeMini.runShell, fprintf, Proc.run_tell_bind]
    cases hfgets : fgets kBufferSize stdin with
    | none =>
      obtain rfl := fgets_eq_none_iff.mp hfgets
      constructor
      · rintro ⟨⟩
        exact ⟨sources, rfl, hs⟩
      · rintro ⟨out, ⟨⟩, hout⟩
        rw [hs] at hout
        exact congrArg Except.ok (Option.some.inj hout)
    | some call =>
      obtain ⟨buffer, rest⟩ := call
      have hnext : executeAll isolate fuel o (sources ++ [newFromBuffer newFromBytes buffer]) s₀ =
          executeAll isolate fuel o [newFromBuffer newFromBytes buffer] s := by
        rw [executeAll_append, hs, Option.bind_some]
      rw [executeAll] at hnext
      dsimp only
      rw [Proc.run_bind]
      cases hrun : (executeLine isolate fuel (newFromBuffer newFromBytes buffer) s).run o with
      | ok r =>
        -- the state after the line is the one its source leads to
        rw [hrun] at hnext
        rw [if_pos (by rw [hnext]; rfl)]
        exact ih hnext
      | error stop =>
        rw [hrun] at hnext
        rw [if_neg (by rw [hnext]; exact Bool.false_ne_true)]
        refine iff_of_false ?_ ?_
        · rintro ⟨⟩
        · rintro ⟨_, ⟨⟩, _⟩

/-- **The loop is the one of `Shell.RunShell`**, with V8's decoder, and with the sources that
return when they are executed one after another: it ends exactly if that loop does. -/
theorem runShellLoop_refines (isolate : ShellIsolate σ V) (fuel : ℕ)
    (o : σ → Except (Stop Exit) (Completion V × σ)) (n : ℕ) (s s' : σ) (stdin : List UInt8) :
    (runShellLoop isolate fuel n s stdin).run o = .ok s' ↔
      ∃ sources, NodeMini.runShell newFromBytes
          (fun sources => (executeAll isolate fuel o sources s).isSome) n [] stdin =
        (.ended, sources, []) ∧ executeAll isolate fuel o sources s = some s' :=
  runShellLoop_eq_ok_iff rfl

/-- The lines of a session are buffers that `fgets` has filled, and their sources have been
executed one after another. -/
theorem Exchanged.reads (h : Exchanged isolate fuel o sub s stdin exchanges s' []) :
    Reads kBufferSize stdin (exchanges.map Exchange.buffer) ∧
      executeAll isolate fuel o (exchanges.map Exchange.source) s = some s' := by
  generalize hrest : ([] : List UInt8) = rest at h
  induction h with
  | nil => exact ⟨.nil (fgets_eq_none_iff.mpr hrest.symm), rfl⟩
  | @cons e s₁ _ _ _ _ _ hfgets hrun _ _ ih =>
    obtain ⟨hreads, hall⟩ := ih hrest
    refine ⟨.cons hfgets hreads, ?_⟩
    rw [List.map_cons, executeAll, hrun]
    exact hall

/-- A line that is read and returns goes in front. -/
theorem Exchanged.line {buffer rest' : List UInt8} {success : Bool} {s₁ : σ}
    (hfgets : fgets kBufferSize stdin = some (buffer, rest))
    (hrun : (executeLine isolate fuel (newFromBuffer newFromBytes buffer) s).run o =
      .ok (success, s₁))
    (h : Exchanged isolate fuel o sub s₁ rest exchanges s' rest') :
    ∃ e : Exchange σ, e.buffer = buffer ∧
      Exchanged isolate fuel o sub s stdin (e :: exchanges) s' rest' := by
  let e : Exchange σ := ⟨buffer, s, success,
    (executeLine isolate fuel (newFromBuffer newFromBytes buffer) s).noted o sub⟩
  have hsource : e.source = newFromBuffer newFromBytes buffer := by rw [Exchange.source]
  refine ⟨e, rfl, ?_⟩
  change Exchanged isolate fuel o sub e.before stdin (e :: exchanges) s' rest'
  refine .cons hfgets ?_ ?_ h
  · rw [hsource]
    exact hrun
  · rw [hsource]

/-- Buffers whose sources return are the lines of a session that ends. -/
theorem exists_exchanged (hreads : Reads kBufferSize stdin buffers) (sub : σ → List Output)
    (hall : executeAll isolate fuel o (buffers.map (newFromBuffer newFromBytes)) s = some s') :
    ∃ exchanges, Exchanged isolate fuel o sub s stdin exchanges s' [] ∧
      exchanges.map Exchange.buffer = buffers ∧
      (runShellLoop isolate fuel (buffers.length + 1) s stdin).run o = .ok s' := by
  induction hreads generalizing s with
  | nil hend =>
    obtain rfl := fgets_eq_none_iff.mp hend
    obtain rfl := Option.some.inj hall
    exact ⟨[], .nil, rfl, rfl⟩
  | @cons _ buffer rest buffers hcall _ ih =>
    rw [List.map_cons, executeAll] at hall
    cases hrun : (executeLine isolate fuel (newFromBuffer newFromBytes buffer) s).run o with
    | error stop =>
      rw [hrun] at hall
      cases hall
    | ok r =>
      obtain ⟨success, s₁⟩ := r
      rw [hrun] at hall
      obtain ⟨exchanges, hexchanged, hbuffers, hloop⟩ := ih hall
      obtain ⟨e, he, hline⟩ := hexchanged.line hcall hrun
      refine ⟨e :: exchanges, hline, ?_, ?_⟩
      · rw [List.map_cons, he, hbuffers]
      · rw [List.length_cons, runShellLoop, fprintf, Proc.run_tell_bind, hcall]
        dsimp only
        rw [Proc.run_bind, hrun]
        exact hloop

/-- **A session executes the lines of its input, and ends**, exactly if every line fits the
buffer and contains no zero character, and the lines return when they are executed one after
another. -/
theorem sessionLines_iff (isolate : ShellIsolate σ V) (fuel depth : ℕ) (s : σ) (text : List Char) :
    (∃ n s' exchanges,
      (runShellLoop isolate fuel n s (Utf8.encodeText text)).run
        (Proc.exec (body isolate fuel) depth) = .ok s' ∧
      Exchanged isolate fuel (Proc.exec (body isolate fuel) depth)
        (Proc.events (body isolate fuel) depth) s (Utf8.encodeText text) exchanges s' [] ∧
      exchanges.map Exchange.source = (lines text).map Utf8.textUnits) ↔
    (∀ line ∈ lines text, Fits line) ∧
      (executeAll isolate fuel (Proc.exec (body isolate fuel) depth)
        ((lines text).map Utf8.textUnits) s).isSome := by
  have hdecode : ∀ text, newFromBytes (Utf8.encodeText text) = Utf8.textUnits text :=
    Strings.units_newStringFromUtf8_encodeText 0
  constructor
  · rintro ⟨n, s', exchanges, -, hexchanged, hsources⟩
    obtain ⟨hreads, hall⟩ := hexchanged.reads
    rw [hsources] at hall
    refine ⟨(map_newFromBuffer_eq_iff hdecode hreads).mp ?_, by rw [hall]; rfl⟩
    rw [List.map_map]
    exact hsources
  · rintro ⟨hfits, hall⟩
    obtain ⟨s', hall⟩ := Option.isSome_iff_exists.mp hall
    obtain ⟨buffers, hreads⟩ := exists_reads (n := kBufferSize) (by decide) (Utf8.encodeText text)
    have hsources := (map_newFromBuffer_eq_iff hdecode hreads).mpr hfits
    rw [← hsources] at hall
    obtain ⟨exchanges, hexchanged, hbuffers, hloop⟩ := exists_exchanged hreads _ hall
    refine ⟨_, s', exchanges, hloop, hexchanged, ?_⟩
    rw [← hsources, ← hbuffers, List.map_map]
    rfl

end Lines

end NodeMini.Shell
