import NodeMini.Files.ReadFile
import NodeMini.Lib.Decimal
import NodeMini.Lib.Noted
import NodeMini.Main.Console
import NodeMini.Strings.Utf8Decoder

/-!
# The shell's native functions

The code of `shell.cc` runs JavaScript code in an isolate, and the JavaScript code calls back
the five functions that `CreateShellContext` binds. A call may run further code: `load` does,
and so does every conversion of a value to a string, since `toString` may be a function of the
program. So the native functions and the code between their calls are one recursive procedure.
The code of `xnode.cc` drives an isolate in the same way, with native functions of its own.

The isolate is a parameter, together with the file system: a machine that is entered to
compile or run a script, to convert a value, to read a property or to run a task, and that
either completes this, or calls a native function and waits for what it returns. Nothing is
assumed of it.

## Main definitions

* `Isolate` — V8, as native code drives it
* `NativeCode` — a computation of native code, with what it writes
* `utf8ValueOf`, `readFile`, `reportException`, `executeString` — as in `shell.cc`
* `print`, `read`, `load`, `quit`, `version` — the native functions
* `bodyOf` — what an activation does, one call of a native function after the other
* `ShellIsolate`, `body` — an isolate with the shell's functions, and its code
-/

namespace NodeMini.Shell

open Lib

/-- The functions that `CreateShellContext` binds. -/
inductive NativeFunction
  | print
  | read
  | load
  | quit
  | version
  deriving DecidableEq, Repr

/-- What an isolate is entered for. -/
inductive Activation (V : Type)
  /-- `Script::Compile`, with the name in the script's origin. -/
  | compile (source : JsString) (name : V)
  /-- `Script::Run`. -/
  | run (script : V)
  /-- `Value::ToString`, of a value that is no string. -/
  | toString (v : V)
  /-- `Value::Int32Value`, of a value that is no number. -/
  | toInt32 (v : V)
  /-- `TryCatch::StackTrace`. -/
  | stackTrace (exception : V)
  /-- A task of the platform. -/
  | task
  /-- `Function::Call` of the loader's bootstrapper, with a new object and the function
  `GetBinding`. -/
  | call (bootstrapper : V)

/-- A `v8::Message`. -/
structure Message (V : Type) where
  resourceName : V
  lineNumber : ℤ
  sourceLine : JsString
  startColumn : ℤ
  endColumn : ℤ

/-- What a `TryCatch` has caught. -/
structure Caught (V : Type) where
  exception : V
  message : Option (Message V)

/-- How an activation completes: with a value or an empty handle, and with what the
`TryCatch` around it has caught. -/
structure Completion (V : Type) where
  result : Option V
  caught : Option (Caught V)

/-- What a native function hands back: the return value, if it has set one, or an exception. -/
inductive Return
  | undefined
  | string (s : JsString)
  | throws (s : JsString)
  deriving DecidableEq, Repr

/-- What an isolate does next. -/
inductive Step (F σ V : Type)
  | completes (c : Completion V) (s : σ)
  | calls (f : F) (args : List V) (s : σ)
  /-- `MessageHandler::DefaultMessageReport`, of an exception that nothing catches. -/
  | reports (message : CString) (s : σ)

/-- An isolate with states in `σ` and values in `V`, and the file system, as native code
drives them. The native functions it calls are in `F`, and what they hand back in `R`. -/
structure Isolate (F R σ V : Type) where
  /-- `Context::New`, with the functions of the global object by their names. -/
  newContext : List (JsString × F) → σ → Option σ
  enter : Activation V → σ → σ
  next : σ → Step F σ V
  resume : R → σ → σ
  undefined : V
  newString : JsString → V
  /-- The units of a value that is a string. -/
  stringUnits : V → Option JsString
  /-- A value that is a number, as an `int32_t`. -/
  int32 : V → Option ℤ
  isUndefined : V → Bool
  isFunction : V → Bool
  /-- Whether a task waits in the platform's queue. -/
  hasTask : σ → Bool
  fopen : CString → σ → Option FileStream × σ
  /-- `V8::GetVersion`. -/
  getVersion : CString

/-- What native code writes. -/
inductive Output
  | stdout (bytes : List UInt8)
  | stderr (bytes : List UInt8)
  deriving DecidableEq, Repr

/-- How the process ends from within native code. -/
inductive Exit
  /-- `exit`, with its argument. -/
  | code (exitCode : ℤ)
  /-- A `CHECK` or an `assert` has failed, or there is no memory. -/
  | aborted
  /-- An empty handle has been used. -/
  | emptyHandle
  deriving DecidableEq, Repr

/-- A computation of native code. Its calls run an isolate until the activation on top has
completed. -/
abbrev NativeCode (σ V : Type) := Proc σ (Completion V × σ) Exit Output

variable {F R σ V : Type}

/-- `printf`. -/
def printf (bytes : List UInt8) : NativeCode σ V Unit := .tell (.stdout bytes)

/-- `fprintf(stderr, ...)`. -/
def fprintf (bytes : List UInt8) : NativeCode σ V Unit := .tell (.stderr bytes)

/-- What `%i` writes. -/
def formatInt (n : ℤ) : List UInt8 :=
  Utf8.encodeText ((if n < 0 then ['-'] else []) ++ decimal n.natAbs)

/-- `assert`. -/
def assert (condition : Bool) : NativeCode σ V Unit :=
  if condition then pure () else .fail .aborted

/-- The string V8 makes of bytes; their address does not matter. -/
def newFromBytes (bytes : List UInt8) : JsString := (Strings.newStringFromUtf8 0 bytes).units

/-! ## Values and files -/

section

variable (isolate : Isolate F R σ V)

/-- Run the isolate for an activation. -/
def activate (activation : Activation V) (s : σ) : NativeCode σ V (Completion V × σ) :=
  .ask (isolate.enter activation s)

/-- A `String::Utf8Value` of a handle, which may be empty: what it points at, or `none` for
the null pointer. -/
def utf8ValueOf (value : Option V) (s : σ) : NativeCode σ V (Option CString × σ) :=
  match value with
  | none => pure (none, s)
  | some value =>
    match isolate.stringUnits value with
    | some units => pure (some (utf8Value units), s)
    | none => do
      let (c, s) ← activate isolate (.toString value) s
      pure ((c.result.bind isolate.stringUnits).map utf8Value, s)

/-- `Value::Int32Value`. -/
def int32Value (value : V) (s : σ) : NativeCode σ V (Option ℤ × σ) :=
  match isolate.int32 value with
  | some n => pure (some n, s)
  | none => do
    let (c, s) ← activate isolate (.toInt32 value) s
    pure (c.result.bind isolate.int32, s)

/-- `ReadFile`, for at most `fuel` iterations of its loop. -/
def readNamed (fuel : ℕ) (name : CString) (s : σ) : NativeCode σ V (Option JsString × σ) :=
  match Shell.readFile fuel (isolate.fopen name s).1 with
  | .ok bytes => pure (bytes.map newFromBytes, (isolate.fopen name s).2)
  | .error .checkFailed => .fail .aborted
  | .error .badAlloc => .fail .aborted
  | .error .running => .running

/-- `String::NewFromUtf8` without a length, on a C string, and `ToLocalChecked`. -/
def newFromCString (data : CString) : NativeCode σ V JsString :=
  match newFromUtf8 (data.bytes ++ [0]) (-1) with
  | .ok (some bytes) => pure (newFromBytes bytes)
  | .ok none => .fail .aborted
  | .error _ => .fail .aborted

/-! ## Executing a string -/

/-- Write to standard error a number of times. -/
def repeated (bytes : List UInt8) : ℕ → NativeCode σ V Unit
  | 0 => pure ()
  | n + 1 => do
    fprintf bytes
    repeated bytes n

/-- The end of `ReportException`: the stack trace, if there is one. -/
def reportStackTrace (exception : V) (s : σ) : NativeCode σ V σ := do
  let (c, s) ← activate isolate (.stackTrace exception) s
  match c.result.bind isolate.stringUnits with
  | some units =>
    if units.length > 0 then do
      fprintf ((utf8Value units).bytes ++ utf8 "\n")
      pure s
    else pure s
  | none => pure s

/-- `ReportException`, with what the `TryCatch` has caught. -/
def reportException (caught : Option (Caught V)) (s : σ) : NativeCode σ V σ := do
  let (exception, s) ← utf8ValueOf isolate (caught.map Caught.exception) s
  match caught.bind fun c => c.message.map (c.exception, ·) with
  | none => do
    fprintf ((toCString exception).bytes ++ utf8 "\n")
    pure s
  | some (thrown, message) => do
    let (filename, s) ← utf8ValueOf isolate (some message.resourceName) s
    fprintf ((toCString filename).bytes ++ utf8 ":" ++ formatInt message.lineNumber ++
      utf8 ": " ++ (toCString exception).bytes ++ utf8 "\n")
    fprintf ((toCString (some (utf8Value message.sourceLine))).bytes ++ utf8 "\n")
    -- `for (int i = 0; i < start; i++)` and `for (int i = start; i < end; i++)`
    repeated (utf8 " ") message.startColumn.toNat
    repeated (utf8 "^") (message.endColumn - message.startColumn).toNat
    fprintf (utf8 "\n")
    reportStackTrace isolate thrown s

/-- The end of `ExecuteString` without a result. -/
def executionFailed (reportExceptions : Bool) (caught : Option (Caught V)) (s : σ) :
    NativeCode σ V (Bool × σ) :=
  if reportExceptions then do
    let s ← reportException isolate caught s
    pure (false, s)
  else pure (false, s)

/-- The end of `ExecuteString` with a result. -/
def executionSucceeded (printResult : Bool) (result : V) (s : σ) : NativeCode σ V (Bool × σ) :=
  if printResult && !isolate.isUndefined result then do
    let (str, s) ← utf8ValueOf isolate (some result) s
    printf ((toCString str).bytes ++ utf8 "\n")
    pure (true, s)
  else pure (true, s)

/-- `ExecuteString`. -/
def executeString (source : JsString) (name : V) (printResult reportExceptions : Bool) (s : σ) :
    NativeCode σ V (Bool × σ) := do
  let (script, s) ← activate isolate (.compile source name) s
  match script.result with
  | none => executionFailed isolate reportExceptions script.caught s
  | some script => do
    let (result, s) ← activate isolate (.run script) s
    match result.result with
    | none => do
      assert result.caught.isSome
      executionFailed isolate reportExceptions result.caught s
    | some result' => do
      assert result.caught.isNone
      executionSucceeded isolate printResult result' s

/-! ## The native functions -/

/-- The space that `Print` writes in front of every argument but the first. -/
def separator (first : Bool) : NativeCode σ V Unit :=
  if first then pure () else printf (utf8 " ")

/-- The loop of `Print`. -/
def printLoop (first : Bool) : List V → σ → NativeCode σ V σ
  | [], s => pure s
  | arg :: args, s => do
    separator first
    let (str, s) ← utf8ValueOf isolate (some arg) s
    printf (toCString str).bytes
    printLoop false args s

/-- `Print`. -/
def print (args : List V) (s : σ) : NativeCode σ V (Return × σ) := do
  let s ← printLoop isolate true args s
  printf (utf8 "\n")
  pure (.undefined, s)

/-- `Read` and `Load` up to `ReadFile`: the file named by an argument. -/
def readArgument (fuel : ℕ) (arg : V) (s : σ) : NativeCode σ V (Option JsString × σ) := do
  let (file, s) ← utf8ValueOf isolate (some arg) s
  match file with
  | none => pure (none, s)
  | some file => readNamed isolate fuel file s

/-- `Read`. -/
def read (fuel : ℕ) (args : List V) (s : σ) : NativeCode σ V (Return × σ) :=
  match args with
  | [arg] => do
    let (source, s) ← readArgument isolate fuel arg s
    match source with
    | none => pure (.throws (js "Error loading file"), s)
    | some source => pure (.string source, s)
  | _ => pure (.throws (js "Bad parameters"), s)

/-- `Load`. -/
def load (fuel : ℕ) : List V → σ → NativeCode σ V (Return × σ)
  | [], s => pure (.undefined, s)
  | arg :: args, s => do
    let (source, s) ← readArgument isolate fuel arg s
    match source with
    | none => pure (.throws (js "Error loading file"), s)
    | some source => do
      let (success, s) ← executeString isolate source arg false false s
      if success then load fuel args s
      else pure (.throws (js "Error executing file"), s)

/-- `Quit`. A conversion that throws counts as `0`. -/
def quit (args : List V) (s : σ) : NativeCode σ V (Return × σ) := do
  let (exitCode, _) ← int32Value isolate (args.head?.getD isolate.undefined) s
  .fail (.code (exitCode.getD 0))

/-- `Version`. -/
def version (s : σ) : NativeCode σ V (Return × σ) := do
  let version ← newFromCString isolate.getVersion
  pure (.string version, s)

/-- A call of a native function. -/
def native (fuel : ℕ) : NativeFunction → List V → σ → NativeCode σ V (Return × σ)
  | .print => print isolate
  | .read => read isolate fuel
  | .load => load isolate fuel
  | .quit => quit isolate
  | .version => fun _ => version isolate

/-- The functions of the global object, as `CreateShellContext` sets them. -/
def globalTemplate : List (JsString × NativeFunction) :=
  [(js "print", .print), (js "read", .read), (js "load", .load), (js "quit", .quit),
    (js "version", .version)]

/-- What an isolate does until the activation on top has completed: up to the first call of a
native function, this call, and on with what it returns. -/
def bodyOf (native : F → List V → σ → NativeCode σ V (R × σ)) (s : σ) :
    NativeCode σ V (Completion V × σ) :=
  match isolate.next s with
  | .completes c s => pure (c, s)
  | .calls f args s => do
    let (r, s) ← native f args s
    .ask (isolate.resume r s)
  | .reports message s => do
    printf (message.bytes ++ utf8 "\n")
    .ask s

end

/-- An isolate with the functions of the shell. -/
abbrev ShellIsolate (σ V : Type) := Isolate NativeFunction Return σ V

/-- The code that runs in the shell. -/
def body (isolate : ShellIsolate σ V) (fuel : ℕ) : σ → NativeCode σ V (Completion V × σ) :=
  bodyOf isolate (native isolate fuel)

end NodeMini.Shell
