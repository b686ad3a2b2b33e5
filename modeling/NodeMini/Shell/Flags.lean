import NodeMini.Shell.Output

/-!
# V8's flags on the command line

Before the shell looks at its arguments, V8 takes its own flags out of them. A flag is an
argument that begins with `-` and whose name V8 knows; it may be negated, and its value is
behind a `=` or is the next argument. Arguments that V8 does not know are left for the shell.
A value that cannot be read ends the loop, and everything from there on is left.

Which flags there are, and what they do to V8, is a parameter.

## Main definitions

* `FlagList` — V8's flags
* `splitArgument`, `setFlags`, `setFlagsFromCommandLine` — as in `flags.cc`

## Main results

* `meets_setFlagsFromCommandLine` — only whole arguments are taken out, and what is written
* `setFlagsFromCommandLine_nil` — without arguments there is nothing to do
-/

namespace NodeMini.Shell

open Lib

variable {σ V : Type}

/-- The types of flags. -/
inductive FlagType
  | bool
  | maybeBool
  | int
  | uint
  | uint64
  | float
  | size_t
  | string
  deriving DecidableEq, Repr

/-- `Type2String`. -/
def FlagType.toBytes : FlagType → List UInt8
  | .bool => utf8 "bool"
  | .maybeBool => utf8 "maybe_bool"
  | .int => utf8 "int"
  | .uint => utf8 "uint"
  | .uint64 => utf8 "uint64"
  | .float => utf8 "float"
  | .size_t => utf8 "size_t"
  | .string => utf8 "string"

/-- A flag without a value. -/
def FlagType.isBool (type : FlagType) : Bool := type = .bool || type = .maybeBool

/-- The largest number of an unsigned type. -/
def FlagType.max? : FlagType → Option ℤ
  | .uint => some (2 ^ 32 - 1)
  | .uint64 => some (2 ^ 64 - 1)
  | .size_t => some (2 ^ 64 - 1)
  | _ => none

/-- V8's flags, by their names, with the state of V8 that they change. -/
structure FlagList (σ : Type) where
  flags : List (CString × FlagType)
  /-- Set a flag, by the text of its value, or negated; `none` if this contradicts an earlier
  setting and V8 gives up. -/
  set : CString → Option (List UInt8) → Bool → σ → Option σ
  /-- What `strtod` leaves of a text. -/
  strtod : List UInt8 → List UInt8
  /-- `FLAG_help`. -/
  help : σ → Bool
  /-- What `PrintHelp` writes. -/
  printHelp : σ → CString

/-! ## Numbers -/

/-- `isspace`. -/
def isSpace (b : UInt8) : Bool := b = 32 || (9 ≤ b && b ≤ 13)

/-- A decimal digit. -/
def isDigitByte (b : UInt8) : Bool := 48 ≤ b && b ≤ 57

/-- `strtoll(text, &end, 10)`: the number, without the bounds of its type, and what is left. -/
def strtoll (text : List UInt8) : ℤ × List UInt8 :=
  let start := text.dropWhile isSpace
  let (negative, digits) :=
    if start.head? = some 45 then (true, start.tail)
    else if start.head? = some 43 then (false, start.tail)
    else (false, start)
  let read := digits.takeWhile isDigitByte
  let n : ℤ := read.foldl (fun n b => 10 * n + (b.toNat - 48)) 0
  if read = [] then (0, text)
  else (if negative then -n else n, digits.dropWhile isDigitByte)

/-- `TryParseUnsigned` rejects the number. -/
def outOfBounds (type : FlagType) (text : List UInt8) : Bool :=
  match type.max? with
  | none => false
  | some max => (strtoll text).1 < 0 || max < (strtoll text).1 || 2 ^ 63 ≤ (strtoll text).1

/-! ## Arguments -/

/-- `'_'` and `'-'` are the same in a name. -/
def normalizeChar (b : UInt8) : UInt8 := if b = 95 then 45 else b

/-- The parts of an argument that may be a flag. -/
structure Split where
  name : List UInt8
  value : Option (List UInt8)
  negated : Bool
  deriving DecidableEq, Repr

/-- `SplitArgument`: `none` if the name does not fit its buffer, and no parts if the argument
does not begin with `-`. -/
def splitArgument (arg : CString) : Option (Option Split) :=
  match arg.bytes with
  | 45 :: rest =>
    let rest := if rest.head? = some 45 then rest.tail else rest
    let negated := rest.take 2 = utf8 "no"
    let rest := if negated then rest.drop 2 else rest
    let rest := if negated && (rest.head?.map normalizeChar = some 45) then rest.tail else rest
    let name := rest.takeWhile (· ≠ 61)
    match rest.dropWhile (· ≠ 61) with
    | [] => some (some ⟨name, none, negated⟩)
    | _ :: value => if name.length < 1024 then some (some ⟨name, some value, negated⟩) else none
  | _ => some none

/-- `FindFlagByName`. -/
def FlagList.find (flags : FlagList σ) (name : List UInt8) : Option (CString × FlagType) :=
  flags.flags.find? fun flag => flag.1.bytes.map normalizeChar = name.map normalizeChar

/-- How the setting of a flag has gone. -/
inductive Setting
  | accepted
  /-- There is an error, but the loop goes on. -/
  | rejected
  /-- There is an error that ends the loop. -/
  | illegal
  deriving DecidableEq, Repr

/-- The message about a number that is too large. -/
def outOfBoundsMessage (arg : CString) (type : FlagType) : List UInt8 :=
  utf8 "Error: Value for flag " ++ arg.bytes ++ utf8 " of type " ++ type.toBytes ++
    utf8 " is out of bounds [0-" ++ formatInt (type.max?.getD 0) ++ utf8 "]\n"

/-- The message about a value that cannot be read, or is not expected. -/
def illegalValueMessage (arg : CString) (type : FlagType) : List UInt8 :=
  utf8 "Error: illegal value for flag " ++ arg.bytes ++ utf8 " of type " ++ type.toBytes ++
    utf8 "\n" ++
    if type.isBool then utf8 "To set or unset a boolean flag, use --flag or --no-flag.\n" else []

/-- The message about a value that is not there. -/
def missingValueMessage (arg : CString) (type : FlagType) : List UInt8 :=
  utf8 "Error: missing value for flag " ++ arg.bytes ++ utf8 " of type " ++ type.toBytes ++
    utf8 "\n"

section

variable (flags : FlagList σ)

/-- What has not been read of a value. -/
def FlagList.unread (type : FlagType) (text : List UInt8) : List UInt8 :=
  match type with
  | .bool | .maybeBool | .string => []
  | .float => flags.strtod text
  | .int | .uint | .uint64 | .size_t => (strtoll text).2

/-- Give a flag its value, if it is a number in bounds or no number. -/
def assignFlag (arg : CString) (flag : CString × FlagType) (value : Option (List UInt8))
    (negated : Bool) (s : σ) : NativeCode σ V (Setting × σ) :=
  if outOfBounds flag.2 (value.getD []) then do
    fprintf (outOfBoundsMessage arg flag.2)
    pure (.rejected, s)
  else
    match flags.set flag.1 value negated s with
    | none => .fail .aborted
    | some s => pure (.accepted, s)

/-- Set one flag: the part of the loop behind the lookup. -/
def setFlag (arg : CString) (flag : CString × FlagType) (value : Option (List UInt8))
    (negated : Bool) (s : σ) : NativeCode σ V (Setting × σ) := do
  let (setting, s) ← assignFlag flags arg flag value negated s
  if (flag.2.isBool && value.isSome) || (!flag.2.isBool && negated) ||
      flags.unread flag.2 (value.getD []) ≠ [] then do
    fprintf (illegalValueMessage arg flag.2)
    pure (.illegal, s)
  else pure (setting, s)

/-- The loop of `FlagList::SetFlagsFromCommandLine`: the arguments that are left, and whether
there has been an error. -/
def setFlags : List CString → σ → NativeCode σ V (List CString × Bool × σ)
  | [], s => pure ([], false, s)
  | arg :: rest, s =>
    match splitArgument arg with
    | none => .fail .aborted
    | some none => do
      let (left, failed, s) ← setFlags rest s
      pure (arg :: left, failed, s)
    | some (some split) =>
      match flags.find split.name with
      | none => do
        let (left, failed, s) ← setFlags rest s
        pure (arg :: left, failed, s)
      | some flag =>
        match !flag.2.isBool && split.value.isNone, rest with
        -- the value is the next argument
        | true, text :: rest => do
          let (setting, s) ← setFlag flags arg flag (some text.bytes) split.negated s
          if setting = .illegal then pure (arg :: text :: rest, true, s)
          else do
            let (left, failed, s) ← setFlags rest s
            pure (left, failed || setting = .rejected, s)
        | true, [] => do
          fprintf (missingValueMessage arg flag.2)
          pure ([arg], true, s)
        | false, rest => do
          let (setting, s) ← setFlag flags arg flag split.value split.negated s
          if setting = .illegal then pure (arg :: rest, true, s)
          else do
            let (left, failed, s) ← setFlags rest s
            pure (left, failed || setting = .rejected, s)

/-- The help, if it has been asked for. -/
def writeHelp (s : σ) : NativeCode σ V Unit :=
  if flags.help s then printf (flags.printHelp s).bytes else pure ()

/-- The line after an error. -/
def writeHint (failed : Bool) : NativeCode σ V Unit :=
  if failed then fprintf (utf8 "Try --help for options\n") else pure ()

/-- `V8::SetFlagsFromCommandLine(&argc, argv, true)`, on the arguments behind the program. -/
def setFlagsFromCommandLine (args : List CString) (s : σ) :
    NativeCode σ V (List CString × σ) := do
  let (left, failed, s) ← setFlags flags args s
  writeHelp flags s
  writeHint failed
  pure (left, s)

end

/-! ## What is left, and what is written -/

section Flags

variable {flags : FlagList σ} {o : σ → Except (Stop Exit) (Completion V × σ)}
  {sub : σ → List Output} {P : Output → Prop} {args : List CString} {s : σ}

/-- The messages consist of C strings and numbers. -/
theorem zero_notMem_messages (arg : CString) (type : FlagType) :
    (0 : UInt8) ∉ outOfBoundsMessage arg type ∧ (0 : UInt8) ∉ illegalValueMessage arg type ∧
      (0 : UInt8) ∉ missingValueMessage arg type := by
  have htype : (0 : UInt8) ∉ type.toBytes := by cases type <;> decide
  have hhint : (0 : UInt8) ∉ (if type.isBool then
      utf8 "To set or unset a boolean flag, use --flag or --no-flag.\n" else []) := by
    split_ifs <;> decide
  have harg : ∀ literal : List UInt8, (0 : UInt8) ∉ literal →
      (0 : UInt8) ∉ literal ++ arg.bytes ++ utf8 " of type " ++ type.toBytes := by
    intro literal hliteral
    simp only [List.mem_append, not_or]
    exact ⟨⟨⟨hliteral, arg.nonzero⟩, by decide⟩, htype⟩
  refine ⟨?_, ?_, ?_⟩
  · rw [outOfBoundsMessage]
    simp only [List.mem_append, not_or] at harg ⊢
    exact ⟨⟨⟨harg _ (by decide), by decide⟩, zero_notMem_formatInt _⟩, by decide⟩
  · rw [illegalValueMessage]
    simp only [List.mem_append, not_or] at harg ⊢
    exact ⟨⟨harg _ (by decide), by decide⟩, hhint⟩
  · rw [missingValueMessage]
    simp only [List.mem_append, not_or] at harg ⊢
    exact ⟨harg _ (by decide), by decide⟩

theorem keeps_setFlag (hstderr : ∀ bytes, (0 : UInt8) ∉ bytes → P (.stderr bytes)) (arg : CString)
    (flag : CString × FlagType) (value : Option (List UInt8)) (negated : Bool) (s : σ) :
    (setFlag flags arg flag value negated s : NativeCode σ V _).Keeps o sub P := by
  obtain ⟨hbounds, hillegal, -⟩ := zero_notMem_messages arg flag.2
  have hassign : (assignFlag flags arg flag value negated s :
      NativeCode σ V (Setting × σ)).Keeps o sub P := by
    unfold assignFlag
    split_ifs
    · exact Proc.keeps_bind (Proc.keeps_tell (hstderr _ hbounds)) fun _ => Proc.keeps_pure _
    · cases flags.set flag.1 value negated s with
      | none => exact Proc.keeps_fail _
      | some s => exact Proc.keeps_pure _
  refine Proc.keeps_bind hassign fun ⟨setting, s⟩ => ?_
  dsimp only
  split_ifs
  · exact Proc.keeps_bind (Proc.keeps_tell (hstderr _ hillegal)) fun _ => Proc.keeps_pure _
  · exact Proc.keeps_pure _

/-- Some of the arguments are left, in order. -/
def Leaves (P : Output → Prop) (args : List CString)
    (outcome : Except (Stop Exit) (List CString × Bool × σ)) (events : List Output) : Prop :=
  (∀ n ∈ events, P n) ∧
    ∀ left failed s', outcome = .ok (left, failed, s') → left.Sublist args

/-- An argument that is left, with what is left of the others. -/
theorem meets_leave {arg : CString} {p : NativeCode σ V (List CString × Bool × σ)}
    (h : p.Meets o sub (Leaves P args)) :
    (p >>= fun (left, failed, s) => pure (arg :: left, failed, s)).Meets o sub
      (Leaves P (arg :: args)) := by
  refine Proc.meets_bind h (fun _ _ ht => ⟨ht.1, nofun⟩) fun ⟨left, failed, s⟩ t ht => ?_
  refine ⟨by simpa using ht.1, ?_⟩
  rintro _ _ _ ⟨⟩
  exact (ht.2 left failed s rfl).cons_cons arg

/-- A flag that is set, and what is left of the arguments behind it. -/
theorem meets_setFlag_bind (hstderr : ∀ bytes, (0 : UInt8) ∉ bytes → P (.stderr bytes))
    {rest : List CString} (hrest : rest.Sublist args)
    (h : ∀ s, (setFlags flags rest s : NativeCode σ V _).Meets o sub (Leaves P rest))
    (arg : CString) (flag : CString × FlagType) (value : Option (List UInt8)) (negated : Bool)
    (s : σ) :
    ((setFlag flags arg flag value negated s >>= fun (setting, s) =>
      if setting = .illegal then pure (args, true, s)
      else do
        let (left, failed, s) ← setFlags flags rest s
        pure (left, failed || setting = .rejected, s)) : NativeCode σ V _).Meets o sub
      (Leaves P args) := by
  refine Proc.meets_bind (keeps_setFlag hstderr arg flag value negated s)
    (fun _ _ ht => ⟨ht, nofun⟩) fun ⟨setting, s⟩ t ht => ?_
  dsimp only
  split_ifs
  · refine ⟨by simpa using ht, ?_⟩
    rintro _ _ _ ⟨⟩
    exact List.Sublist.refl args
  · refine Proc.meets_bind (h s) (fun _ _ hu => ⟨List.forall_mem_append.mpr ⟨ht, hu.1⟩, nofun⟩)
      fun ⟨left, failed, s⟩ u hu => ⟨?_, ?_⟩
    · simpa using List.forall_mem_append.mpr ⟨ht, hu.1⟩
    · rintro _ _ _ ⟨⟩
      exact (hu.2 left failed s rfl).trans hrest

/-- Only whole arguments are taken out, and the others stay in order. -/
theorem meets_setFlags (hstderr : ∀ bytes, (0 : UInt8) ∉ bytes → P (.stderr bytes))
    (args : List CString) (s : σ) :
    (setFlags flags args s : NativeCode σ V _).Meets o sub (Leaves P args) := by
  fun_induction setFlags (V := V) flags args s with
  | case1 s =>
    refine ⟨nofun, ?_⟩
    rintro _ _ _ ⟨⟩
    exact List.Sublist.slnil
  | case2 arg rest s hsplit => exact ⟨nofun, nofun⟩
  | case3 arg rest s hsplit ih => exact meets_leave ih
  | case4 arg rest s split hsplit hfind ih => exact meets_leave ih
  | case5 arg s split hsplit flag hfind text rest hvalue ih =>
    exact meets_setFlag_bind hstderr ((List.sublist_cons_self _ _).trans
      (List.sublist_cons_self _ _)) ih arg flag _ _ s
  | case6 arg s split hsplit flag hfind hvalue =>
    refine Proc.meets_bind (Proc.keeps_tell (hstderr _ (zero_notMem_messages arg flag.2).2.2))
      (fun _ _ ht => ⟨ht, nofun⟩) fun _ t ht => ⟨by simpa using ht, ?_⟩
    rintro _ _ _ ⟨⟩
    exact List.Sublist.refl _
  | case7 arg s split hsplit flag hfind rest hvalue ih =>
    exact meets_setFlag_bind hstderr (List.sublist_cons_self _ _) ih arg flag _ _ s

/-- The same of the whole function, which writes nothing else but the help. -/
theorem meets_setFlagsFromCommandLine (hstdout : ∀ bytes, (0 : UInt8) ∉ bytes → P (.stdout bytes))
    (hstderr : ∀ bytes, (0 : UInt8) ∉ bytes → P (.stderr bytes)) (args : List CString) (s : σ) :
    (setFlagsFromCommandLine flags args s : NativeCode σ V _).Meets o sub fun r t =>
      (∀ n ∈ t, P n) ∧ ∀ left s', r = .ok (left, s') → left.Sublist args := by
  refine Proc.meets_bind (meets_setFlags hstderr args s) (fun _ _ ht => ⟨ht.1, nofun⟩)
    fun ⟨left, failed, s⟩ t ht => ?_
  have hhelp : (writeHelp flags s : NativeCode σ V Unit).Keeps o sub P := by
    unfold writeHelp
    split_ifs
    · exact Proc.keeps_tell (hstdout _ (flags.printHelp s).nonzero)
    · exact Proc.keeps_pure _
  have hhint : (writeHint failed : NativeCode σ V Unit).Keeps o sub P := by
    unfold writeHint
    split_ifs
    · exact Proc.keeps_tell (hstderr _ (by decide))
    · exact Proc.keeps_pure _
  refine Proc.meets_bind hhelp (fun _ u hu => ⟨List.forall_mem_append.mpr ⟨ht.1, hu⟩, nofun⟩)
    fun _ u hu => ?_
  refine Proc.meets_bind hhint (fun _ v hv => ⟨?_, nofun⟩) fun _ v hv => ⟨?_, ?_⟩
  · exact List.forall_mem_append.mpr ⟨ht.1, List.forall_mem_append.mpr ⟨hu, hv⟩⟩
  · rw [Proc.noted_pure, List.append_nil]
    exact List.forall_mem_append.mpr ⟨ht.1, List.forall_mem_append.mpr ⟨hu, hv⟩⟩
  · rintro _ _ ⟨⟩
    exact ht.2 left failed s rfl

/-- V8 with a single flag. -/
def exampleFlags : FlagList Unit where
  flags := [(CString.ofBuffer (utf8 "use-strict"), .bool)]
  set _ _ _ s := some s
  strtod := id
  help _ := false
  printHelp _ := CString.ofBuffer []

-- the flag is taken out, so that the shell sees no argument
example : (setFlagsFromCommandLine exampleFlags [CString.ofBuffer (utf8 "--use_strict")] () :
    NativeCode Unit Unit _).run (fun _ => .error .running) = .ok ([], ()) := rfl

end Flags

end NodeMini.Shell
