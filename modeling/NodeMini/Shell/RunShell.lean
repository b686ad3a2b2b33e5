import NodeMini.Lib.Stdio
import NodeMini.Native.JsString

/-!
# The shell: `RunShell`

The shell reads its input with `fgets` into a buffer of 256 bytes, makes a string of the
zero-terminated buffer and passes it to `ExecuteString`, until `fgets` returns `NULL`.

V8's decoder is a parameter; all that is used of it is that it reads valid UTF-8. A call
of `ExecuteString` may fail to return, when the source ends the process with `quit` or
runs for ever; whether it returns is a parameter too, given by the sources so far.

## Main definitions

* `runShell` — the loop
* `ShellLaw` — the shell executes the lines of its input, one by one

## Main results

* `runShell_ended_iff` — what a run that has ended passed to `ExecuteString`
* `shellLaw_iff` — the law holds exactly if every line fits the buffer, contains no zero
  character, and returns
-/

namespace NodeMini

open Lib

/-- `kBufferSize`. -/
def kBufferSize : ℕ := 256

/-- How the loop stands after a number of iterations. -/
inductive ShellExit
  | running
  /-- `ExecuteString` has not returned. -/
  | stopped
  /-- `fgets` has returned `NULL`. -/
  | ended
  deriving DecidableEq, Repr

section

variable (decode : List UInt8 → JsString) (execute : List JsString → Bool)

/-- `String::NewFromUtf8` without a length, on the buffer that `fgets` has filled. -/
def newFromBuffer (buffer : List UInt8) : JsString :=
  decode (CString.ofBuffer (buffer ++ [0])).bytes

/-- The loop of `RunShell`, for at most `fuel` iterations, with the sources passed to
`ExecuteString` so far and the rest of the input. -/
def runShell : ℕ → List JsString → List UInt8 → ShellExit × List JsString × List UInt8
  | 0, sources, stdin => (.running, sources, stdin)
  | fuel + 1, sources, stdin =>
    match fgets kBufferSize stdin with
    | none => (.ended, sources, stdin)
    | some (str, stdin) =>
      let sources := sources ++ [newFromBuffer decode str]
      if execute sources then runShell fuel sources stdin else (.stopped, sources, stdin)

/-- The lines of a text, each with its newline. -/
def lines (text : List Char) : List (List Char) := linesOf '\n' text

/-- The shell executes the lines of its input, each whole and in order, and ends at the end
of the input. -/
def ShellLaw (text : List Char) : Prop :=
  ∃ fuel, runShell decode execute fuel [] (Utf8.encodeText text) =
    (.ended, (lines text).map Utf8.textUnits, [])

end

/-! ## Lines of text and of bytes -/

theorem newline_mem_encodeText_iff {text : List Char} :
    (0x0a : UInt8) ∈ Utf8.encodeText text ↔ '\n' ∈ text :=
  Utf8.ofNat_mem_encodeText_iff (c := '\n') (by decide)

theorem zero_mem_encodeText_iff {text : List Char} :
    (0 : UInt8) ∈ Utf8.encodeText text ↔ '\x00' ∈ text :=
  Utf8.ofNat_mem_encodeText_iff (c := '\x00') (by decide)

theorem prependLine_map_encodeText (c : Char) (ls : List (List Char)) :
    prependLine (Utf8.encodeText [c]) (ls.map Utf8.encodeText) =
      (prependLine [c] ls).map Utf8.encodeText := by
  cases ls <;> simp [prependLine, Utf8.encodeText]

/-- The lines of the bytes are the bytes of the lines. -/
theorem linesOf_encodeText (text : List Char) :
    linesOf 0x0a (Utf8.encodeText text) = (lines text).map Utf8.encodeText := by
  induction text with
  | nil => rfl
  | cons c text ih =>
    have hcons : Utf8.encodeText (c :: text) = Utf8.encodeText [c] ++ Utf8.encodeText text := by
      simp [Utf8.encodeText]
    rw [hcons, lines]
    by_cases hc : c = '\n'
    · subst hc
      rw [linesOf_cons_self, List.map_cons, ← lines, ← ih]
      exact linesOf_cons_self
    · -- no byte of another character is a newline
      have hnl : (0x0a : UInt8) ∉ Utf8.encodeText [c] := by
        rw [newline_mem_encodeText_iff]
        simpa using Ne.symm hc
      have hne : Utf8.encodeText [c] ≠ [] := by
        simpa [Utf8.encodeText] using Utf8.encodeCodePoint_ne_nil c.toNat
      rw [linesOf_append hnl hne, ih, prependLine_map_encodeText, linesOf_cons_of_ne hc, ← lines]

/-! ## The loop -/

section Loop

variable {decode : List UInt8 → JsString} {execute : List JsString → Bool} {fuel : ℕ}
  {sources out : List JsString} {input rest : List UInt8} {buffers : List (List UInt8)}

/-- While every source returns, the loop passes on what each buffer holds, and ends. -/
theorem runShell_of_reads (h : Reads kBufferSize input buffers)
    (hexecute : ∀ pre, pre ≠ [] → pre <+: buffers.map (newFromBuffer decode) →
      execute (sources ++ pre) = true) :
    runShell decode execute (buffers.length + 1) sources input =
      (.ended, sources ++ buffers.map (newFromBuffer decode), []) := by
  induction h generalizing sources with
  | nil hend =>
    rw [fgets_eq_none_iff.mp hend, List.map_nil, List.append_nil]
    rfl
  | cons hcall _ ih =>
    rw [List.length_cons, runShell, hcall]
    dsimp only
    -- the first source returns, and the others after it
    have hfirst := hexecute [newFromBuffer decode _] (List.cons_ne_nil _ _)
      (List.prefix_cons_iff.mpr (Or.inr ⟨[], rfl, List.nil_prefix⟩))
    rw [if_pos hfirst, ih]
    · rw [List.map_cons, List.append_assoc, List.singleton_append]
    · intro pre _ hprefix
      rw [List.append_assoc]
      exact hexecute _ (List.append_ne_nil_of_left_ne_nil (List.cons_ne_nil _ _) _)
        (List.prefix_cons_iff.mpr (Or.inr ⟨pre, rfl, hprefix⟩))

/-- What a loop that has ended has done. -/
theorem reads_of_runShell (h : runShell decode execute fuel sources input = (.ended, out, rest)) :
    ∃ buffers, Reads kBufferSize input buffers ∧ rest = [] ∧
      out = sources ++ buffers.map (newFromBuffer decode) ∧
      ∀ pre, pre ≠ [] → pre <+: buffers.map (newFromBuffer decode) →
        execute (sources ++ pre) = true := by
  induction fuel generalizing sources input with
  | zero => simp [runShell] at h
  | succ fuel ih =>
    rw [runShell] at h
    cases hcall : fgets kBufferSize input with
    | none =>
      rw [hcall] at h
      obtain ⟨rfl, rfl⟩ : sources = out ∧ input = rest := by simpa using h
      refine ⟨[], .nil hcall, fgets_eq_none_iff.mp hcall, by simp, ?_⟩
      intro pre hne hprefix
      exact absurd (List.prefix_nil.mp hprefix) hne
    | some call =>
      obtain ⟨buffer, after⟩ := call
      rw [hcall] at h
      dsimp only at h
      by_cases hexecute : execute (sources ++ [newFromBuffer decode buffer])
      · rw [if_pos hexecute] at h
        obtain ⟨buffers, hreads, hrest, hout, hprefixes⟩ := ih h
        refine ⟨buffer :: buffers, .cons hcall hreads, hrest, by simp [hout], ?_⟩
        intro pre hne hprefix
        -- a prefix is the first source, alone or with a prefix of the others
        rcases List.prefix_cons_iff.mp hprefix with rfl | ⟨pre, rfl, htail⟩
        · exact absurd rfl hne
        · by_cases hempty : pre = []
          · rw [hempty]
            exact hexecute
          · have := hprefixes pre hempty htail
            rwa [List.append_assoc] at this
      · rw [if_neg hexecute] at h
        simp at h

end Loop

/-! ## The law -/

/-- A line that reaches `ExecuteString` whole: it fits the buffer, and the buffer's first
zero byte is its terminator. -/
def Fits (line : List Char) : Prop :=
  (Utf8.encodeText line).length ≤ kBufferSize - 1 ∧ '\x00' ∉ line

section Law

variable {decode : List UInt8 → JsString} {execute : List JsString → Bool} {text : List Char}

/-- A buffer's string is the line's exactly if there is no zero character in it. -/
theorem newFromBuffer_encodeText_iff
    (hdecode : ∀ text, decode (Utf8.encodeText text) = Utf8.textUnits text) (line : List Char) :
    newFromBuffer decode (Utf8.encodeText line) = Utf8.textUnits line ↔ '\x00' ∉ line := by
  have hread : ∀ text : List Char, '\x00' ∉ text →
      decode (CString.ofBuffer (Utf8.encodeText text)).bytes = Utf8.textUnits text := by
    intro text hzero
    rw [CString.ofBuffer_bytes_of_nonzero (mt zero_mem_encodeText_iff.mp hzero), hdecode]
  rw [newFromBuffer, CString.ofBuffer_append_zero]
  constructor
  · intro hwhole hzero
    -- the string ends before the first zero character, so it is shorter
    obtain ⟨a, b, rfl, ha⟩ := List.eq_append_cons_of_mem hzero
    have hcut :
        Utf8.encodeText (a ++ '\x00' :: b) = Utf8.encodeText a ++ 0 :: Utf8.encodeText b := by
      simp [Utf8.encodeText, Utf8.encodeCodePoint]
    rw [hcut, CString.ofBuffer_append_zero, hread a ha] at hwhole
    have hlength := congrArg List.length hwhole
    simp [Utf8.textUnits, Utf8.codeUnits] at hlength
  · exact hread line

/-- The input is read line by line if every line fits, and not otherwise. -/
theorem map_newFromBuffer_eq_iff
    (hdecode : ∀ text, decode (Utf8.encodeText text) = Utf8.textUnits text)
    {buffers : List (List UInt8)} (h : Reads kBufferSize (Utf8.encodeText text) buffers) :
    buffers.map (newFromBuffer decode) = (lines text).map Utf8.textUnits ↔
      ∀ line ∈ lines text, Fits line := by
  have hlines := linesOf_encodeText text
  constructor
  · intro hmap
    -- as many buffers as lines, so no line takes two
    have hlength : buffers.length = (linesOf 0x0a (Utf8.encodeText text)).length := by
      rw [hlines, List.length_map]
      simpa using congrArg List.length hmap
    have hfits := h.fits_of_length_eq hlength
    have hbuffers := (h.eq_lines hfits).trans hlines
    rw [hlines] at hfits
    intro line hline
    refine ⟨hfits _ (List.mem_map_of_mem hline), ?_⟩
    rw [hbuffers, List.map_map] at hmap
    exact (newFromBuffer_encodeText_iff hdecode line).mp (List.map_inj_left.mp hmap line hline)
  · intro hfits
    have hbuffers : buffers = (lines text).map Utf8.encodeText := by
      rw [h.eq_lines, hlines]
      rw [hlines]
      intro line hline
      obtain ⟨l, hl, rfl⟩ := List.mem_map.mp hline
      exact (hfits l hl).1
    rw [hbuffers, List.map_map]
    exact List.map_inj_left.mpr fun line hline =>
      (newFromBuffer_encodeText_iff hdecode line).mpr (hfits line hline).2

/-- What the law asks of the lines and of `ExecuteString`. -/
theorem ShellLaw.fits_and_returns
    (hdecode : ∀ text, decode (Utf8.encodeText text) = Utf8.textUnits text)
    (hlaw : ShellLaw decode execute text) :
    (∀ line ∈ lines text, Fits line) ∧
      ∀ pre, pre ≠ [] → pre <+: (lines text).map Utf8.textUnits → execute pre = true := by
  obtain ⟨fuel, hrun⟩ := hlaw
  obtain ⟨buffers, hreads, -, hout, hexecute⟩ := reads_of_runShell hrun
  rw [List.nil_append] at hout
  refine ⟨(map_newFromBuffer_eq_iff hdecode hreads).mp hout.symm, ?_⟩
  rw [hout]
  exact hexecute

/-- **The shell evaluates line by line**, and exactly when it does. With a decoder that
reads valid UTF-8, the law holds of a text if and only if every line of it is at most 255
bytes long and contains no zero character, and `ExecuteString` returns for each. -/
theorem shellLaw_iff (decode : List UInt8 → JsString)
    (hdecode : ∀ text, decode (Utf8.encodeText text) = Utf8.textUnits text)
    (execute : List JsString → Bool) (text : List Char) :
    ShellLaw decode execute text ↔
      (∀ line ∈ lines text, Fits line) ∧
      ∀ pre, pre ≠ [] → pre <+: (lines text).map Utf8.textUnits → execute pre = true := by
  constructor
  · exact ShellLaw.fits_and_returns hdecode
  · rintro ⟨hfits, hexecute⟩
    obtain ⟨buffers, hreads⟩ := exists_reads (n := kBufferSize) (by decide) (Utf8.encodeText text)
    have hsources := (map_newFromBuffer_eq_iff hdecode hreads).mpr hfits
    refine ⟨buffers.length + 1, ?_⟩
    rw [← hsources] at hexecute ⊢
    exact runShell_of_reads hreads hexecute

/-- A decoder of valid UTF-8, with one replacement character for anything else. -/
def decodeOrReplace (bytes : List UInt8) : JsString :=
  ((Utf8.decodeText bytes).map Utf8.textUnits).getD [0xfffd]

theorem decodeOrReplace_encodeText (text : List Char) :
    decodeOrReplace (Utf8.encodeText text) = Utf8.textUnits text := by
  rw [decodeOrReplace, Utf8.decodeText_encodeText]
  rfl

/-- A text of one line of letters. -/
def lettersLine (n : ℕ) : List Char := List.replicate n 'a' ++ ['\n']

theorem lines_lettersLine (n : ℕ) : lines (lettersLine n) = [lettersLine n] := by
  by_cases hn : n = 0
  · subst hn
    rfl
  · have hnl : '\n' ∉ List.replicate n 'a' := fun h => by simpa using List.eq_of_mem_replicate h
    have hne : List.replicate n 'a' ≠ [] := by simpa using hn
    rw [lettersLine, lines, linesOf_append hnl hne]
    rfl

theorem length_encodeText_lettersLine (n : ℕ) :
    (Utf8.encodeText (lettersLine n)).length = n + 1 := by
  induction n with
  | zero => rfl
  | succ n ih =>
    have hcons : lettersLine (n + 1) = 'a' :: lettersLine n := rfl
    have hletter :
        Utf8.encodeText (lettersLine (n + 1)) = 0x61 :: Utf8.encodeText (lettersLine n) := by
      rw [hcons]
      rfl
    rw [hletter, List.length_cons, ih]

/-- A line of 256 bytes or more is passed on in pieces. -/
theorem not_shellLaw_of_long {n : ℕ} (hn : 255 ≤ n) :
    ¬ ShellLaw decodeOrReplace (fun _ => true) (lettersLine n) := by
  intro hlaw
  have hfits := (hlaw.fits_and_returns decodeOrReplace_encodeText).1 (lettersLine n)
    (lines_lettersLine n ▸ List.mem_singleton_self _)
  have hlength := hfits.1
  rw [length_encodeText_lettersLine] at hlength
  exact absurd (Nat.le_trans (Nat.succ_le_succ hn) hlength) (by decide)

/-- A line is cut at a zero character, and a line of 256 bytes is passed on in pieces, even
when every source returns. -/
theorem not_shellLaw :
    runShell decodeOrReplace (fun _ => true) 2 [] (Utf8.encodeText ['a', '\x00', 'b', '\n']) =
      (.ended, [js "a"], []) ∧
    ¬ ShellLaw decodeOrReplace (fun _ => true) ['a', '\x00', 'b', '\n'] ∧
    ¬ ShellLaw decodeOrReplace (fun _ => true) (lettersLine 255) := by
  refine ⟨by decide, ?_, not_shellLaw_of_long (Nat.le_refl 255)⟩
  intro hlaw
  have hfits := (hlaw.fits_and_returns decodeOrReplace_encodeText).1
    ['a', '\x00', 'b', '\n'] (by decide)
  exact absurd hfits.2 (by decide)

theorem shellLaw_two_lines :
    ShellLaw decodeOrReplace (fun _ => true) "1\nπ".toList :=
  (shellLaw_iff _ decodeOrReplace_encodeText _ _).mpr
    ⟨by unfold Fits; decide, fun _ _ _ => rfl⟩

end Law

end NodeMini
