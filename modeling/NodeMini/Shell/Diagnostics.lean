import NodeMini.Shell.Output
import NodeMini.Strings.PositionInfo

/-!
# What a report shows

`ReportException` writes the source line of a message, and under it a caret for each column of
the range that the message is about. Which line this is, and which columns, V8 finds from the
positions in the script. So the carets stand under the characters of the range, as long as the
range lies in one line, and a character takes one byte.

## Main definitions

* `messageOf` — the message of a message object
* `Diagnosed` — what a report shows of a range of a script

## Main results

* `executeString_diagnosed` — `ExecuteString` shows the line and the range of an error
-/

namespace NodeMini.Shell

open Lib Strings

variable {σ V : Type}

/-- The `v8::Message` of a message object, with what its functions return. -/
def messageOf (resourceName : V) (m : JSMessageObject) : Option (Message V) := do
  let lineNumber ← m.getLineNumber
  let sourceLine ← m.getSourceLine
  let startColumn ← m.getColumnNumber
  let endColumn ← m.getEndColumn
  pure {
    resourceName := resourceName
    lineNumber := lineNumber
    sourceLine := sourceLine
    startColumn := startColumn
    endColumn := endColumn }

/-- The message object for a range of a script that the shell has compiled: the origins of its
scripts have no offsets. -/
def messageObject (source : JsString) (start stop : ℕ) : JSMessageObject :=
  ⟨Script.new source 0 0, start, stop⟩

/-- The carets under a source line stand under a range of it: there are as many spaces as bytes in
front of the range, and as many carets as bytes in it. -/
def Underlined (content range : JsString) (spaces carets : ℕ) : Prop :=
  ∃ left right, (utf8Value content).bytes = left ++ range.map UInt16.toUInt8 ++ right ∧
    left.length = spaces ∧ (range.map UInt16.toUInt8).length = carets

/-- What a report shows of the positions from `start` to `stop` of a source. -/
structure Diagnosed (source : JsString) (start stop : ℕ) (r : Report) : Prop where
  /-- The number of the line, counted from one, the line without its terminator, and the columns
  in it. -/
  inside : start ≤ source.length → ∀ ls, Lined source ls → ∃ before l after,
    ls = before ++ l :: after ∧ l.Holds before start ∧
    (∃ filename stackTrace, r.details = some {
      filename := filename
      lineNumber := before.length + 1
      sourceLine := utf8Value l.content
      startColumn := start - extent before
      endColumn := start - extent before + (stop - start)
      stackTrace := stackTrace }) ∧
    -- a range in the line is underlined
    (start ≤ stop → stop ≤ extent before + l.content.length →
      (∀ u ∈ l.content, 0 < u.toNat ∧ u.toNat < 0x80) →
      Underlined l.content ((source.drop start).take (stop - start)) (start - extent before)
        (stop - start))
  /-- Behind the end of the source there is nothing to show. -/
  behind : source.length < start → ∃ filename stackTrace, r.details = some {
    filename := filename
    lineNumber := 0
    sourceLine := utf8Value []
    startColumn := -1
    endColumn := -1
    stackTrace := stackTrace }

section

variable {isolate : ShellIsolate σ V} {exception resourceName : V} {source content : JsString}
  {start stop : ℕ} {r : Report}

/-- A code unit of ASCII is a byte. -/
theorem encodeUnits_ascii (h : ∀ u ∈ content, 0 < u.toNat ∧ u.toNat < 0x80) :
    Utf8.encodeUnits content = content.map UInt16.toUInt8 := by
  induction content with
  | nil => rfl
  | cons u content ih =>
    obtain ⟨hu, hcontent⟩ := List.forall_mem_cons.mp h
    have hlead : Utf8.isLead u = false := by
      simp only [Utf8.isLead, Bool.and_eq_false_iff, decide_eq_false_iff_not]
      omega
    have hpoints : Utf8.codePoints (u :: content) = u.toNat :: Utf8.codePoints content :=
      Utf8.codePoints_cons_of_not_pair fun v _ => by rw [hlead]; exact Bool.false_ne_true
    rw [Utf8.encodeUnits, hpoints, List.flatMap_cons, Utf8.encodeCodePoint_ascii hu.2,
      ← Utf8.encodeUnits, ih hcontent]
    rfl

/-- A range of a line, with the bytes in front of it and behind it. -/
theorem underlined {before after : List Line} {l : Line}
    (hsource : source = before.flatMap Line.units ++ (l.units ++ after.flatMap Line.units))
    (hstart : extent before ≤ start) (hle : start ≤ stop)
    (hstop : stop ≤ extent before + l.content.length)
    (hascii : ∀ u ∈ l.content, 0 < u.toNat ∧ u.toNat < 0x80) :
    Underlined l.content ((source.drop start).take (stop - start)) (start - extent before)
      (stop - start) := by
  -- the range of the source is a range of the content
  have hrange : (source.drop start).take (stop - start) =
      (l.content.drop (start - extent before)).take (stop - start) := by
    have hdrop : source.drop start =
        l.content.drop (start - extent before) ++
          ((l.terminator.map Terminator.units).getD [] ++ after.flatMap Line.units) := by
      rw [hsource, List.drop_append, List.drop_eq_nil_of_le hstart, List.nil_append, Line.units,
        List.append_assoc]
      exact List.drop_append_of_le_length (by change start - extent before ≤ _; omega)
    rw [hdrop, List.take_append_of_le_length]
    rw [List.length_drop]
    omega
  have hzero : (0 : UInt16) ∉ l.content := fun hmem => absurd (hascii 0 hmem).1 (by decide)
  have hsplit : l.content = l.content.take (start - extent before) ++
      (l.content.drop (start - extent before)).take (stop - start) ++
      (l.content.drop (start - extent before)).drop (stop - start) := by
    rw [List.append_assoc, List.take_append_drop, List.take_append_drop]
  refine ⟨(l.content.take (start - extent before)).map UInt16.toUInt8,
    ((l.content.drop (start - extent before)).drop (stop - start)).map UInt16.toUInt8, ?_, ?_, ?_⟩
  · rw [utf8Value_bytes hzero, encodeUnits_ascii hascii, hrange, ← List.map_append,
      ← List.map_append, ← hsplit]
  · rw [List.length_map, List.length_take]
    omega
  · rw [hrange, List.length_map, List.length_take, List.length_drop]
    omega

theorem exists_messageOf (resourceName : V) (source : JsString) (start stop : ℕ) :
    ∃ m, messageOf resourceName (messageObject source start stop) = some m := by
  by_cases hstart : start ≤ source.length
  · obtain ⟨ls, hls⟩ := exists_lined source
    obtain ⟨before, l, after, -, -, hnumber, hline, column, -, hstartColumn, hendColumn⟩ :=
      message_inside (m := messageObject source start stop) (Int.natCast_nonneg start)
        (Int.ofNat_le.mpr hstart) hls
    exact ⟨_, by rw [messageOf, hnumber, hline, hstartColumn, hendColumn]; rfl⟩
  · obtain ⟨hnumber, hstartColumn, hendColumn, hline⟩ :=
      message_behind (m := messageObject source start stop)
        (Int.ofNat_lt.mpr (Nat.not_le.mp hstart))
    exact ⟨_, by rw [messageOf, hnumber, hline, hstartColumn, hendColumn]; rfl⟩

/-- The report about a message of a range. -/
theorem diagnosed {m : Message V}
    (hm : messageOf resourceName (messageObject source start stop) = some m)
    (h : Report.Describes isolate (some ⟨exception, some m⟩) r) : Diagnosed source start stop r := by
  obtain ⟨filename, stackTrace, hdetails, -⟩ := h.details
  constructor
  · intro hstart ls hls
    obtain ⟨before, l, after, rfl, hholds, hnumber, hline, column, hcolumn, hstartColumn,
      hendColumn⟩ := message_inside (m := messageObject source start stop)
        (Int.natCast_nonneg start) (Int.ofNat_le.mpr hstart) hls
    rw [messageOf, hnumber, hline, hstartColumn, hendColumn] at hm
    obtain rfl := Option.some.inj hm
    have hsource : source =
        before.flatMap Line.units ++ (l.units ++ after.flatMap Line.units) := by
      rw [← hls.flatMap_units, List.flatMap_append, List.flatMap_cons]
    have hcolumn' : column = start - extent before := by
      rw [hcolumn]
      change (start : ℤ) - extent before + (if before = [] then 0 else 0) = _
      rw [ite_self, Int.add_zero]
    have hle : extent before ≤ start := hholds.start
    refine ⟨before, l, after, rfl, hholds, ⟨filename, stackTrace, ?_⟩,
      fun hrange hstop hascii => underlined hsource hle hrange hstop hascii⟩
    rw [hdetails, hcolumn', if_neg (by omega)]
    simp only [messageObject, Script.new, Int.add_zero]
  · intro hstart
    obtain ⟨hnumber, hstartColumn, hendColumn, hline⟩ :=
      message_behind (m := messageObject source start stop) (Int.ofNat_lt.mpr hstart)
    rw [messageOf, hnumber, hline, hstartColumn, hendColumn] at hm
    obtain rfl := Option.some.inj hm
    exact ⟨filename, stackTrace, hdetails⟩

/-- **What an error looks like.** Whenever `ExecuteString` fails and reports, standard error has
one report. If the exception's message is about a range of a script, then the report shows the
number of the line, the line, and the range underlined. -/
theorem executeString_diagnosed (isolate : ShellIsolate σ V) (fuel depth : ℕ) (source : JsString)
    (name : V) (printResult : Bool) (s : σ) :
    (executeString isolate source name printResult true s).Meets
      (Proc.exec (body isolate fuel) depth) (Proc.events (body isolate fuel) depth)
      fun outcome events => ∀ s', outcome = .ok (false, s') → ∃ c s₁ t r,
        Attempt isolate (Proc.exec (body isolate fuel) depth)
          (Proc.events (body isolate fuel) depth) source name s c s₁ t ∧
        stderrOf events = Report.bytes r ∧
        ∀ exception resourceName script start stop, ∃ m,
          messageOf resourceName (messageObject script start stop) = some m ∧
          (c.caught = some ⟨exception, some m⟩ → Diagnosed script start stop r) := by
  refine Proc.meets_mono (executeString_meets (quiet_events isolate fuel depth) source name
    printResult true s) fun outcome events h s' houtcome => ?_
  obtain ⟨c, s₁, t, hattempt, -, -, hstderr⟩ := h.returned false s' houtcome
  obtain ⟨r, hr, hbytes⟩ := hstderr
  refine ⟨c, s₁, t, r, hattempt, hbytes, fun exception resourceName script start stop => ?_⟩
  obtain ⟨m, hm⟩ := exists_messageOf resourceName script start stop
  exact ⟨m, hm, fun hcaught => diagnosed hm (hcaught ▸ hr)⟩

end

end NodeMini.Shell
