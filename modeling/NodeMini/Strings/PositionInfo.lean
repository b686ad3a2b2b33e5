import Mathlib.Data.List.Induction
import NodeMini.Strings.LineEnds

/-!
# Positions of a script

The report of an exception names a line and columns, and shows the line. V8 computes them from
a position of the script's source, by a binary search among the ends of the lines. The search
has a second loop to fall back on, which goes through the source; the two do not agree on what
a line is.

## Main definitions

* `Script`, `Script.getPositionInfo` — as in V8, for a script of JavaScript
* `JSMessageObject` — the line, the columns and the source line of a message
* `Line.info` — what there is to know of a position in a line

## Main results

* `positionLaw` — a position is found in its line, with that line's content
* `slow_eq_iff` — the two loops agree exactly for a source with no terminators but line feeds
* `messageLaw` — what a message says of its position
-/

namespace NodeMini.Strings

open Lib

/-- `Script::PositionInfo`. -/
structure PositionInfo where
  line : ℤ
  column : ℤ
  lineStart : ℕ
  lineEnd : ℕ
  deriving DecidableEq, Repr

/-- What looking for a position comes to. -/
inductive Located
  | found (info : PositionInfo)
  /-- The functions return false. -/
  | outside
  /-- An array is read outside of its bounds, or a line is used that was never set. -/
  | undefined
  | running
  deriving DecidableEq, Repr

/-! ## The search -/

/-- What the loop of the binary search comes to. -/
inductive Search
  | line (mid : ℕ)
  | undefined
  | running
  deriving DecidableEq, Repr

/-- The binary search of `Script::GetPositionInfo`, for a number of iterations. The line is
set by the `break`; the loop may also end without it. -/
def searchLine (ends : List ℕ) (position : ℕ) : ℕ → ℕ → ℕ → Search
  | 0, _, _ => .running
  | fuel + 1, left, right =>
    if right = 0 then .undefined
    else
      let mid := (left + right) / 2
      match ends[mid]? with
      | none => .undefined
      | some lineEnd =>
        if lineEnd < position then searchLine ends position fuel (mid + 1) right
        else
          match mid with
          | 0 => .undefined
          | before + 1 =>
            match ends[before]? with
            | none => .undefined
            | some lineEnd =>
              if position ≤ lineEnd then searchLine ends position fuel left before
              else .line (before + 1)

/-- Whether the line's end comes down by a carriage return. -/
def withoutReturn (source : JsString) (lineEnd : ℕ) : ℕ :=
  if 0 < lineEnd ∧ lineEnd ≤ source.length ∧ source[lineEnd - 1]? = some 0x0d then lineEnd - 1
  else lineEnd

/-- What `Script::GetPositionInfo` fills in for a line. -/
def infoOfLine (ends : List ℕ) (source : JsString) (position line : ℕ) : Located :=
  match (if line = 0 then some 0 else ends[line - 1]?.map (· + 1) : Option ℕ), ends[line]? with
  | some lineStart, some lineEnd => .found {
      line := line
      column := position - lineStart
      lineStart := lineStart
      lineEnd := withoutReturn source lineEnd }
  | _, _ => .undefined

/-- `Script::GetPositionInfo` where there are line ends. Every iteration of the search drops a
line, so there are no more iterations than lines. -/
def positionInfoOfEnds (ends : List ℕ) (source : JsString) (position : ℤ) : Located :=
  match ends.head?, ends.getLast? with
  | some first, some last =>
    if (last : ℤ) < position then .outside
    -- a negative position behaves as 0
    else if position.toNat ≤ first then infoOfLine ends source position.toNat 0
    else
      match searchLine ends position.toNat ends.length 0 (ends.length - 1) with
      | .line mid => infoOfLine ends source position.toNat mid
      | .undefined => .undefined
      | .running => .running
  | _, _ => .outside

/-- The loop of `GetPositionInfoSlow`. -/
def positionInfoSlowFrom (position line lineStart pos : ℕ) : JsString → Located
  | [] =>
    if position ≤ pos then
      .found { line := line, column := position - lineStart, lineStart := lineStart, lineEnd := pos }
    else .outside
  | c :: rest =>
    if c = 0x0a then
      if position ≤ pos then
        .found
          { line := line, column := position - lineStart, lineStart := lineStart, lineEnd := pos }
      else positionInfoSlowFrom position (line + 1) (pos + 1) (pos + 1) rest
    else positionInfoSlowFrom position line lineStart (pos + 1) rest

/-- `GetPositionInfoSlow`. -/
def getPositionInfoSlow (source : JsString) (position : ℤ) : Located :=
  positionInfoSlowFrom position.toNat 0 0 0 source

/-! ## Scripts and messages -/

/-- A `Script` of JavaScript code. Its line ends are set when they are first needed. -/
structure Script where
  source : JsString
  lineOffset : ℤ
  columnOffset : ℤ
  lineEnds : Option (List ℕ)
  calculated : ∀ ends, lineEnds = some ends → ends = calculateLineEnds source

/-- A script as it is compiled: its line ends are undefined. -/
def Script.new (source : JsString) (lineOffset columnOffset : ℤ) : Script :=
  ⟨source, lineOffset, columnOffset, none, nofun⟩

/-- `Script::InitLineEnds`. -/
def Script.initLineEnds (script : Script) : Script :=
  match script.lineEnds with
  | some _ => script
  | none => { script with
      lineEnds := some (calculateLineEnds script.source)
      calculated := fun _ h => (Option.some.inj h).symm }

/-- The offsets that are added if requested. -/
def Script.addOffsets (script : Script) (info : PositionInfo) : PositionInfo :=
  { info with
    column := if info.line = 0 then info.column + script.columnOffset else info.column
    line := info.line + script.lineOffset }

/-- `Script::GetPositionInfo`, the member function. -/
def Script.getPositionInfo (script : Script) (position : ℤ) (withOffset : Bool) : Located :=
  let located := match script.lineEnds with
    | none => getPositionInfoSlow script.source position
    | some ends => positionInfoOfEnds ends script.source position
  match located with
  | .found info => .found (if withOffset then script.addOffsets info else info)
  | located => located

/-- `Script::GetPositionInfo`, the static function. -/
def getPositionInfo (script : Script) (position : ℤ) (withOffset : Bool) : Located :=
  script.initLineEnds.getPositionInfo position withOffset

/-- `Factory::NewSubString`. -/
def newSubString (str : JsString) (first last : ℕ) : JsString :=
  if first = 0 ∧ last = str.length then str
  else if (last : ℤ) - first ≤ 0 then []
  else (str.drop first).take (last - first)

/-- A `JSMessageObject`. -/
structure JSMessageObject where
  script : Script
  startPosition : ℤ
  endPosition : ℤ

namespace JSMessageObject

/-- What a function of a message returns, with the position's information or without. -/
def located (m : JSMessageObject) {α : Type} (found : PositionInfo → α) (outside : α) : Option α :=
  match Strings.getPositionInfo m.script m.startPosition true with
  | .found info => some (found info)
  | .outside => some outside
  | .undefined => none
  | .running => none

/-- `JSMessageObject::GetLineNumber`. -/
def getLineNumber (m : JSMessageObject) : Option ℤ :=
  if m.startPosition = -1 then some 0 else m.located (fun info => info.line + 1) 0

/-- `JSMessageObject::GetColumnNumber`. -/
def getColumnNumber (m : JSMessageObject) : Option ℤ :=
  if m.startPosition = -1 then some (-1) else m.located (fun info => info.column) (-1)

/-- `JSMessageObject::GetSourceLine`. -/
def getSourceLine (m : JSMessageObject) : Option JsString :=
  m.located (fun info => newSubString m.script.source info.lineStart info.lineEnd) []

/-- `Message::GetEndColumn`. -/
def getEndColumn (m : JSMessageObject) : Option ℤ :=
  m.getColumnNumber.map fun columnNumber =>
    if columnNumber = -1 then -1 else columnNumber + (m.endPosition - m.startPosition)

end JSMessageObject

/-! ## The law of positions -/

/-- Where the line behind `before` is taken to end: behind its content. But V8 goes one back
from a carriage return, and does so for an empty line too, whose end then lies in front of its
start. -/
def Line.contentEnd (before : List Line) (l : Line) : ℕ :=
  if l.content = [] ∧ l.terminator ≠ some .crlf ∧
      (before.getLast?.bind Line.terminator) = some .cr then extent before - 1
  else extent before + l.content.length

/-- What is found for a position that lies in a line. -/
def Line.info (before : List Line) (l : Line) (position : ℕ) : PositionInfo where
  line := before.length
  column := position - extent before
  lineStart := extent before
  lineEnd := l.contentEnd before

/-- A position of a script. -/
structure PositionLaw (script : Script) (position : ℤ) : Prop where
  lined : ∃ ls, Lined script.source ls
  /-- Only a position behind the script's end is not found. -/
  outside : getPositionInfo script position true = .outside ↔ script.source.length < position
  /-- Any other position lies in a line, and is found in that line. -/
  found : position ≤ script.source.length → ∀ ls, Lined script.source ls →
    ∃ before l after, ls = before ++ l :: after ∧ l.Holds before position.toNat ∧
    getPositionInfo script position true =
      .found (script.addOffsets (l.info before position.toNat)) ∧
    newSubString script.source (l.info before position.toNat).lineStart
      (l.info before position.toNat).lineEnd = l.content

/-! ### Searching -/

section

variable {ends ls before after : List Line} {l : Line} {src : JsString} {p m : ℕ}

/-- The place of a position among ends: those in front of the place are in front of the
position, and those from the place on are not. -/
structure Cell (ends : List ℕ) (p m : ℕ) : Prop where
  below : ∀ i < m, ∀ e, ends[i]? = some e → e < p
  above : ∀ i, m ≤ i → ∀ e, ends[i]? = some e → p ≤ e

/-- The loop finds the place, as long as it lies between the two sides. -/
theorem searchLine_eq {ends : List ℕ} (h : Cell ends p m) (hm : 0 < m) {fuel left right : ℕ}
    (hleft : left ≤ m) (hright : m ≤ right) (hlength : right < ends.length)
    (hfuel : right - left < fuel) : searchLine ends p fuel left right = .line m := by
  induction fuel generalizing left right with
  | zero => omega
  | succ fuel ih =>
    have hget : ∀ i < ends.length, ∃ e, ends[i]? = some e :=
      fun i hi => ⟨_, List.getElem?_eq_getElem hi⟩
    obtain ⟨atMid, hmid⟩ := hget ((left + right) / 2) (by omega)
    rw [searchLine, if_neg (by omega)]
    simp only [hmid]
    by_cases hlt : atMid < p
    · -- the place is to the right
      have hbehind : (left + right) / 2 < m := by
        by_contra hle
        exact absurd (h.above _ (Nat.not_lt.mp hle) _ hmid) (Nat.not_le.mpr hlt)
      rw [if_pos hlt]
      exact ih (by omega) hright hlength (by omega)
    · have hnot : m ≤ (left + right) / 2 := by
        by_contra hle
        exact hlt (h.below _ (Nat.not_le.mp hle) _ hmid)
      rw [if_neg hlt]
      cases hcase : (left + right) / 2 with
      | zero => omega
      | succ mid =>
        obtain ⟨atBefore, hbefore⟩ := hget mid (by omega)
        simp only [hbefore]
        by_cases hle : p ≤ atBefore
        · -- the place is to the left
          have hahead : m ≤ mid := by
            by_contra hlt
            exact absurd (h.below _ (Nat.not_le.mp hlt) _ hbefore) (Nat.not_lt.mpr hle)
          rw [if_pos hle]
          exact ih hleft hahead (by omega) (by omega)
        · have hhere : mid < m := by
            by_contra hlt
            exact hle (h.above _ (Nat.not_lt.mp hlt) _ hbefore)
          rw [if_neg hle, show mid + 1 = m by omega]

/-- The number of a line is the place of the positions in it. -/
theorem cell_endsOf (hbefore : ∀ b ∈ before, ∃ t, b.terminator = some t)
    (h : l.Holds before p) : Cell (endsOf 0 (before ++ l :: after)) p before.length := by
  have hends : endsOf 0 (before ++ l :: after) =
      endsOf 0 before ++ endsOf (extent before) (l :: after) := by
    rw [endsOf_append, Nat.zero_add]
  constructor
  · intro i hi e he
    rw [hends, List.getElem?_append_left (by rwa [length_endsOf])] at he
    have hlt := lt_of_mem_endsOf hbefore (List.mem_of_getElem? he)
    have hstart := h.start
    omega
  · intro i hi e he
    rw [hends, List.getElem?_append_right (by rwa [length_endsOf])] at he
    have hstop := h.stop
    rcases List.mem_cons.mp (List.mem_of_getElem? he) with rfl | hmem
    · exact hstop
    · have hle := le_of_mem_endsOf hmem
      have hend := l.endFrom_le (extent before)
      omega

theorem Terminator.getLast?_units (t : Terminator) :
    t.units.getLast? = some 0x0d ↔ t = .cr := by
  cases t <;> decide

/-- The character in front of a line. -/
theorem getLast?_flatMap_units (hbefore : ∀ b ∈ before, ∃ t, b.terminator = some t) :
    (before.flatMap Line.units).getLast? = some 0x0d ↔
      (before.getLast?.bind Line.terminator) = some .cr := by
  induction before using List.reverseRec with
  | nil => exact iff_of_false nofun nofun
  | append_singleton init b _ =>
    obtain ⟨t, ht⟩ := hbefore b (List.mem_append_right _ List.mem_cons_self)
    have hunits : ∃ c, t.units.getLast? = some c := by cases t <;> exact ⟨_, rfl⟩
    obtain ⟨c, hc⟩ := hunits
    rw [List.flatMap_append, List.flatMap_singleton, Line.units_of_some ht, List.getLast?_append,
      List.getLast?_append, hc, List.getLast?_concat, Option.bind_some, ht, Option.some_or,
      Option.some_or, ← hc, t.getLast?_units, Option.some.injEq]

theorem withoutReturn_append (text rest : JsString) :
    withoutReturn (text ++ rest) text.length =
      if text.getLast? = some 0x0d then text.length - 1 else text.length := by
  induction text using List.reverseRec with
  | nil => rfl
  | append_singleton text c _ =>
    have hlast : ((text ++ [c]) ++ rest)[(text ++ [c]).length - 1]? = some c := by
      simp
    have hpos : 0 < (text ++ [c]).length ∧
        (text ++ [c]).length ≤ ((text ++ [c]) ++ rest).length := by
      simp
    rw [withoutReturn, hlast, List.getLast?_concat]
    exact if_congr ⟨fun h => h.2.2, fun h => ⟨hpos.1, hpos.2, h⟩⟩ rfl rfl

/-- Where a line is taken to end. -/
theorem withoutReturn_endFrom (h : Lined src (before ++ l :: after)) :
    withoutReturn src (l.endFrom (extent before)) = l.contentEnd before := by
  have hsrc : src = before.flatMap Line.units ++ l.units ++ after.flatMap Line.units := by
    rw [← h.flatMap_units, List.flatMap_append, List.flatMap_cons, List.append_assoc]
  have hlength : (before.flatMap Line.units ++ l.content).length =
      extent before + l.content.length := List.length_append
  -- a carriage return in front of the terminator
  have hlast : (before.flatMap Line.units ++ l.content).getLast? = some 0x0d ↔
      l.content = [] ∧ (before.getLast?.bind Line.terminator) = some .cr := by
    rw [← getLast?_flatMap_units h.terminated, List.getLast?_append]
    cases hcontent : l.content.getLast? with
    | none => simp [List.getLast?_eq_none_iff.mp hcontent]
    | some c =>
      have hplain := l.plain c (List.mem_of_getLast? hcontent)
      have hne : l.content ≠ [] := by
        intro hnil
        rw [hnil] at hcontent
        cases hcontent
      refine iff_of_false (fun hc => ?_) fun hc => hne hc.1
      rw [Option.some_or] at hc
      rw [Option.some.inj hc] at hplain
      exact absurd hplain (by decide)
  -- the end of a line without the two characters is behind its content
  have hone : ∀ rest, src = before.flatMap Line.units ++ l.content ++ rest →
      l.terminator ≠ some .crlf → l.endFrom (extent before) = extent before + l.content.length →
      withoutReturn src (l.endFrom (extent before)) = l.contentEnd before := by
    intro rest hrest hcrlf hend
    rw [hend, ← hlength, hrest, withoutReturn_append, hlength, Line.contentEnd]
    refine Eq.trans (if_congr hlast rfl rfl) ?_
    by_cases hempty : l.content = []
    · rw [hempty, List.length_nil, Nat.add_zero]
      exact if_congr ⟨fun h => ⟨h.1, hcrlf, h.2⟩, fun h => ⟨h.1, h.2.2⟩⟩ rfl rfl
    · rw [if_neg fun h => hempty h.1, if_neg fun h => hempty h.1]
  cases ht : l.terminator with
  | none =>
    refine hone (after.flatMap Line.units) ?_ (by rw [ht]; nofun) ?_
    · rw [hsrc, Line.units_of_none ht]
    · rw [Line.endFrom, ht, Line.units_of_none ht]
      rfl
  | some t =>
    have hend := Line.endFrom_of_some ht (extent before)
    rw [Line.units_of_some ht, List.length_append] at hend
    rw [Line.units_of_some ht, ← List.append_assoc] at hsrc
    by_cases hcrlf : t = .crlf
    · -- back from the line feed to the carriage return
      subst hcrlf
      have htext : l.endFrom (extent before) =
          (before.flatMap Line.units ++ l.content ++ [0x0d]).length := by
        rw [List.length_append, hlength, List.length_singleton]
        exact Nat.add_right_cancel hend
      have hsplit : src = before.flatMap Line.units ++ l.content ++ [0x0d] ++
          (0x0a :: after.flatMap Line.units) := by
        rw [hsrc]
        simp [Terminator.units]
      rw [htext, hsplit, withoutReturn_append, List.getLast?_concat, if_pos rfl, List.length_append,
        hlength, List.length_singleton, Nat.add_sub_cancel, Line.contentEnd,
        if_neg fun h => h.2.1 ht]
    · have hunit : t.units.length = 1 := by cases t <;> first | rfl | exact absurd rfl hcrlf
      refine hone (t.units ++ after.flatMap Line.units) ?_ ?_ (by omega)
      · rw [hsrc, List.append_assoc]
      · rw [ht]
        exact fun h => hcrlf (Option.some.inj h)

/-- The information of a line. -/
theorem infoOfLine_endsOf (h : Lined src (before ++ l :: after)) (p : ℕ) :
    infoOfLine (endsOf 0 (before ++ l :: after)) src p before.length = .found (l.info before p) := by
  have hend : (endsOf 0 (before ++ l :: after))[before.length]? =
      some (l.endFrom (extent before)) := by
    rw [endsOf_append, Nat.zero_add, List.getElem?_append_right (by rw [length_endsOf]),
      length_endsOf, Nat.sub_self]
    rfl
  -- a line starts behind the end of the line in front of it
  have hstart : (if before.length = 0 then some 0
      else (endsOf 0 (before ++ l :: after))[before.length - 1]?.map (· + 1) : Option ℕ) =
      some (extent before) := by
    have hterminated := h.terminated
    rcases List.eq_nil_or_concat' before with rfl | ⟨init, b, rfl⟩
    · rfl
    · obtain ⟨t, ht⟩ := hterminated b (List.mem_append_right _ List.mem_cons_self)
      have hb := Line.endFrom_of_some ht (extent init)
      have hlast : (endsOf 0 (init ++ [b] ++ l :: after))[init.length]? =
          some (b.endFrom (extent init)) := by
        rw [List.append_assoc, endsOf_append, Nat.zero_add,
          List.getElem?_append_right (by rw [length_endsOf]), length_endsOf, Nat.sub_self]
        rfl
      rw [List.length_append, List.length_singleton, if_neg (Nat.succ_ne_zero _),
        Nat.add_sub_cancel, hlast, Option.map_some, hb, extent_append, extent_cons, extent_nil,
        Nat.add_zero]
  rw [infoOfLine, hend, hstart]
  simp only [withoutReturn_endFrom h]
  rfl

theorem newSubString_eq (str : JsString) (first last : ℕ) :
    newSubString str first last = (str.drop first).take (last - first) := by
  rw [newSubString]
  split_ifs with hwhole hempty
  · rw [hwhole.1, hwhole.2, List.drop_zero, Nat.sub_zero, List.take_length]
  · rw [show last - first = 0 by omega, List.take_zero]
  · rfl

/-- The line's content is the part of the source between its start and where it is taken to
end. -/
theorem newSubString_info (h : Lined src (before ++ l :: after)) (p : ℕ) :
    newSubString src (l.info before p).lineStart (l.info before p).lineEnd = l.content := by
  have hsrc : src = before.flatMap Line.units ++ (l.units ++ after.flatMap Line.units) := by
    rw [← h.flatMap_units, List.flatMap_append, List.flatMap_cons]
  have hcontent : ∃ rest, l.units = l.content ++ rest := ⟨_, rfl⟩
  obtain ⟨rest, hrest⟩ := hcontent
  have hdrop : src.drop (extent before) = l.content ++ (rest ++ after.flatMap Line.units) := by
    rw [hsrc, hrest, List.append_assoc]
    exact List.drop_left
  change newSubString src (extent before) (l.contentEnd before) = l.content
  rw [newSubString_eq, hdrop, Line.contentEnd]
  by_cases hempty : l.content = []
  · -- nothing lies between
    rw [hempty, List.length_nil, Nat.add_zero]
    have hnone : ∀ condition : Prop, [Decidable condition] →
        (if condition then extent before - 1 else extent before) - extent before = 0 := by
      intro condition _
      split_ifs <;> omega
    rw [hnone, List.take_zero]
  · rw [if_neg fun h => hempty h.1, Nat.add_sub_cancel_left, List.take_left]

/-- With the ends of the lines, a position is found in the line that holds it. -/
theorem positionInfoOfEnds_eq {position : ℤ} (h : Lined src (before ++ l :: after))
    (hholds : l.Holds before position.toNat) (hposition : position ≤ src.length) :
    positionInfoOfEnds (calculateLineEnds src) src position =
      .found (l.info before position.toNat) := by
  have hends : calculateLineEnds src = endsOf 0 (before ++ l :: after) := calculateLineEnds_eq h
  have hlast : (calculateLineEnds src).getLast? = some src.length := List.getLast?_concat
  have hcell : Cell (calculateLineEnds src) position.toNat before.length :=
    hends ▸ cell_endsOf h.terminated hholds
  obtain ⟨first, hfirst⟩ : ∃ first, (calculateLineEnds src).head? = some first := by
    cases hnil : calculateLineEnds src with
    | nil => rw [hnil] at hlast; cases hlast
    | cons first ends => exact ⟨first, rfl⟩
  have hget : (calculateLineEnds src)[0]? = some first := by rw [← hfirst, List.head?_eq_getElem?]
  have hlength : before.length < (calculateLineEnds src).length := by
    rw [hends, length_endsOf, List.length_append, List.length_cons]
    omega
  have hinfo := infoOfLine_endsOf h position.toNat
  rw [← hends] at hinfo
  rw [positionInfoOfEnds, hfirst, hlast]
  simp only [if_neg (Int.not_lt.mpr hposition)]
  by_cases hle : position.toNat ≤ first
  · -- no line ends in front of the position
    have hzero : before.length = 0 := by
      by_contra hne
      exact absurd (hcell.below 0 (Nat.pos_of_ne_zero hne) first hget) (Nat.not_lt.mpr hle)
    rw [if_pos hle, ← hinfo, hzero]
  · have hpos : 0 < before.length := by
      by_contra hzero
      exact hle (hcell.above 0 (Nat.not_lt.mp hzero) first hget)
    rw [if_neg hle, searchLine_eq hcell hpos (Nat.zero_le _) (by omega) (by omega) (by omega)]
    exact hinfo

theorem positionInfoOfEnds_outside {position : ℤ} (h : (src.length : ℤ) < position) :
    positionInfoOfEnds (calculateLineEnds src) src position = .outside := by
  have hlast : (calculateLineEnds src).getLast? = some src.length := List.getLast?_concat
  rw [positionInfoOfEnds, hlast]
  cases (calculateLineEnds src).head? with
  | none => rfl
  | some first => exact if_pos h

/-- The static function always has the line ends. -/
theorem getPositionInfo_eq (script : Script) (position : ℤ) (withOffset : Bool) :
    getPositionInfo script position withOffset =
      match positionInfoOfEnds (calculateLineEnds script.source) script.source position with
      | .found info => .found (if withOffset then script.addOffsets info else info)
      | located => located := by
  rw [getPositionInfo, Script.initLineEnds, Script.getPositionInfo]
  cases hends : script.lineEnds with
  | none => rfl
  | some ends => simp only [hends, script.calculated ends hends]

theorem getPositionInfo_outside (script : Script) {position : ℤ}
    (h : (script.source.length : ℤ) < position) :
    getPositionInfo script position true = .outside := by
  rw [getPositionInfo_eq, positionInfoOfEnds_outside h]

/-- A position is found in the line that holds it. -/
theorem getPositionInfo_found (script : Script) {position : ℤ} (h : Lined script.source ls)
    (hposition : position ≤ script.source.length) :
    ∃ before l after, ls = before ++ l :: after ∧ l.Holds before position.toNat ∧
      getPositionInfo script position true =
        .found (script.addOffsets (l.info before position.toNat)) ∧
      newSubString script.source (l.info before position.toNat).lineStart
        (l.info before position.toNat).lineEnd = l.content := by
  obtain ⟨before, l, after, rfl, hholds⟩ := h.exists_holds (p := position.toNat) (by omega)
  refine ⟨before, l, after, rfl, hholds, ?_, newSubString_info h _⟩
  rw [getPositionInfo_eq, positionInfoOfEnds_eq h hholds hposition]
  rfl

/-- **Positions.** For every script and every position in it, the binary search ends, and finds
the line that the position lies in, the column in that line, and where the line starts; between
the start and the end it finds is the line's content. A position behind the end of the script
is not found. -/
theorem positionLaw (script : Script) (position : ℤ) : PositionLaw script position := by
  obtain ⟨lines, hlines⟩ := exists_lined script.source
  refine { lined := ⟨lines, hlines⟩, outside := ?_, found := ?_ }
  · constructor
    · intro houtside
      by_contra hinside
      obtain ⟨_, _, _, _, _, hlocated, _⟩ :=
        getPositionInfo_found script hlines (Int.not_lt.mp hinside)
      rw [houtside] at hlocated
      cases hlocated
    · exact getPositionInfo_outside script
  · exact fun hposition ls h => getPositionInfo_found script h hposition

end

/-! ### The slow loop -/

section

variable {ls before after : List Line} {l : Line} {t : Terminator} {src rest : JsString}
  {p line lineStart pos : ℕ}

/-- A line whose terminator, if it has one, is a line feed. -/
def Line.Unix (l : Line) : Prop := ∀ t, l.terminator = some t → t = .lf

theorem positionInfoSlowFrom_plain {content : JsString}
    (h : ∀ c ∈ content, isLineTerminator c = false) (pos : ℕ) (rest : JsString) :
    positionInfoSlowFrom p line lineStart pos (content ++ rest) =
      positionInfoSlowFrom p line lineStart (pos + content.length) rest := by
  induction content generalizing pos with
  | nil => rfl
  | cons c content ih =>
    obtain ⟨hc, hcontent⟩ := List.forall_mem_cons.mp h
    have hne : c ≠ 0x0a := by
      rintro rfl
      exact absurd hc (by decide)
    rw [List.cons_append, positionInfoSlowFrom, if_neg hne, ih hcontent, List.length_cons]
    congr 1
    omega

/-- Lines in front of the position, with line feeds, are passed. -/
theorem positionInfoSlowFrom_unix (h : ∀ b ∈ before, b.terminator = some .lf) (line pos : ℕ)
    (hp : pos + extent before ≤ p) (rest : JsString) :
    positionInfoSlowFrom p line pos pos (before.flatMap Line.units ++ rest) =
      positionInfoSlowFrom p (line + before.length) (pos + extent before) (pos + extent before)
        rest := by
  induction before generalizing line pos with
  | nil => rfl
  | cons b before ih =>
    obtain ⟨hb, hbefore⟩ := List.forall_mem_cons.mp h
    have hunits : b.units = b.content ++ [0x0a] := Line.units_of_some hb
    have hlength : b.units.length = b.content.length + 1 := by
      rw [hunits, List.length_append, List.length_singleton]
    rw [extent_cons, hlength] at hp
    have hrest := ih hbefore (line + 1) (pos + (b.content.length + 1)) (by omega)
    rw [List.flatMap_cons, List.append_assoc, hunits, List.append_assoc,
      positionInfoSlowFrom_plain b.plain, List.singleton_append, positionInfoSlowFrom, if_pos rfl,
      if_neg (by omega), Nat.add_assoc pos, hrest, List.length_cons, extent_cons, hlength]
    congr 1 <;> omega

/-- The line that is found ends nowhere in front of where the loop stands. -/
theorem positionInfoSlowFrom_found (hp : p ≤ pos) (rest : JsString) :
    ∃ lineEnd, pos ≤ lineEnd ∧ positionInfoSlowFrom p line lineStart pos rest =
      .found { line := line, column := p - lineStart, lineStart := lineStart, lineEnd := lineEnd } := by
  induction rest generalizing pos with
  | nil => exact ⟨pos, le_rfl, by rw [positionInfoSlowFrom, if_pos hp]⟩
  | cons c rest ih =>
    rw [positionInfoSlowFrom, if_pos hp]
    by_cases hc : c = 0x0a
    · exact ⟨pos, le_rfl, if_pos hc⟩
    · obtain ⟨lineEnd, hle, hfound⟩ := ih (Nat.le_succ_of_le hp)
      exact ⟨lineEnd, by omega, (if_neg hc).trans hfound⟩

/-- Where lines end that have line feeds. -/
theorem Line.contentEnd_unix (h : ∀ b ∈ before, b.terminator = some .lf) (l : Line) :
    l.contentEnd before = extent before + l.content.length := by
  refine if_neg fun hquirk => ?_
  obtain ⟨b, hlast, hcr⟩ := Option.bind_eq_some_iff.mp hquirk.2.2
  rw [h b (List.mem_of_getLast? hlast)] at hcr
  cases hcr

/-- With line feeds only, every line but the last has one. -/
theorem Lined.lf_of_unix (h : Lined src (before ++ l :: after))
    (hunix : ∀ b ∈ before ++ l :: after, b.Unix) : ∀ b ∈ before, b.terminator = some .lf := by
  intro b hb
  obtain ⟨t, ht⟩ := h.terminated b hb
  rw [ht, hunix b (List.mem_append_left _ hb) t ht]

/-- With line feeds only, the loop finds what the binary search does. -/
theorem getPositionInfoSlow_unix {position : ℤ} (h : Lined src ls) (hunix : ∀ l ∈ ls, l.Unix) :
    getPositionInfoSlow src position = positionInfoOfEnds (calculateLineEnds src) src position := by
  by_cases hposition : position ≤ src.length
  · obtain ⟨before, l, after, rfl, hholds⟩ := h.exists_holds (p := position.toNat) (by omega)
    have hbefore := h.lf_of_unix hunix
    have hstart := hholds.start
    have hstop := hholds.stop
    -- the loop comes to the line of the position, and to where its content ends
    have hloop : getPositionInfoSlow src position = positionInfoSlowFrom position.toNat
        before.length (extent before) (extent before + l.content.length)
        ((l.terminator.map Terminator.units).getD [] ++ after.flatMap Line.units) := by
      have hpassed := positionInfoSlowFrom_unix hbefore 0 0 (p := position.toNat) (by omega)
        (l.units ++ after.flatMap Line.units)
      rw [Nat.zero_add, Nat.zero_add, Line.units, List.append_assoc,
        positionInfoSlowFrom_plain l.plain] at hpassed
      rw [getPositionInfoSlow, ← hpassed, ← List.append_assoc l.content, ← Line.units,
        ← h.flatMap_units, List.flatMap_append, List.flatMap_cons]
    rw [hloop, positionInfoOfEnds_eq h hholds hposition, Line.info, Line.contentEnd_unix hbefore]
    cases ht : l.terminator with
    | none =>
      have hlast : after = [] := by
        cases after with
        | nil => rfl
        | cons l' after =>
          rw [← List.singleton_append, ← List.append_assoc] at h
          obtain ⟨t, ht'⟩ := h.terminated l (List.mem_append_right _ List.mem_cons_self)
          rw [ht] at ht'
          cases ht'
      rw [Line.endFrom, ht, Line.units_of_none ht] at hstop
      rw [hlast]
      exact if_pos hstop
    | some t =>
      obtain rfl := hunix l (List.mem_append_right _ List.mem_cons_self) t ht
      have hend := Line.endFrom_of_some ht (extent before)
      rw [Line.units_of_some ht, List.length_append] at hend
      have hle : position.toNat ≤ extent before + l.content.length := by
        have hone : (Terminator.units .lf).length = 1 := rfl
        omega
      exact (if_pos rfl).trans (if_pos hle)
  · -- the loop goes through all lines
    have hbehind : (src.length : ℤ) < position := Int.not_le.mp hposition
    obtain ⟨before, l, rfl, hl⟩ := h.exists_last
    have hbefore := h.lf_of_unix hunix
    have hsrc : src = before.flatMap Line.units ++ (l.content ++ []) := by
      rw [← h.flatMap_units, List.flatMap_append, List.flatMap_singleton, Line.units_of_none hl,
        List.append_nil]
    have hlength : src.length = extent before + l.content.length := by
      rw [hsrc, List.append_nil, List.length_append]
      rfl
    have hslow : getPositionInfoSlow src position = .outside := by
      rw [getPositionInfoSlow, hsrc, positionInfoSlowFrom_unix hbefore 0 0 (by omega),
        positionInfoSlowFrom_plain l.plain, Nat.zero_add, positionInfoSlowFrom, if_neg (by omega)]
    rw [hslow, positionInfoOfEnds_outside hbehind]

/-- A line that ends otherwise is longer for the loop. -/
theorem getPositionInfoSlow_ne (h : Lined src (before ++ l :: after))
    (hbefore : ∀ b ∈ before, b.terminator = some .lf) (ht : l.terminator = some t)
    (hlf : t ≠ .lf) :
    getPositionInfoSlow src (extent before) ≠
      positionInfoOfEnds (calculateLineEnds src) src (extent before) := by
  have hsrc : src = before.flatMap Line.units ++ (l.content ++
      (t.units ++ after.flatMap Line.units)) := by
    rw [← h.flatMap_units, List.flatMap_append, List.flatMap_cons, Line.units_of_some ht,
      List.append_assoc]
  have hholds : l.Holds before (extent before : ℤ).toNat :=
    ⟨le_rfl, l.le_endFrom (extent before)⟩
  have hposition : (extent before : ℤ) ≤ src.length := by
    have hlength : src.length = extent before + (l.content ++
        (t.units ++ after.flatMap Line.units)).length := by
      rw [hsrc, List.length_append]
      rfl
    omega
  -- the loop takes the terminator for content
  obtain ⟨c, units, hunits, hc⟩ : ∃ c units, t.units = c :: units ∧ c ≠ 0x0a := by
    cases t with
    | lf => exact absurd rfl hlf
    | crlf => exact ⟨0x0d, [0x0a], rfl, by decide⟩
    | cr => exact ⟨0x0d, [], rfl, by decide⟩
    | ls => exact ⟨0x2028, [], rfl, by decide⟩
    | ps => exact ⟨0x2029, [], rfl, by decide⟩
  obtain ⟨lineEnd, hle, hfound⟩ : ∃ lineEnd, extent before + l.content.length + 1 ≤ lineEnd ∧
      positionInfoSlowFrom (extent before) before.length (extent before)
        (extent before + l.content.length + 1) (units ++ after.flatMap Line.units) = .found
          { line := before.length, column := (extent before : ℤ) - extent before,
            lineStart := extent before, lineEnd := lineEnd } :=
    positionInfoSlowFrom_found (by omega) _
  have hslow : getPositionInfoSlow src (extent before) = .found
      { line := before.length, column := (extent before : ℤ) - extent before,
        lineStart := extent before, lineEnd := lineEnd } := by
    rw [← hfound, getPositionInfoSlow, hsrc, Int.toNat_natCast,
      positionInfoSlowFrom_unix hbefore 0 0 (Nat.le_of_eq (Nat.zero_add _)),
      positionInfoSlowFrom_plain l.plain, hunits, Nat.zero_add, Nat.zero_add, List.cons_append,
      positionInfoSlowFrom, if_neg hc]
  rw [hslow, positionInfoOfEnds_eq h hholds hposition, Line.info, Line.contentEnd_unix hbefore]
  intro heq
  injection heq with hinfo
  injection hinfo with _ _ _ hend
  omega

/-- Lines with line feeds, or the first that ends otherwise. -/
theorem unix_or_exists (ls : List Line) : (∀ l ∈ ls, l.Unix) ∨
    ∃ before l after t, ls = before ++ l :: after ∧ (∀ b ∈ before, b.Unix) ∧
      l.terminator = some t ∧ t ≠ .lf := by
  induction ls with
  | nil => exact Or.inl nofun
  | cons l ls ih =>
    by_cases hl : l.Unix
    · rcases ih with hls | ⟨before, l', after, t, rfl, hbefore, ht, hlf⟩
      · exact Or.inl (List.forall_mem_cons.mpr ⟨hl, hls⟩)
      · exact Or.inr ⟨l :: before, l', after, t, rfl, List.forall_mem_cons.mpr ⟨hl, hbefore⟩, ht,
          hlf⟩
    · obtain ⟨t, ht⟩ := not_forall.mp hl
      obtain ⟨hterminator, hlf⟩ := Classical.not_imp.mp ht
      exact Or.inr ⟨[], l, ls, t, rfl, nofun, hterminator, hlf⟩

/-- Lines have line feeds if the characters of the source are no other terminators. -/
theorem unix_iff (h : Lined src ls) :
    (∀ l ∈ ls, l.Unix) ↔ ∀ c ∈ src, isLineTerminator c = true → c = 0x0a := by
  rw [← h.flatMap_units]
  constructor
  · intro hunix c hc hterminator
    obtain ⟨l, hl, hmem⟩ := List.mem_flatMap.mp hc
    rw [Line.units] at hmem
    rcases List.mem_append.mp hmem with hcontent | hunits
    · rw [l.plain c hcontent] at hterminator
      cases hterminator
    · cases ht : l.terminator with
      | none => rw [ht] at hunits; cases hunits
      | some t =>
        obtain rfl := hunix l hl t ht
        rw [ht] at hunits
        exact List.mem_singleton.mp hunits
  · intro hplain l hl t ht
    have hmem : ∀ c ∈ t.units, isLineTerminator c = true → c = 0x0a := by
      intro c hc
      refine hplain c (List.mem_flatMap.mpr ⟨l, hl, ?_⟩)
      rw [Line.units_of_some ht]
      exact List.mem_append_right _ hc
    cases t with
    | lf => rfl
    | crlf => exact absurd (hmem 0x0d List.mem_cons_self rfl) (by decide)
    | cr => exact absurd (hmem 0x0d List.mem_cons_self rfl) (by decide)
    | ls => exact absurd (hmem 0x2028 List.mem_cons_self rfl) (by decide)
    | ps => exact absurd (hmem 0x2029 List.mem_cons_self rfl) (by decide)

/-- **The slow loop.** For a script whose line ends have not been set, looking up every position
gives what it gives with them exactly if no character of the source ends a line but the line
feed. -/
theorem slow_eq_iff (source : JsString) (lineOffset columnOffset : ℤ) :
    (∀ position withOffset,
      (Script.new source lineOffset columnOffset).getPositionInfo position withOffset =
        getPositionInfo (Script.new source lineOffset columnOffset) position withOffset) ↔
      ∀ c ∈ source, isLineTerminator c = true → c = 0x0a := by
  obtain ⟨ls, h⟩ := exists_lined source
  rw [← unix_iff h]
  constructor
  · intro hequal
    rcases unix_or_exists ls with hunix | ⟨before, l, after, t, rfl, hbefore, ht, hlf⟩
    · exact hunix
    · have hterminated : ∀ b ∈ before, b.terminator = some .lf := by
        intro b hb
        obtain ⟨t, ht⟩ := h.terminated b hb
        rw [ht, hbefore b hb t ht]
      -- without offsets, the two are what the two loops find
      have hplain : ∀ located : Located, (match located with
          | .found info => .found (if false = true then
              (Script.new source lineOffset columnOffset).addOffsets info else info)
          | located => located) = located := by
        intro located
        cases located <;> rfl
      have hboth := hequal (extent before) false
      rw [getPositionInfo_eq, hplain] at hboth
      exact absurd ((hplain _).symm.trans hboth) (getPositionInfoSlow_ne h hterminated ht hlf)
  · intro hunix position withOffset
    rw [getPositionInfo_eq, Script.getPositionInfo]
    simp only [Script.new, getPositionInfoSlow_unix h hunix]

end

/-! ### Messages -/

/-- The line and the columns of a message, and its source line. -/
structure MessageLaw (m : JSMessageObject) : Prop where
  /-- A message without a position has no line and no columns, but the first source line. -/
  nowhere : m.startPosition = -1 → m.getLineNumber = some 0 ∧ m.getColumnNumber = some (-1) ∧
    m.getEndColumn = some (-1) ∧
    ∃ l ls, Lined m.script.source (l :: ls) ∧ m.getSourceLine = some l.content
  /-- Behind the end of the script there is no line at all. -/
  behind : m.script.source.length < m.startPosition → m.getLineNumber = some 0 ∧
    m.getColumnNumber = some (-1) ∧ m.getEndColumn = some (-1) ∧ m.getSourceLine = some []
  /-- A position in the script has the number of its line, counted from one, its column in it
  and its content; the offsets of the script are added, that of columns in the first line. -/
  inside : 0 ≤ m.startPosition → m.startPosition ≤ m.script.source.length →
    ∀ ls, Lined m.script.source ls → ∃ before l after, ls = before ++ l :: after ∧
      l.Holds before m.startPosition.toNat ∧
      m.getLineNumber = some (before.length + m.script.lineOffset + 1) ∧
      m.getSourceLine = some l.content ∧
      ∃ column, column = m.startPosition - extent before +
          (if before = [] then m.script.columnOffset else 0) ∧
        m.getColumnNumber = some column ∧
        -- the offset can bring the column down to where there is none
        m.getEndColumn = some (if column = -1 then -1
          else column + (m.endPosition - m.startPosition))

namespace JSMessageObject

variable {m : JSMessageObject} {info : PositionInfo}

theorem located_found (h : getPositionInfo m.script m.startPosition true = .found info)
    {α : Type} (found : PositionInfo → α) (outside : α) :
    m.located found outside = some (found info) := by
  rw [located, h]

theorem located_outside (h : getPositionInfo m.script m.startPosition true = .outside)
    {α : Type} (found : PositionInfo → α) (outside : α) :
    m.located found outside = some outside := by
  rw [located, h]

theorem getEndColumn_eq {column : ℤ} (h : m.getColumnNumber = some column) :
    m.getEndColumn =
      some (if column = -1 then -1 else column + (m.endPosition - m.startPosition)) := by
  rw [getEndColumn, h, Option.map_some]

end JSMessageObject

/-- Only the first line holds the first position. -/
theorem Line.Holds.eq_nil {before : List Line} {l : Line} (h : l.Holds before 0)
    (hbefore : ∀ b ∈ before, ∃ t, b.terminator = some t) : before = [] := by
  cases before with
  | nil => rfl
  | cons b before =>
    obtain ⟨t, ht⟩ := hbefore b List.mem_cons_self
    have hpos := t.length_pos
    have hstart := h.start
    rw [extent_cons, Line.units_of_some ht, List.length_append] at hstart
    omega

/-- A message behind the end of its script. -/
theorem message_behind {m : JSMessageObject} (h : m.script.source.length < m.startPosition) :
    m.getLineNumber = some 0 ∧ m.getColumnNumber = some (-1) ∧ m.getEndColumn = some (-1) ∧
      m.getSourceLine = some [] := by
  have houtside := getPositionInfo_outside m.script h
  have hne : m.startPosition ≠ -1 := by omega
  have hcolumn : m.getColumnNumber = some (-1) := by
    rw [JSMessageObject.getColumnNumber, if_neg hne, JSMessageObject.located_outside houtside]
  refine ⟨?_, hcolumn, JSMessageObject.getEndColumn_eq hcolumn, ?_⟩
  · rw [JSMessageObject.getLineNumber, if_neg hne, JSMessageObject.located_outside houtside]
  · rw [JSMessageObject.getSourceLine, JSMessageObject.located_outside houtside]

/-- A message in its script. -/
theorem message_inside {m : JSMessageObject} {ls : List Line} (hstart : 0 ≤ m.startPosition)
    (hle : m.startPosition ≤ m.script.source.length) (hls : Lined m.script.source ls) :
    ∃ before l after, ls = before ++ l :: after ∧ l.Holds before m.startPosition.toNat ∧
      m.getLineNumber = some (before.length + m.script.lineOffset + 1) ∧
      m.getSourceLine = some l.content ∧
      ∃ column, column = m.startPosition - extent before +
          (if before = [] then m.script.columnOffset else 0) ∧
        m.getColumnNumber = some column ∧
        m.getEndColumn = some (if column = -1 then -1
          else column + (m.endPosition - m.startPosition)) := by
  obtain ⟨before, l, after, rfl, hholds, hlocated, hcontent⟩ :=
    getPositionInfo_found m.script hls hle
  have hne : m.startPosition ≠ -1 := by omega
  have hfirst : ((before.length : ℤ) = 0) ↔ before = [] := by
    rw [Int.natCast_eq_zero, List.length_eq_zero_iff]
  have hcolumn : m.getColumnNumber = some (m.startPosition - extent before +
      (if before = [] then m.script.columnOffset else 0)) := by
    rw [JSMessageObject.getColumnNumber, if_neg hne, JSMessageObject.located_found hlocated]
    simp only [Script.addOffsets, Line.info, hfirst, Int.toNat_of_nonneg hstart]
    split_ifs
    · rfl
    · rw [Int.add_zero]
  refine ⟨before, l, after, rfl, hholds, ?_, ?_, _, rfl, hcolumn,
    JSMessageObject.getEndColumn_eq hcolumn⟩
  · rw [JSMessageObject.getLineNumber, if_neg hne, JSMessageObject.located_found hlocated]
    rfl
  · rw [JSMessageObject.getSourceLine, JSMessageObject.located_found hlocated]
    exact congrArg some hcontent

/-- **Messages.** A message has the line, the columns and the source line of its position. -/
theorem messageLaw (m : JSMessageObject) : MessageLaw m := by
  obtain ⟨lines, hlines⟩ := exists_lined m.script.source
  refine { nowhere := ?_, behind := message_behind, inside := fun h hle ls => message_inside h hle }
  intro hnone
  have hcolumn : m.getColumnNumber = some (-1) := if_pos hnone
  refine ⟨if_pos hnone, hcolumn, JSMessageObject.getEndColumn_eq hcolumn, ?_⟩
  -- the position behaves as the start of the script
  obtain ⟨before, l, after, rfl, hholds, hlocated, hcontent⟩ :=
    getPositionInfo_found m.script hlines (show m.startPosition ≤ _ by omega)
  have hzero : m.startPosition.toNat = 0 := by rw [hnone]; rfl
  rw [hzero] at hholds hcontent
  obtain rfl := hholds.eq_nil hlines.terminated
  refine ⟨l, after, hlines, ?_⟩
  rw [JSMessageObject.getSourceLine, JSMessageObject.located_found hlocated, hzero]
  exact congrArg some hcontent

end NodeMini.Strings
