import NodeMini.Native.JsString

/-!
# The lines of a script

V8 knows the lines of a script by the positions of their last characters: a line feed, a
carriage return that no line feed follows, or one of the two separators of Unicode, and the end
of the script for the last line. A carriage return in front of a line feed belongs to the
terminator of its line, but is not the end of it.

## Main definitions

* `isLineTerminatorSequence`, `calculateLineEnds` — as in V8
* `Line`, `Lined` — the lines of a script, each with its terminator
* `endsOf` — where lines end

## Main results

* `exists_lined` — every script has lines
* `calculateLineEnds_eq` — the positions are those of the ends of the lines
* `Lined.exists_holds` — every position of a script lies in a line
-/

namespace NodeMini.Strings

open Lib

/-- The flag `kMaybeLineEnd` of the table `kOneByteCharFlags`. -/
def maybeLineEnd (c : UInt8) : Bool := c = 0x0d || c = 0x0a || c = 0x28 || c = 0x29

/-- `IsLineTerminatorSequence`. -/
def isLineTerminatorSequence (c next : UInt16) : Bool :=
  if maybeLineEnd c.toUInt8 then
    if c = 0x0a then true
    else if c = 0x0d then next ≠ 0x0a
    else 0x2028 ≤ c.toNat && c.toNat ≤ 0x2029
  else false

/-- The loop of `CalculateLineEndsImpl`, with the last character after it. -/
def lineEndsFrom (i : ℕ) : JsString → List ℕ
  | [] => []
  | [c] => if isLineTerminatorSequence c 0 then [i] else []
  | current :: next :: rest =>
    if isLineTerminatorSequence current next then i :: lineEndsFrom (i + 1) (next :: rest)
    else lineEndsFrom (i + 1) (next :: rest)

/-- `String::CalculateLineEnds`, with the ending line. -/
def calculateLineEnds (src : JsString) : List ℕ := lineEndsFrom 0 src ++ [src.length]

/-! ## Lines -/

/-- A character that ends a line, or begins the sequence that does. -/
def isLineTerminator (c : UInt16) : Bool := c = 0x0a || c = 0x0d || c = 0x2028 || c = 0x2029

/-- What may end a line. -/
inductive Terminator
  | lf
  | crlf
  | cr
  | ls
  | ps
  deriving DecidableEq, Repr

/-- The characters of a terminator. -/
def Terminator.units : Terminator → JsString
  | .lf => [0x0a]
  | .crlf => [0x0d, 0x0a]
  | .cr => [0x0d]
  | .ls => [0x2028]
  | .ps => [0x2029]

/-- A line, whose content has no terminator in it; the last line of a script has none at its
end either. -/
structure Line where
  content : JsString
  terminator : Option Terminator
  plain : ∀ c ∈ content, isLineTerminator c = false

/-- The characters of a line. -/
def Line.units (l : Line) : JsString := l.content ++ (l.terminator.map Terminator.units).getD []

/-- The lines of a script. -/
inductive Lined : JsString → List Line → Prop
  | last {l : Line} : l.terminator = none → Lined l.content [l]
  | cons {l : Line} {t : Terminator} {rest : JsString} {ls : List Line} :
    -- a carriage return in front of a line feed is no terminator of its own
    l.terminator = some t → (t = .cr → rest.head? ≠ some 0x0a) → Lined rest ls →
    Lined (l.units ++ rest) (l :: ls)

/-- Where a line ends that begins at a position: at the last character of its terminator, or
behind its content. -/
def Line.endFrom (i : ℕ) (l : Line) : ℕ :=
  if l.terminator.isSome then i + l.units.length - 1 else i + l.units.length

/-- Where lines end, the first of which begins at a position. -/
def endsOf (i : ℕ) : List Line → List ℕ
  | [] => []
  | l :: ls => l.endFrom i :: endsOf (i + l.units.length) ls

/-- How many characters lines have. -/
def extent (ls : List Line) : ℕ := (ls.flatMap Line.units).length

section

variable {c next : UInt16} {src rest : JsString} {ls ls' : List Line} {i : ℕ} {t : Terminator}

theorem isLineTerminatorSequence_iff :
    isLineTerminatorSequence c next = true ↔
      c = 0x0a ∨ (c = 0x0d ∧ next ≠ 0x0a) ∨ c = 0x2028 ∨ c = 0x2029 := by
  have hrange : (0x2028 ≤ c.toNat ∧ c.toNat ≤ 0x2029) ↔ c = 0x2028 ∨ c = 0x2029 := by
    rw [← UInt16.toNat_inj, ← UInt16.toNat_inj]
    have h28 : (0x2028 : UInt16).toNat = 0x2028 := rfl
    have h29 : (0x2029 : UInt16).toNat = 0x2029 := rfl
    omega
  unfold isLineTerminatorSequence
  by_cases hlf : c = 0x0a
  · subst hlf
    simp [maybeLineEnd]
  by_cases hcr : c = 0x0d
  · subst hcr
    simp [maybeLineEnd]
  simp only [hlf, hcr, false_and, false_or, if_false, ← hrange]
  split_ifs with hmaybe
  · simp
  · -- the two separators are marked by their low bytes
    refine iff_of_false id fun h => hmaybe ?_
    rcases hrange.mp h with rfl | rfl <;> decide

theorem isLineTerminator_of_sequence (h : isLineTerminatorSequence c next = true) :
    isLineTerminator c = true := by
  rcases isLineTerminatorSequence_iff.mp h with rfl | ⟨rfl, -⟩ | rfl | rfl <;> rfl

/-- No line ends in its content. -/
theorem lineEndsFrom_plain {content : JsString} (h : ∀ c ∈ content, isLineTerminator c = false)
    (i : ℕ) (rest : JsString) :
    lineEndsFrom i (content ++ rest) = lineEndsFrom (i + content.length) rest := by
  induction content generalizing i with
  | nil => rfl
  | cons c content ih =>
    have hc : ∀ next, isLineTerminatorSequence c next = false := by
      intro next
      have hplain := h c List.mem_cons_self
      refine Bool.eq_false_iff.mpr fun hsequence => ?_
      rw [isLineTerminator_of_sequence hsequence] at hplain
      cases hplain
    have hstep : lineEndsFrom i (c :: (content ++ rest)) =
        lineEndsFrom (i + 1) (content ++ rest) := by
      cases hcr : content ++ rest with
      | nil => simp [lineEndsFrom, hc]
      | cons next more => rw [lineEndsFrom, hc, if_neg Bool.false_ne_true]
    rw [List.cons_append, hstep, ih fun c hc => h c (List.mem_cons_of_mem _ hc), List.length_cons]
    congr 1
    omega

/-- A line ends at the last character of its terminator. -/
theorem lineEndsFrom_terminator (h : t = .cr → rest.head? ≠ some 0x0a) (i : ℕ) :
    lineEndsFrom i (t.units ++ rest) =
      (i + t.units.length - 1) :: lineEndsFrom (i + t.units.length) rest := by
  have hone : ∀ (c : UInt16) (i : ℕ), (∀ next, rest.head? = some next ∨ next = 0 →
      isLineTerminatorSequence c next = true) →
      lineEndsFrom i (c :: rest) = i :: lineEndsFrom (i + 1) rest := by
    intro c i hc
    cases rest with
    | nil => simp [lineEndsFrom, hc 0 (Or.inr rfl)]
    | cons next rest => rw [lineEndsFrom, if_pos (hc next (Or.inl rfl))]
  cases t with
  | lf => exact hone 0x0a i fun next _ => isLineTerminatorSequence_iff.mpr (Or.inl rfl)
  | crlf =>
    have hcr : isLineTerminatorSequence 0x0d 0x0a = false := by decide
    have hlf := hone 0x0a (i + 1) fun next _ => isLineTerminatorSequence_iff.mpr (Or.inl rfl)
    change lineEndsFrom i (0x0d :: 0x0a :: rest) = _
    rw [lineEndsFrom, hcr, if_neg Bool.false_ne_true, hlf]
    rfl
  | cr =>
    refine hone 0x0d i fun next hnext =>
      isLineTerminatorSequence_iff.mpr (Or.inr (Or.inl ⟨rfl, ?_⟩))
    rintro rfl
    rcases hnext with hnext | hnext
    · exact h rfl hnext
    · exact absurd hnext (by decide)
  | ls =>
    exact hone 0x2028 i fun next _ =>
      isLineTerminatorSequence_iff.mpr (Or.inr (Or.inr (Or.inl rfl)))
  | ps =>
    exact hone 0x2029 i fun next _ =>
      isLineTerminatorSequence_iff.mpr (Or.inr (Or.inr (Or.inr rfl)))

theorem lineEndsFrom_lined (h : Lined src ls) (i : ℕ) :
    lineEndsFrom i src ++ [i + src.length] = endsOf i ls := by
  induction h generalizing i with
  | @last l hlast =>
    have hcontent := lineEndsFrom_plain l.plain i []
    rw [List.append_nil] at hcontent
    simp [hcontent, lineEndsFrom, endsOf, Line.endFrom, Line.units, hlast]
  | @cons l t rest ls ht hcr _ ih =>
    have hunits : l.units = l.content ++ t.units := by rw [Line.units, ht]; rfl
    have hend : i + l.content.length + t.units.length - 1 = i + l.units.length - 1 := by
      rw [hunits, List.length_append]
      omega
    have hnext : i + l.content.length + t.units.length = i + l.units.length := by
      rw [hunits, List.length_append]
      omega
    rw [endsOf, Line.endFrom, ht, Option.isSome_some, if_pos rfl, ← ih, List.length_append,
      ← Nat.add_assoc]
    rw [hunits, List.append_assoc, lineEndsFrom_plain l.plain, lineEndsFrom_terminator hcr, hend,
      hnext, ← hunits]
    rfl

/-- **V8 finds the ends of the lines.** -/
theorem calculateLineEnds_eq (h : Lined src ls) : calculateLineEnds src = endsOf 0 ls := by
  rw [← lineEndsFrom_lined h 0, Nat.zero_add]
  rfl

/-- The first line of a script, and its terminator. -/
theorem exists_first_line (src : JsString) :
    (∃ l : Line, l.terminator = none ∧ src = l.content) ∨
      ∃ (l : Line) (t : Terminator) (rest : JsString), l.terminator = some t ∧
        (t = .cr → rest.head? ≠ some 0x0a) ∧ src = l.units ++ rest := by
  induction src with
  | nil => exact Or.inl ⟨⟨[], none, nofun⟩, rfl, rfl⟩
  | cons c src ih =>
    -- a line that begins with a terminator
    have hbegin : ∀ (t : Terminator) (rest : JsString), (t = .cr → rest.head? ≠ some 0x0a) →
        c :: src = t.units ++ rest →
        ∃ (l : Line) (t : Terminator) (rest : JsString), l.terminator = some t ∧
          (t = .cr → rest.head? ≠ some 0x0a) ∧ c :: src = l.units ++ rest :=
      fun t rest hcr hsrc => ⟨⟨[], some t, nofun⟩, t, rest, rfl, hcr, hsrc⟩
    by_cases hplain : isLineTerminator c = false
    · -- the character goes in front of the first line of the others
      have hcons : ∀ l : Line, ∀ d ∈ c :: l.content, isLineTerminator d = false :=
        fun l => List.forall_mem_cons.mpr ⟨hplain, l.plain⟩
      rcases ih with ⟨l, hl, rfl⟩ | ⟨l, t, rest, ht, hcr, rfl⟩
      · exact Or.inl ⟨⟨c :: l.content, none, hcons l⟩, rfl, rfl⟩
      · refine Or.inr ⟨⟨c :: l.content, some t, hcons l⟩, t, rest, rfl, hcr, ?_⟩
        rw [Line.units, Line.units, ht]
        rfl
    · right
      have hcases : c = 0x0a ∨ c = 0x0d ∨ c = 0x2028 ∨ c = 0x2029 := by
        simpa only [isLineTerminator, Bool.not_eq_false, Bool.or_eq_true, decide_eq_true_eq,
          or_assoc] using hplain
      rcases hcases with rfl | rfl | rfl | rfl
      · exact hbegin .lf src nofun rfl
      · by_cases hlf : src.head? = some 0x0a
        · obtain ⟨rest, rfl⟩ : ∃ rest, src = 0x0a :: rest := by
            cases src with
            | nil => cases hlf
            | cons d rest => exact ⟨rest, by rw [Option.some.inj hlf]⟩
          exact hbegin .crlf rest nofun rfl
        · exact hbegin .cr src (fun _ => hlf) rfl
      · exact hbegin .ls src nofun rfl
      · exact hbegin .ps src nofun rfl

theorem Terminator.length_pos (t : Terminator) : 0 < t.units.length := by
  cases t <;> exact Nat.zero_lt_succ _

/-- A script has lines. -/
theorem exists_lined (src : JsString) : ∃ ls, Lined src ls := by
  -- by strong induction on the length, a line at a time
  induction hlength : src.length using Nat.strongRecOn generalizing src with
  | ind n ih =>
    rcases exists_first_line src with ⟨l, hl, rfl⟩ | ⟨l, t, rest, ht, hcr, rfl⟩
    · exact ⟨[l], .last hl⟩
    · have hshorter : rest.length < n := by
        have hpos := t.length_pos
        rw [← hlength, Line.units, ht, Option.map_some, Option.getD_some, List.length_append,
          List.length_append]
        omega
      obtain ⟨ls, hls⟩ := ih _ hshorter rest rfl
      exact ⟨l :: ls, .cons ht hcr hls⟩

end

/-! ## Positions in lines -/

/-- A position lies in a line, which comes after others. -/
structure Line.Holds (before : List Line) (l : Line) (position : ℕ) : Prop where
  start : extent before ≤ position
  stop : position ≤ l.endFrom (extent before)

section

variable {src : JsString} {before ls more : List Line} {l : Line} {t : Terminator} {i e p : ℕ}

@[simp] theorem extent_nil : extent [] = 0 := rfl

@[simp] theorem extent_cons : extent (l :: ls) = l.units.length + extent ls := by
  simp [extent]

@[simp] theorem extent_append : extent (ls ++ more) = extent ls + extent more := by
  simp [extent]

theorem Line.units_of_some (h : l.terminator = some t) : l.units = l.content ++ t.units := by
  rw [Line.units, h, Option.map_some, Option.getD_some]

theorem Line.units_of_none (h : l.terminator = none) : l.units = l.content := by
  rw [Line.units, h, Option.map_none, Option.getD_none, List.append_nil]

theorem Line.endFrom_of_some (h : l.terminator = some t) (i : ℕ) :
    l.endFrom i + 1 = i + l.units.length := by
  have hpos := t.length_pos
  rw [Line.endFrom, h, Option.isSome_some, if_pos rfl, Line.units_of_some h, List.length_append]
  omega

theorem Line.le_endFrom (l : Line) (i : ℕ) : i ≤ l.endFrom i := by
  cases h : l.terminator with
  | none => rw [Line.endFrom, h]; exact Nat.le_add_right _ _
  | some t =>
    have hend := Line.endFrom_of_some h i
    have hpos := t.length_pos
    rw [Line.units_of_some h, List.length_append] at hend
    omega

theorem Line.endFrom_le (l : Line) (i : ℕ) : l.endFrom i ≤ i + l.units.length := by
  rw [Line.endFrom]
  split_ifs <;> omega

theorem Lined.flatMap_units (h : Lined src ls) : ls.flatMap Line.units = src := by
  induction h with
  | last hl => simp [Line.units_of_none hl]
  | cons ht hcr _ ih => rw [List.flatMap_cons, ih]

/-- Every line but the last has a terminator. -/
theorem Lined.terminated (h : Lined src (before ++ l :: more)) :
    ∀ b ∈ before, ∃ t, b.terminator = some t := by
  induction before generalizing src with
  | nil => exact nofun
  | cons b before ih =>
    rw [List.cons_append] at h
    generalize hls : before ++ l :: more = ls at h
    cases h with
    | last hl => simp at hls
    | cons ht hcr hrest => exact List.forall_mem_cons.mpr ⟨⟨_, ht⟩, ih (hls ▸ hrest)⟩

/-- The last line has none. -/
theorem Lined.exists_last (h : Lined src ls) :
    ∃ before l, ls = before ++ [l] ∧ l.terminator = none := by
  induction h with
  | @last l hl => exact ⟨[], l, rfl, hl⟩
  | @cons l t rest ls ht hcr _ ih =>
    obtain ⟨before, last, rfl, hlast⟩ := ih
    exact ⟨l :: before, last, rfl, hlast⟩

theorem endsOf_append (i : ℕ) (ls more : List Line) :
    endsOf i (ls ++ more) = endsOf i ls ++ endsOf (i + extent ls) more := by
  induction ls generalizing i with
  | nil => rfl
  | cons l ls ih =>
    rw [List.cons_append, endsOf, ih, endsOf, extent_cons, Nat.add_assoc, List.cons_append]

@[simp] theorem length_endsOf (i : ℕ) (ls : List Line) : (endsOf i ls).length = ls.length := by
  induction ls generalizing i with
  | nil => rfl
  | cons l ls ih => rw [endsOf, List.length_cons, ih, List.length_cons]

theorem le_of_mem_endsOf (h : e ∈ endsOf i ls) : i ≤ e := by
  induction ls generalizing i with
  | nil => cases h
  | cons l ls ih =>
    rcases List.mem_cons.mp h with rfl | h
    · exact l.le_endFrom i
    · have := ih h
      omega

/-- Lines with terminators end before those behind them begin. -/
theorem lt_of_mem_endsOf (hls : ∀ b ∈ ls, ∃ t, b.terminator = some t) (h : e ∈ endsOf i ls) :
    e < i + extent ls := by
  induction ls generalizing i with
  | nil => cases h
  | cons l ls ih =>
    obtain ⟨⟨t, ht⟩, hrest⟩ := List.forall_mem_cons.mp hls
    rw [extent_cons]
    rcases List.mem_cons.mp h with rfl | h
    · have hend := Line.endFrom_of_some ht i
      omega
    · have := ih hrest h
      omega

/-- The line that holds a position. -/
theorem Lined.exists_holds (h : Lined src ls) (hp : p ≤ src.length) :
    ∃ before l after, ls = before ++ l :: after ∧ l.Holds before p := by
  induction h generalizing p with
  | @last l hl =>
    refine ⟨[], l, [], rfl, Nat.zero_le _, ?_⟩
    rwa [Line.endFrom, hl, Line.units_of_none hl, extent_nil, Nat.zero_add]
  | @cons l t rest ls ht hcr _ ih =>
    have hend := Line.endFrom_of_some ht 0
    rw [Nat.zero_add] at hend
    by_cases hfirst : p ≤ l.endFrom 0
    · exact ⟨[], l, ls, rfl, Nat.zero_le _, hfirst⟩
    · -- behind the first line
      rw [List.length_append] at hp
      obtain ⟨before, l', after, rfl, hstart, hstop⟩ := ih (p := p - l.units.length) (by omega)
      refine ⟨l :: before, l', after, rfl, ?_, ?_⟩
      · rw [extent_cons]
        omega
      · have hshift : l'.endFrom (l.units.length + extent before) =
            l.units.length + l'.endFrom (extent before) := by
          unfold Line.endFrom
          have hpos : ∀ t, l'.terminator = some t → 0 < l'.units.length := by
            intro t ht
            have := t.length_pos
            rw [Line.units_of_some ht, List.length_append]
            omega
          cases hl' : l'.terminator with
          | none => simp only [Option.isSome_none, Bool.false_eq_true, if_false]; omega
          | some t =>
            have := hpos t hl'
            simp only [Option.isSome_some, if_true]
            omega
        rw [extent_cons, hshift]
        omega

end

end NodeMini.Strings
