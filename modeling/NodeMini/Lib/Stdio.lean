import NodeMini.Lib.Lines

/-!
# Reading from a C stream

`fread` stores up to the requested number of bytes. What one call delivers is decided by
the stream: the bytes may arrive in pieces, a read error may cut a piece short, and when
the pieces have run out the stream is at its end and stays there. A call that delivers
nothing and reports no error happens at the end only; a piece without bytes and without
an error cannot be built.

`fgets` fills a buffer from an input that is there in full: it stops after a newline, when
the buffer is full, and at the end.

## Main definitions

* `Chunk` — a piece of a stream's future
* `fread` — one call
* `delivered`, `fails` — what is still to come
* `fgets`, `Reads` — one call, and the buffers that successive calls fill

## Main results

* `delivered_fread`, `fails_fread` — a call takes a piece of the future off
* `fread_progress` — a call makes progress except at the end
* `Reads.eq_lines`, `Reads.fits_of_length_eq` — the buffers are the lines exactly if every
  line fits
-/

namespace Lib

/-- A piece of what a stream will deliver, and whether a read error follows it. -/
structure Chunk where
  bytes : List UInt8
  failed : Bool
  live : bytes ≠ [] ∨ failed = true

/-- The result of `fread`: the bytes stored, `ferror` afterwards, and the stream's future. -/
structure FreadResult where
  bytes : List UInt8
  error : Bool
  rest : List Chunk

/-- `fread(ptr, 1, n, stream)`. A longer piece is delivered over several calls. -/
def fread (n : ℕ) : List Chunk → FreadResult
  | [] => ⟨[], false, []⟩
  | c :: cs =>
    if h : c.bytes.length ≤ n then ⟨c.bytes, c.failed, cs⟩
    -- the error of a longer piece is left for the call that takes its end
    else
      ⟨c.bytes.take n, false,
        ⟨c.bytes.drop n, c.failed, Or.inl (mt List.drop_eq_nil_iff.mp h)⟩ :: cs⟩

/-- The bytes a stream will deliver, read errors aside. -/
def delivered (cs : List Chunk) : List UInt8 := cs.flatMap Chunk.bytes

/-- Whether the stream will report a read error. -/
def fails (cs : List Chunk) : Bool := cs.any Chunk.failed

variable {n : ℕ} {cs : List Chunk}

theorem delivered_fread : (fread n cs).bytes ++ delivered (fread n cs).rest = delivered cs := by
  cases cs with
  | nil => rfl
  | cons c cs =>
    by_cases h : c.bytes.length ≤ n
    · simp [fread, h, delivered]
    · rw [fread, dif_neg h]
      simp only [delivered, List.flatMap_cons]
      rw [← List.append_assoc, List.take_append_drop]

theorem fails_fread : fails cs = ((fread n cs).error || fails (fread n cs).rest) := by
  cases cs with
  | nil => rfl
  | cons c cs =>
    by_cases h : c.bytes.length ≤ n <;> simp [fread, h, fails]

theorem length_fread_le : (fread n cs).bytes.length ≤ n := by
  cases cs with
  | nil => exact Nat.zero_le n
  | cons c cs =>
    by_cases h : c.bytes.length ≤ n
    · simp [fread, h]
    · rw [fread, dif_neg h]
      exact (List.length_take_le ..)

/-- Before the end of the stream, a call stores a byte or reports an error. -/
theorem fread_progress (hn : 0 < n) (hcs : cs ≠ []) :
    0 < (fread n cs).bytes.length ∨ (fread n cs).error = true := by
  cases cs with
  | nil => exact absurd rfl hcs
  | cons c cs =>
    by_cases h : c.bytes.length ≤ n
    · simp only [fread, h, dif_pos]
      exact c.live.imp List.length_pos_iff.mpr fun hfailed => hfailed
    · left
      rw [fread, dif_neg h, List.length_take_of_le (Nat.le_of_not_le h)]
      exact hn

/-! ## `fgets` -/

/-- `fgets(buffer, n, stream)`: the bytes stored in front of the terminator, and the rest of
the input; `none` for `NULL`. -/
def fgets (n : ℕ) (input : List UInt8) : Option (List UInt8 × List UInt8) :=
  if input = [] then none else some (takeLine 0x0a (n - 1) input)

/-- The buffers that calls of `fgets` fill until one returns `NULL`. -/
inductive Reads (n : ℕ) : List UInt8 → List (List UInt8) → Prop
  | nil {input : List UInt8} : fgets n input = none → Reads n input []
  | cons {input buffer rest : List UInt8} {buffers : List (List UInt8)} :
    fgets n input = some (buffer, rest) → Reads n rest buffers → Reads n input (buffer :: buffers)

section Fgets

variable {input buffer rest line : List UInt8} {buffers lines : List (List UInt8)}

theorem fgets_eq_none_iff : fgets n input = none ↔ input = [] := by
  simp [fgets]

theorem fgets_eq_some_iff :
    fgets n input = some (buffer, rest) ↔
      input ≠ [] ∧ takeLine 0x0a (n - 1) input = (buffer, rest) := by
  simp [fgets]

/-- Every call stores at least one byte, so the input runs out. -/
theorem exists_reads (hn : 1 < n) (input : List UInt8) : ∃ buffers, Reads n input buffers := by
  -- by strong induction on the length of the input
  induction hlength : input.length using Nat.strongRecOn generalizing input with
  | ind m ih =>
    by_cases hinput : input = []
    · exact ⟨[], .nil (fgets_eq_none_iff.mpr hinput)⟩
    · have hsplit : (takeLine 0x0a (n - 1) input).1 ++ (takeLine 0x0a (n - 1) input).2 = input :=
        takeLine_append (n - 1) input
      have hpos : 0 < (takeLine 0x0a (n - 1) input).1.length :=
        List.length_pos_iff.mpr (takeLine_ne_nil (Nat.sub_pos_of_lt hn) hinput)
      have hshorter : (takeLine 0x0a (n - 1) input).2.length < m := by
        have := congrArg List.length hsplit
        rw [List.length_append] at this
        omega
      obtain ⟨buffers, hreads⟩ := ih _ hshorter _ rfl
      exact ⟨_, .cons (fgets_eq_some_iff.mpr ⟨hinput, rfl⟩) hreads⟩

/-- A nonempty input has a first line. -/
theorem exists_linesOf_eq_cons (h : input ≠ []) :
    ∃ line lines, linesOf (0x0a : UInt8) input = line :: lines :=
  List.exists_cons_of_ne_nil (mt linesOf_eq_nil_iff.mp h)

/-- Lines that fit into the buffer are read one by one. -/
theorem Reads.eq_lines (h : Reads n input buffers)
    (hfit : ∀ line ∈ linesOf 0x0a input, line.length ≤ n - 1) :
    buffers = linesOf 0x0a input := by
  induction h with
  | nil hend => rw [fgets_eq_none_iff.mp hend, linesOf_nil]
  | cons hcall _ ih =>
    obtain ⟨hinput, htake⟩ := fgets_eq_some_iff.mp hcall
    obtain ⟨line, lines, hlines⟩ := exists_linesOf_eq_cons hinput
    -- the call takes the first line and leaves the others
    rw [hlines] at hfit ⊢
    obtain ⟨hfirst, hrest⟩ := takeLine_of_le hlines (hfit line List.mem_cons_self)
    rw [htake] at hfirst hrest
    dsimp only at hfirst hrest
    rw [ih fun l hl => hfit l (List.mem_cons_of_mem line (hrest ▸ hl)), hfirst, hrest]

/-- There are at least as many buffers as lines, and more if a line does not fit. -/
theorem Reads.length_le (h : Reads n input buffers) :
    (linesOf 0x0a input).length ≤ buffers.length ∧
      (buffers.length = (linesOf 0x0a input).length →
        ∀ line ∈ linesOf 0x0a input, line.length ≤ n - 1) := by
  induction h with
  | nil hend =>
    rw [fgets_eq_none_iff.mp hend]
    simp
  | cons hcall _ ih =>
    obtain ⟨hinput, htake⟩ := fgets_eq_some_iff.mp hcall
    obtain ⟨line, lines, hlines⟩ := exists_linesOf_eq_cons hinput
    rw [hlines]
    by_cases hline : line.length ≤ n - 1
    · obtain ⟨-, hrest⟩ := takeLine_of_le hlines hline
      rw [htake] at hrest
      rw [hrest] at ih
      refine ⟨Nat.succ_le_succ ih.1, fun hlength l hl => ?_⟩
      rcases List.mem_cons.mp hl with rfl | hl
      · exact hline
      · exact ih.2 (Nat.succ.inj hlength) l hl
    · -- the rest of the line is read by another call
      have hrest := linesOf_takeLine_of_lt hlines (Nat.not_le.mp hline)
      rw [htake] at hrest
      rw [hrest] at ih
      have hmore := ih.1
      simp only [List.length_cons] at hmore ⊢
      constructor
      · omega
      · intro hlength
        omega

theorem Reads.fits_of_length_eq (h : Reads n input buffers)
    (hlength : buffers.length = (linesOf 0x0a input).length) :
    ∀ line ∈ linesOf 0x0a input, line.length ≤ n - 1 :=
  h.length_le.2 hlength

end Fgets

end Lib
