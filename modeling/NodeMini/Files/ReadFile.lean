import Mathlib
import NodeMini.Lib.CString
import NodeMini.Lib.Stdio
import NodeMini.Native.World

/-!
# `ReadFile`

`ReadFile` asks for the size of a file, reads in a loop until that many bytes have
arrived, and makes a string of the buffer. The size passes through three types: `long`
from `ftell`, `size_t` for the buffer and `int` for V8. The size and what the stream
delivers are independent: the file may change, or its size may not be known. `fopen` also
opens a directory, whose size is the largest there is.

A string is represented by the bytes it was decoded from.

## Main definitions

* `FileStream` — the size reported for an open file, whether there is memory for it, and what
  its stream delivers
* `readLoop` — the read loop
* `newFromUtf8` — `String::NewFromUtf8` with an explicit length
* `readFile`, `Shell.readFile` — the function in `xnode.cc`, and its twin in `shell.cc`

## Main results

* `readLoop_inv` — the buffer holds what the stream delivered
* `readFile_of_not_allocates` — without memory for the buffer the process ends
* `readFile_ends_iff` — the loop ends exactly if the stream fails or delivers enough
* `readFileLaw_iff` — the result is all or nothing exactly if there is memory and the size
  survives the conversions
-/

namespace NodeMini

open Lib

/-- Conversion to `size_t`. -/
def toSizeT (x : ℤ) : ℕ := (x % 2 ^ 64).toNat

/-- The length of the array, `size + 1` in `size_t`. -/
def arrayLength (ftell : ℤ) : ℕ := (toSizeT ftell + 1) % 2 ^ 64

/-- An open file: what `ftell` returns after seeking to the end, whether `new char[size + 1]`
finds memory, and what the stream delivers after rewinding. No array is longer than
`PTRDIFF_MAX`. -/
structure FileStream where
  ftell : ℤ
  ftell_range : -1 ≤ ftell ∧ ftell < 2 ^ 63
  allocates : Bool
  allocates_lt : allocates = true → arrayLength ftell < 2 ^ 63
  chunks : List Chunk

/-- `static_cast<int>`. -/
def toInt (size : ℕ) : ℤ := Int.bmod size (2 ^ 32)

/-- The state of the read loop: the index `i`, the bytes stored so far, the target ranges
given to `fread` as offset and length, and the stream. -/
structure Reading where
  i : ℕ
  chars : List UInt8
  targets : List (ℕ × ℕ)
  stream : List Chunk

/-- How the read loop stands after a number of iterations. -/
inductive LoopExit
  | running
  | failed
  | finished
  deriving DecidableEq, Repr

/-- The loop before its first iteration. -/
def Reading.start (stream : List Chunk) : Reading := ⟨0, [], [], stream⟩

/-- The body of the loop, up to the test of `ferror`. -/
def Reading.step (size : ℕ) (s : Reading) : Reading where
  i := s.i + (fread (size - s.i) s.stream).bytes.length
  chars := s.chars ++ (fread (size - s.i) s.stream).bytes
  targets := s.targets ++ [(s.i, size - s.i)]
  stream := (fread (size - s.i) s.stream).rest

/-- The read loop, for at most `fuel` iterations. -/
def readLoop (size : ℕ) (fuel : ℕ) (s : Reading) : LoopExit × Reading :=
  if s.i < size then
    match fuel with
    | 0 => (.running, s)
    | fuel + 1 =>
      if (fread (size - s.i) s.stream).error then (.failed, s.step size)
      else readLoop size fuel (s.step size)
  else (.finished, s)

/-- `i::String::kMaxLength`, on a 64-bit machine. -/
def kMaxLength : ℤ := 2 ^ 29 - 24

/-- `i::kMaxInt`. -/
def kMaxInt : ℤ := 2 ^ 31 - 1

/-- `strlen`. -/
def strlen (data : List UInt8) : ℕ := (CString.ofBuffer data).bytes.length

/-- `String::NewFromUtf8` on the buffer `data`. A negative length stands for the length up
to the terminator, which `StringLength` checks. -/
def newFromUtf8 (data : List UInt8) (length : ℤ) : Except Halt (Option (List UInt8)) :=
  if length = 0 then .ok (some [])
  else if length > kMaxLength then .ok none
  else if length < 0 then do
    check (strlen data ≤ kMaxInt)
    return some (data.take (strlen data))
  else return some (data.take length.toNat)

/-- `ReadFile` after its loop. The buffer holds the bytes read and the terminator. -/
def afterLoop (size : ℕ) : LoopExit × Reading → Except Halt (Option (List UInt8))
  | (.running, _) => .error .running
  | (.failed, _) => .ok none
  | (.finished, s) => newFromUtf8 (s.chars ++ [0]) (toInt size)

/-- `xnode::ReadFile`; the file is `none` when `fopen` fails. -/
def readFile (fuel : ℕ) : Option FileStream → Except Halt (Option (List UInt8))
  | none => .ok none
  | some file =>
    let size := toSizeT file.ftell
    -- `new` throws, and nothing catches this
    if !file.allocates then .error .badAlloc
    else afterLoop size (readLoop size fuel (.start file.chunks))

/-- `ReadFile` of `shell.cc`. It has the same body; it takes the name as a C string and
frees the buffer itself. -/
def Shell.readFile (fuel : ℕ) (file : Option FileStream) : Except Halt (Option (List UInt8)) :=
  NodeMini.readFile fuel file

/-! ## The loop -/

/-- The loop invariant: the buffer holds the first `i` bytes delivered, and every target
range ends with the size. -/
structure Reading.Inv (size : ℕ) (content : List UInt8) (s : Reading) : Prop where
  length : s.chars.length = s.i
  le_size : s.i ≤ size
  prefix_content : s.chars ++ delivered s.stream = content
  targets : ∀ t ∈ s.targets, t.1 + t.2 = size

section Loop

variable {size fuel : ℕ} {content : List UInt8} {s s' : Reading}

theorem Reading.inv_start (stream : List Chunk) :
    Reading.Inv size (delivered stream) (.start stream) where
  length := rfl
  le_size := Nat.zero_le size
  prefix_content := rfl
  targets := nofun

/-- An iteration stores the next bytes delivered. -/
theorem Reading.Inv.step (h : s.Inv size content) (hi : s.i < size) :
    (s.step size).Inv size content where
  length := by simp [Reading.step, h.length]
  le_size := by
    have hle : (fread (size - s.i) s.stream).bytes.length ≤ size - s.i := length_fread_le
    have hlt := h.le_size
    simp only [Reading.step]
    omega
  prefix_content := by
    rw [Reading.step, List.append_assoc, delivered_fread, h.prefix_content]
  targets := by
    intro t ht
    rcases List.mem_append.mp ht with hold | hnew
    · exact h.targets t hold
    · obtain rfl := List.mem_singleton.mp hnew
      exact Nat.add_sub_cancel' h.le_size

/-! The cases of the following proofs are those of the loop: the budget is spent, the call
reports an error, the loop goes on, the loop condition is false. -/

/-- The invariant holds however far the loop has come. -/
theorem readLoop_inv (h : s.Inv size content) : (readLoop size fuel s).2.Inv size content := by
  fun_induction readLoop size fuel s with
  | case1 s hi => exact h
  | case2 s hi fuel herror => exact h.step hi
  | case3 s hi fuel herror ih => exact ih (h.step hi)
  | case4 fuel s hi => exact h

/-- The loop finishes with the full size. -/
theorem i_eq_size_of_finished (h : s.Inv size content)
    (hfinished : (readLoop size fuel s).1 = .finished) : (readLoop size fuel s).2.i = size := by
  fun_induction readLoop size fuel s with
  | case1 s hi => cases hfinished
  | case2 s hi fuel herror => cases hfinished
  | case3 s hi fuel herror ih => exact ih (h.step hi) hfinished
  | case4 fuel s hi => exact Nat.le_antisymm h.le_size (Nat.le_of_not_lt hi)

/-- A stream that fails or delivers enough ends the loop: each iteration brings a byte or
an error. -/
theorem readLoop_ends (hfuel : size - s.i ≤ fuel)
    (h : fails s.stream ∨ size ≤ s.i + (delivered s.stream).length) :
    (readLoop size fuel s).1 ≠ .running := by
  fun_induction readLoop size fuel s with
  | case1 s hi => omega
  | case2 s hi fuel herror => simp
  | case3 s hi fuel herror ih =>
    -- a stream at its end has nothing left to deliver or to report
    have hstream : s.stream ≠ [] := by
      intro hend
      rw [hend] at h
      have : size ≤ s.i := by simpa [fails, delivered] using h
      omega
    have hbytes := (fread_progress (Nat.sub_pos_of_lt hi) hstream).resolve_right herror
    apply ih
    · -- at least one byte has been stored, so one iteration less is needed
      simp only [Reading.step]
      omega
    · rw [fails_fread (n := size - s.i), Bool.eq_false_iff.mpr herror, Bool.false_or,
        ← delivered_fread (n := size - s.i), List.length_append, ← Nat.add_assoc] at h
      exact h
  | case4 fuel s hi => simp

/-- A stream that does neither keeps the loop running. -/
theorem readLoop_runs (hfails : fails s.stream = false)
    (h : s.i + (delivered s.stream).length < size) : (readLoop size fuel s).1 = .running := by
  fun_induction readLoop size fuel s with
  | case1 s hi => rfl
  | case2 s hi fuel herror =>
    rw [fails_fread (n := size - s.i), herror] at hfails
    cases hfails
  | case3 s hi fuel herror ih =>
    -- the hypotheses hold of the stream after the call
    rw [fails_fread (n := size - s.i), Bool.or_eq_false_iff] at hfails
    rw [← delivered_fread (n := size - s.i), List.length_append, ← Nat.add_assoc] at h
    exact ih hfails.2 h
  | case4 fuel s hi => omega

/-- A stream without errors never makes the loop fail. -/
theorem readLoop_ne_failed (h : fails s.stream = false) : (readLoop size fuel s).1 ≠ .failed := by
  fun_induction readLoop size fuel s with
  | case1 s hi => simp
  | case2 s hi fuel herror =>
    rw [fails_fread (n := size - s.i), herror] at h
    cases h
  | case3 s hi fuel herror ih =>
    rw [fails_fread (n := size - s.i), Bool.or_eq_false_iff] at h
    exact ih h.2
  | case4 fuel s hi => simp

/-- The loop ends exactly if the stream fails or delivers enough. -/
theorem readLoop_ends_iff (stream : List Chunk) :
    (∃ fuel, (readLoop size fuel (.start stream)).1 ≠ .running) ↔
      fails stream ∨ size ≤ (delivered stream).length := by
  constructor
  · rintro ⟨fuel, hends⟩
    by_contra hcon
    rw [not_or, Bool.not_eq_true, Nat.not_le] at hcon
    refine hends (readLoop_runs hcon.1 ?_)
    simpa [Reading.start] using hcon.2
  · intro h
    exact ⟨size, readLoop_ends (Nat.sub_le ..) (by simpa [Reading.start] using h)⟩

end Loop

/-! ## Termination -/

section Termination

variable {fuel : ℕ} {file : FileStream}

/-- Without memory for the buffer, the process ends. -/
theorem readFile_of_not_allocates (h : file.allocates = false) :
    readFile fuel (some file) = .error .badAlloc := by
  rw [readFile, h]
  rfl

theorem readFile_of_allocates (h : file.allocates = true) :
    readFile fuel (some file) =
      afterLoop (toSizeT file.ftell) (readLoop (toSizeT file.ftell) fuel (.start file.chunks)) := by
  rw [readFile, h]
  rfl

theorem newFromUtf8_ne_running (data : List UInt8) (length : ℤ) :
    newFromUtf8 data length ≠ .error .running := by
  unfold newFromUtf8 check
  split_ifs <;> simp [bind, Except.bind, pure, Except.pure]

theorem afterLoop_running_iff {size : ℕ} {r : LoopExit × Reading} :
    afterLoop size r = .error .running ↔ r.1 = .running := by
  obtain ⟨exit, s⟩ := r
  cases exit with
  | running => exact iff_of_true rfl rfl
  | failed => exact iff_of_false nofun nofun
  | finished => exact iff_of_false (newFromUtf8_ne_running _ _) nofun

/-- `ReadFile` is running exactly while its loop is, which it comes to with a buffer only. -/
theorem readFile_running_iff :
    readFile fuel (some file) = .error .running ↔ file.allocates = true ∧
      (readLoop (toSizeT file.ftell) fuel (.start file.chunks)).1 = .running := by
  cases hallocates : file.allocates with
  | false =>
    rw [readFile_of_not_allocates hallocates]
    exact iff_of_false nofun fun h => Bool.false_ne_true h.1
  | true => rw [readFile_of_allocates hallocates, afterLoop_running_iff, and_iff_right rfl]

theorem readFile_ends (file : FileStream) :
    (∃ fuel, readFile fuel (some file) ≠ .error .running) ↔ file.allocates = false ∨
      fails file.chunks ∨ toSizeT file.ftell ≤ (delivered file.chunks).length := by
  simp only [ne_eq, readFile_running_iff, not_and_or, Bool.not_eq_true, exists_or, exists_const]
  exact or_congr_right (readLoop_ends_iff file.chunks)

/-- **`ReadFile` ends exactly if its loop is not reached, or the stream fails or delivers
enough.** For any size reported and any behaviour of the stream, the read loop ends if and only
if a read error is coming or at least the reported number of bytes is. A stream that ends early
keeps it running: at the end `fread` returns zero and `ferror` stays false. -/
theorem readFile_ends_iff (file : FileStream) :
    ((∃ fuel, readFile fuel (some file) ≠ .error .running) ↔ file.allocates = false ∨
      fails file.chunks ∨ toSizeT file.ftell ≤ (delivered file.chunks).length) ∧
    ((∃ fuel, Shell.readFile fuel (some file) ≠ .error .running) ↔ file.allocates = false ∨
      fails file.chunks ∨ toSizeT file.ftell ≤ (delivered file.chunks).length) :=
  ⟨readFile_ends file, readFile_ends file⟩

/-- A file of one byte that is truncated before it is read. -/
def truncatedFile : FileStream := ⟨1, by decide, true, fun _ => by decide, []⟩

/-- The loop runs on at the end of a truncated file. -/
theorem readFile_truncated :
    (¬ ∃ fuel, readFile fuel (some truncatedFile) ≠ .error .running) ∧
      ¬ ∃ fuel, Shell.readFile fuel (some truncatedFile) ≠ .error .running := by
  have hrunning : ∀ fuel, readFile fuel (some truncatedFile) = .error .running := by
    intro fuel
    have hruns : (readLoop 1 fuel (.start [])).1 = .running :=
      readLoop_runs rfl Nat.zero_lt_one
    exact readFile_running_iff.mpr ⟨rfl, hruns⟩
  constructor
  · rintro ⟨fuel, hends⟩
    exact hends (hrunning fuel)
  · rintro ⟨fuel, hends⟩
    exact hends (hrunning fuel)

end Termination

/-! ## All or nothing -/

/-- The stream delivers `content`, all of it, and the file is as long as reported. -/
structure FileStream.Delivers (file : FileStream) (content : List UInt8) : Prop where
  noError : fails file.chunks = false
  delivered : delivered file.chunks = content
  length : 0 ≤ file.ftell → content.length = file.ftell

/-- What a caller relies on: the addition does not wrap, the terminator and every target of
`fread` lie in the buffer, and the result is empty or made of the whole content. -/
structure ReadFileLaw (file : FileStream) (content : List UInt8)
    (readFile : ℕ → Option FileStream → Except Halt (Option (List UInt8))) : Prop where
  noWrap : toSizeT file.ftell + 1 < 2 ^ 64
  terminator : toSizeT file.ftell < arrayLength file.ftell
  targets : ∀ fuel, ∀ t ∈ (readLoop (toSizeT file.ftell) fuel (.start file.chunks)).2.targets,
    t.1 + t.2 ≤ arrayLength file.ftell
  whole : ∃ fuel r, readFile fuel (some file) = .ok r ∧ (r = none ∨ r = some content)

section Law

variable {fuel : ℕ} {file : FileStream} {content : List UInt8}

theorem toSizeT_of_nonneg (h : 0 ≤ file.ftell) : (toSizeT file.ftell : ℤ) = file.ftell := by
  have hlt := file.ftell_range.2
  unfold toSizeT
  omega

theorem FileStream.Delivers.toSizeT_eq (h : file.Delivers content) (hnonneg : 0 ≤ file.ftell) :
    toSizeT file.ftell = content.length := by
  apply Int.ofNat_inj.mp
  rw [toSizeT_of_nonneg hnonneg, h.length hnonneg]

/-- A size that cannot be told leaves no room for the terminator. -/
theorem toSizeT_of_neg (h : file.ftell < 0) : toSizeT file.ftell = 2 ^ 64 - 1 := by
  have hlow := file.ftell_range.1
  have hminus : file.ftell = -1 := by omega
  rw [hminus]
  rfl

/-- With a stream that delivers the file, the buffer holds the whole content when the loop
has ended. -/
theorem readLoop_delivers (h : file.Delivers content) (hsize : toSizeT file.ftell = content.length)
    (hends : (readLoop (toSizeT file.ftell) fuel (.start file.chunks)).1 ≠ .running) :
    ∃ s, readLoop (toSizeT file.ftell) fuel (.start file.chunks) = (.finished, s) ∧
      s.chars = content := by
  have hstart : (Reading.start file.chunks).Inv (toSizeT file.ftell) content := by
    rw [← h.delivered]
    exact Reading.inv_start file.chunks
  have hinv : (readLoop (toSizeT file.ftell) fuel (.start file.chunks)).2.Inv
      (toSizeT file.ftell) content := readLoop_inv hstart
  have hfailed : (readLoop (toSizeT file.ftell) fuel (.start file.chunks)).1 ≠ .failed := by
    apply readLoop_ne_failed
    exact h.noError
  have hi : (readLoop (toSizeT file.ftell) fuel (.start file.chunks)).1 = .finished →
      (readLoop (toSizeT file.ftell) fuel (.start file.chunks)).2.i = toSizeT file.ftell :=
    i_eq_size_of_finished hstart
  generalize readLoop (toSizeT file.ftell) fuel (.start file.chunks) = r at *
  obtain ⟨exit, s⟩ := r
  cases exit with
  | running => exact absurd rfl hends
  | failed => exact absurd rfl hfailed
  | finished =>
    refine ⟨s, rfl, ?_⟩
    -- as many bytes are stored as there are, so nothing is left in the stream
    have hlength : s.chars.length = content.length := by
      rw [hinv.length, hi rfl, hsize]
    have hprefix : s.chars <+: content := ⟨_, hinv.prefix_content⟩
    exact hprefix.eq_of_length hlength

theorem readFile_delivers (h : file.Delivers content) (hallocates : file.allocates = true)
    (hsize : toSizeT file.ftell = content.length)
    (hends : readFile fuel (some file) ≠ .error .running) :
    readFile fuel (some file) = newFromUtf8 (content ++ [0]) (toInt content.length) := by
  obtain ⟨s, hloop, hchars⟩ := readLoop_delivers h hsize fun hrunning =>
    hends (readFile_running_iff.mpr ⟨hallocates, hrunning⟩)
  rw [readFile_of_allocates hallocates, hloop, afterLoop, hchars, hsize]

theorem toInt_of_le {size : ℕ} (h : (size : ℤ) ≤ kMaxInt) : toInt size = size := by
  unfold kMaxInt at h
  exact Int.bmod_eq_of_le_mul_two (by omega) (by omega)

theorem toInt_le (size : ℕ) : toInt size ≤ kMaxInt := by
  have hlt : toInt size < (2 ^ 32 + 1) / 2 := Int.bmod_lt (by decide)
  unfold kMaxInt
  omega

theorem newFromUtf8_of_le (data : List UInt8) {n : ℕ} (h : (n : ℤ) ≤ kMaxLength) :
    newFromUtf8 data n = .ok (some (data.take n)) := by
  unfold newFromUtf8
  by_cases h0 : n = 0
  · subst h0
    rfl
  · rw [if_neg (by omega), if_neg (by omega), if_neg (by omega)]
    rfl

theorem newFromUtf8_of_lt (data : List UInt8) {length : ℤ} (h : kMaxLength < length) :
    newFromUtf8 data length = .ok none := by
  have hpos : length ≠ 0 := by
    rintro rfl
    exact absurd h (by decide)
  rw [newFromUtf8, if_neg hpos, if_pos h]

/-- After a negative length no more than `INT_MAX` bytes are decoded. -/
theorem newFromUtf8_of_neg {data : List UInt8} {length : ℤ} {r : Option (List UInt8)}
    (h : length < 0) (hr : newFromUtf8 data length = .ok r) :
    ∃ n : ℕ, n ≤ kMaxInt ∧ r = some (data.take n) := by
  have hlong : ¬ length > kMaxLength := by
    unfold kMaxLength
    omega
  rw [newFromUtf8, if_neg (Int.ne_of_lt h), if_neg hlong, if_pos h] at hr
  obtain ⟨⟨⟩, hcheck, hr⟩ := except_bind_eq_ok.mp hr
  exact ⟨_, of_decide_eq_true (check_eq_ok.mp hcheck), (Except.ok.inj hr).symm⟩

/-- The conversion of a buffer that holds the content gives nothing or the whole exactly
if the length survives the cast, or is still above V8's limit after it. -/
theorem newFromUtf8_whole_iff :
    (∃ r, newFromUtf8 (content ++ [0]) (toInt content.length) = .ok r ∧
      (r = none ∨ r = some content)) ↔
    (content.length ≤ kMaxInt ∨ kMaxLength < toInt content.length) := by
  by_cases hlong : kMaxLength < toInt content.length
  · exact iff_of_true ⟨none, newFromUtf8_of_lt _ hlong, Or.inl rfl⟩ (Or.inr hlong)
  by_cases hmax : (content.length : ℤ) ≤ kMaxInt
  · -- the length survives the cast
    refine iff_of_true ⟨some content, ?_, Or.inr rfl⟩ (Or.inl hmax)
    rw [toInt_of_le hmax] at hlong ⊢
    rw [newFromUtf8_of_le _ (Int.not_lt.mp hlong), List.take_left]
  · -- what is decoded is shorter than the content
    refine iff_of_false ?_ (not_or.mpr ⟨hmax, hlong⟩)
    rintro ⟨r, hr, hresult⟩
    have hshort : ∃ n : ℕ, n ≤ kMaxInt ∧ r = some ((content ++ [0]).take n) := by
      by_cases hneg : toInt content.length < 0
      · exact newFromUtf8_of_neg hneg hr
      · obtain ⟨n, hn⟩ := Int.eq_ofNat_of_zero_le (Int.not_lt.mp hneg)
        have hle := toInt_le content.length
        rw [hn] at hr hlong hle
        rw [newFromUtf8_of_le _ (Int.not_lt.mp hlong)] at hr
        exact ⟨n, hle, (Except.ok.inj hr).symm⟩
    obtain ⟨n, hn, rfl⟩ := hshort
    rcases hresult with hnone | hwhole
    · cases hnone
    -- at most `INT_MAX` bytes cannot be all of a longer content
    have hlength := congrArg List.length (Option.some.inj hwhole)
    rw [List.length_take, List.length_append, List.length_singleton] at hlength
    omega

/-- The file's size is reported, and survives the conversions: it fits an `int`, or its
low 32 bits, read as an `int`, are above V8's limit. -/
def FileStream.SizeSurvives (file : FileStream) : Prop :=
  0 ≤ file.ftell ∧ (file.ftell ≤ kMaxInt ∨ kMaxLength < Int.bmod file.ftell (2 ^ 32))

/-- The buffer has room for everything once the size is known. -/
theorem arrayLength_of_nonneg (h : 0 ≤ file.ftell) :
    arrayLength file.ftell = toSizeT file.ftell + 1 := by
  have hlt := file.ftell_range.2
  have hsize := toSizeT_of_nonneg h
  exact Nat.mod_eq_of_lt (by omega)

theorem readFileLaw_of_nonneg_iff (h : file.Delivers content) (hallocates : file.allocates = true)
    (hnonneg : 0 ≤ file.ftell) :
    ReadFileLaw file content readFile ↔
      (content.length ≤ kMaxInt ∨ kMaxLength < toInt content.length) := by
  have hsize := h.toSizeT_eq hnonneg
  have hroom := arrayLength_of_nonneg hnonneg
  rw [← newFromUtf8_whole_iff]
  constructor
  · intro hlaw
    obtain ⟨fuel, r, hr, hresult⟩ := hlaw.whole
    have hends : readFile fuel (some file) ≠ .error .running := by
      rw [hr]
      nofun
    exact ⟨r, readFile_delivers h hallocates hsize hends ▸ hr, hresult⟩
  · rintro ⟨r, hr, hresult⟩
    refine ⟨?_, ?_, ?_, ?_⟩
    · have := file.ftell_range.2
      have := toSizeT_of_nonneg hnonneg
      omega
    · rw [hroom]
      exact Nat.lt_succ_self _
    · intro fuel t ht
      rw [hroom, (readLoop_inv (Reading.inv_start file.chunks)).targets t ht]
      exact Nat.le_succ _
    · -- the stream delivers as much as was reported, so the loop ends
      obtain ⟨fuel, hends⟩ := (readFile_ends file).mpr
        (Or.inr (Or.inr (by rw [hsize, h.delivered])))
      exact ⟨fuel, r, readFile_delivers h hallocates hsize hends ▸ hr, hresult⟩

/-- **`ReadFile` is all or nothing, and in bounds**, and exactly when it is. For any
reported size and any way of delivering the content in pieces, the law holds if and only
if there is memory for the buffer and the size survives the conversions. -/
theorem readFileLaw_iff (file : FileStream) (content : List UInt8) (h : file.Delivers content) :
    (ReadFileLaw file content readFile ↔ file.allocates = true ∧ file.SizeSurvives) ∧
    (ReadFileLaw file content Shell.readFile ↔ file.allocates = true ∧ file.SizeSurvives) := by
  have hlaw : ReadFileLaw file content readFile ↔ file.allocates = true ∧ file.SizeSurvives := by
    by_cases hallocates : file.allocates = true
    swap
    · refine iff_of_false (fun hlaw => ?_) fun hsurvives => hallocates hsurvives.1
      -- nothing is returned
      obtain ⟨fuel, r, hr, -⟩ := hlaw.whole
      rw [readFile_of_not_allocates (Bool.eq_false_iff.mpr hallocates)] at hr
      cases hr
    rw [and_iff_right hallocates]
    by_cases hnonneg : 0 ≤ file.ftell
    · rw [readFileLaw_of_nonneg_iff h hallocates hnonneg, FileStream.SizeSurvives,
        and_iff_right hnonneg]
      unfold toInt
      rw [h.length hnonneg]
    · refine iff_of_false ?_ fun hsurvives => hnonneg hsurvives.1
      intro hlaw
      -- `size + 1` has wrapped to zero
      have hwrap := hlaw.noWrap
      rw [toSizeT_of_neg (Int.not_le.mp hnonneg)] at hwrap
      exact absurd hwrap (by decide)
  exact ⟨hlaw, hlaw⟩

/-- A file that is delivered in one piece, with enough memory. -/
def FileStream.whole (content : List UInt8) (h : content ≠ [])
    (hlength : content.length < 2 ^ 62) : FileStream where
  ftell := content.length
  ftell_range := by omega
  allocates := true
  allocates_lt _ := by
    unfold arrayLength toSizeT
    omega
  chunks := [⟨content, false, Or.inl h⟩]

theorem FileStream.whole_delivers (h : content ≠ []) (hlength : content.length < 2 ^ 62) :
    (whole content h hlength).Delivers content where
  noError := rfl
  delivered := List.append_nil content
  length _ := rfl

/-- One call of `fread` is enough for it. -/
theorem readFile_whole (h : content ≠ []) (hlength : content.length < 2 ^ 62)
    (hsize : content.length ≤ kMaxLength) :
    readFile (fuel + 1) (some (.whole content h hlength)) = .ok (some content) := by
  have hdelivers := FileStream.whole_delivers h hlength
  have hends : readFile (fuel + 1) (some (.whole content h hlength)) ≠ .error .running := by
    rw [Ne, readFile_running_iff, not_and]
    intro _
    rw [hdelivers.toSizeT_eq (Int.natCast_nonneg _)]
    have hpos : 0 < content.length := List.length_pos_iff.mpr h
    have hfull : ∀ targets, (readLoop content.length fuel
        ⟨content.length, content, targets, []⟩).1 = .finished := by
      intro targets
      unfold readLoop
      rw [if_neg (Nat.lt_irrefl _)]
    simp [readLoop, Reading.start, Reading.step, FileStream.whole, fread, hpos, hfull]
  have hint : (content.length : ℤ) ≤ kMaxInt := by
    unfold kMaxLength at hsize
    unfold kMaxInt
    omega
  rw [readFile_delivers hdelivers rfl (hdelivers.toSizeT_eq (Int.natCast_nonneg _)) hends,
    toInt_of_le hint, newFromUtf8_of_le _ hsize, List.take_left]

/-- Four gibibytes of spaces. -/
def fourGiB : List UInt8 := List.replicate (2 ^ 32) 0x20

theorem length_fourGiB : fourGiB.length = 2 ^ 32 := List.length_replicate

theorem fourGiB_ne_nil : fourGiB ≠ [] := by
  rw [← List.length_pos_iff, length_fourGiB]
  decide

/-- A pipe has no size, and the length of a file of four gibibytes is cast to zero. -/
theorem not_readFileLaw :
    ¬ ReadFileLaw ⟨-1, by decide, true, fun _ => by decide, []⟩ [] readFile ∧
    ¬ ReadFileLaw (.whole fourGiB fourGiB_ne_nil (by rw [length_fourGiB]; decide)) fourGiB
      readFile := by
  constructor
  · intro hlaw
    exact absurd hlaw.noWrap (by decide)
  · intro hlaw
    have hsize := (readFileLaw_of_nonneg_iff (FileStream.whole_delivers _ _) rfl
      (Int.natCast_nonneg _)).mp hlaw
    simp only [length_fourGiB] at hsize
    exact absurd hsize (by decide)

theorem readFileLaw_one_byte :
    ReadFileLaw (.whole [0x31] (by decide) (by decide)) [0x31] readFile :=
  (readFileLaw_iff _ _ (FileStream.whole_delivers _ _)).1.mpr
    ⟨rfl, by decide, Or.inl (by decide)⟩

end Law

end NodeMini
