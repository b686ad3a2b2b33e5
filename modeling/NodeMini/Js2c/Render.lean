import Mathlib
import NodeMini.Lib.Decimal
import NodeMini.Lib.Format
import NodeMini.Lib.Slices
import NodeMini.Lib.Utf8

/-!
# Embedded sources as C arrays

`Render` of `js2c.py` writes a source file as the definition of a C array with an external
string resource around it. ASCII data is written byte by byte; anything else is decoded
as UTF-8 and written as UTF-16 code units. The reader here takes a definition apart again:
it expects the declaration of the array and reads the numbers between the braces.

## Main definitions

* `toCArray`, `toCString`, `render` — the writers of `js2c.py`
* `oneByteString`, `twoByteString` — its two templates
* `readArray` — the element type and the elements of an emitted array
* `RenderLaw` — the emitted array holds the code units of the data's text

## Main results

* `readList_toCArray` — a list survives being written in rows, for every row length
* `utf16Elements_encodeText` — the elements of the two-byte array are the code units
* `renderLaw` — `RenderLaw` for ASCII data and for valid UTF-8
-/

namespace NodeMini.Js2c

open Lib

/-! ## The writer -/

/-- The text of a template given line by line. -/
def unlines (text : List String) : List Char := text.flatMap fun line => line.toList ++ ['\n']

/-- `ONE_BYTE_STRING` -/
def oneByteString : List Char := unlines [
  "",
  "static const uint8_t raw_\x7bvar\x7d[] = \x7b\x7b \x7bdata\x7d \x7d\x7d;",
  "static struct : public v8::String::ExternalOneByteStringResource \x7b\x7b",
  "  const char* data() const override \x7b\x7b",
  "    return reinterpret_cast<const char*>(raw_\x7bvar\x7d);",
  "  \x7d\x7d",
  "  size_t length() const override \x7b\x7b return arraysize(raw_\x7bvar\x7d); \x7d\x7d",
  "  void Dispose() override \x7b\x7b /* Default calls `delete this`. */ \x7d\x7d",
  "  v8::Local<v8::String> ToStringChecked(v8::Isolate* isolate) \x7b\x7b",
  "    return v8::String::NewExternalOneByte(isolate, this).ToLocalChecked();",
  "  \x7d\x7d",
  "\x7d\x7d \x7bvar\x7d;"]

/-- `TWO_BYTE_STRING` -/
def twoByteString : List Char := unlines [
  "",
  "static const uint16_t raw_\x7bvar\x7d[] = \x7b\x7b \x7bdata\x7d \x7d\x7d;",
  "static struct : public v8::String::ExternalStringResource \x7b\x7b",
  "  const uint16_t* data() const override \x7b\x7b return raw_\x7bvar\x7d; \x7d\x7d",
  "  size_t length() const override \x7b\x7b return arraysize(raw_\x7bvar\x7d); \x7d\x7d",
  "  void Dispose() override \x7b\x7b /* Default calls `delete this`. */ \x7d\x7d",
  "  v8::Local<v8::String> ToStringChecked(v8::Isolate* isolate) \x7b\x7b",
  "    return v8::String::NewExternalTwoByte(isolate, this).ToLocalChecked();",
  "  \x7d\x7d",
  "\x7d\x7d \x7bvar\x7d;"]

/-- `ToCArray`; the default of `step` is 10. -/
def toCArray (elements : List ℕ) (step : ℕ := 10) : List Char :=
  [',', '\n'].intercalate ((slices step elements).map fun s => [','].intercalate (s.map decimal))

/-- `ToCString` -/
def toCString (contents : List UInt8) : List Char := toCArray (contents.map UInt8.toNat) 20

/-- The codec `utf-16be`. -/
def utf16be (text : List Char) : List UInt8 :=
  (Utf8.textUnits text).flatMap fun u => [UInt8.ofNat (u.toNat / 256), UInt8.ofNat (u.toNat % 256)]

/-- The numbers `Render` computes from non-ASCII data: decoded, encoded and paired up. It
raises, here `none`, on ill-formed UTF-8. -/
def utf16Elements (data : List UInt8) : Option (List ℕ) := do
  let data ← Utf8.decodeText data
  let data := (utf16be data).map UInt8.toNat
  pairs (fun high low => high * 256 + low) data

/-- The keyword arguments of `template.format`. -/
def arguments (var data : List Char) : Fields := [("var".toList, var), ("data".toList, data)]

/-- `Render` -/
def render (var : List Char) (data : List UInt8) : Option (List Char) :=
  if data.any (127 < ·.toNat) then do
    let data ← utf16Elements data
    format (arguments var (toCArray data)) twoByteString
  else format (arguments var (toCString data)) oneByteString

/-! ## The reader -/

/-- The element type of an emitted array. -/
inductive ElementType
  | uint8_t
  | uint16_t
  deriving DecidableEq, Repr

/-- The name of the type. -/
def ElementType.name : ElementType → List Char
  | .uint8_t => "uint8_t".toList
  | .uint16_t => "uint16_t".toList

/-- How many values the type has. -/
def ElementType.size : ElementType → ℕ
  | .uint8_t => 2 ^ 8
  | .uint16_t => 2 ^ 16

/-- The declaration of the array up to its initializer list. -/
def declaration (type : ElementType) (var : List Char) : List Char :=
  "\nstatic const ".toList ++ type.name ++ " raw_".toList ++ var ++ "[] = \x7b".toList

/-- The numbers between the braces of an array of a type. -/
def readElements (type : ElementType) (var out : List Char) : Option (List ℕ) :=
  if (declaration type var).isPrefixOf out then
    readList ((out.drop (declaration type var).length).takeWhile (· ≠ '}'))
  else none

/-- The element type and the elements of the array a definition starts with. -/
def readArray (var out : List Char) : Option (ElementType × List ℕ) :=
  match readElements .uint8_t var out with
  | some elements => some (.uint8_t, elements)
  | none => (readElements .uint16_t var out).map (.uint16_t, ·)

/-- Data is ASCII. -/
def Ascii (data : List UInt8) : Prop := ∀ b ∈ data, b.toNat < 128

instance (data : List UInt8) : Decidable (Ascii data) :=
  inferInstanceAs (Decidable (∀ b ∈ data, b.toNat < 128))

/-- What can be said of the array emitted for data whose text is `text`. -/
structure RenderLaw (var : List Char) (data : List UInt8) (text : List Char) (type : ElementType)
    (elements : List ℕ) : Prop where
  /-- The array has this type and these elements. -/
  read : (render var data).bind (readArray var) = some (type, elements)
  codeUnits : elements = (Utf8.textUnits text).map UInt16.toNat
  length : elements.length = (Utf8.textUnits text).length
  fits : ∀ e ∈ elements, e < type.size
  /-- ASCII data is emitted as its bytes. -/
  ascii : Ascii data → type = .uint8_t ∧ elements = data.map UInt8.toNat
  notAscii : ¬ Ascii data → type = .uint16_t
  /-- On ASCII data the two-byte path computes the same code units. -/
  paths_agree : Ascii data → utf16Elements data = some elements
  /-- The elements survive rows of any length. -/
  rows : ∀ step, 1 ≤ step → readList (toCArray elements step) = some elements

/-! ## Rows of numbers -/

variable {var data rest : List Char} {text : List Char} {type : ElementType} {step : ℕ}
  {elements : List ℕ} {pre post : List Char}

/-- A list written in rows and padded with white space is read back. -/
theorem readList_toCArray_padded (hstep : 0 < step) (hpre : ∀ c ∈ pre, c.isWhitespace)
    (hpost : ∀ c ∈ post, c.isWhitespace) :
    readList (pre ++ toCArray elements step ++ post) = some elements := by
  rw [toCArray, readList_rows (fun _ => ne_nil_of_mem_slices hstep) hpre hpost,
    flatten_slices hstep]

theorem readList_toCArray (hstep : 0 < step) :
    readList (toCArray elements step) = some elements := by
  rw [← List.append_nil (toCArray elements step), ← List.nil_append (toCArray elements step)]
  apply readList_toCArray_padded hstep <;> nofun

/-- Rows of numbers have no brace in them. -/
theorem notMem_toCArray {c : Char} (hdigit : c.isDigit = false) (hcomma : c ≠ ',')
    (hline : c ≠ '\n') : c ∉ toCArray elements step := by
  have hrow : ∀ s : List ℕ, c ∉ [','].intercalate (s.map decimal) := by
    intro s
    apply notMem_intercalate (by simpa using hcomma)
    intro piece hpiece hc
    obtain ⟨n, -, rfl⟩ := List.mem_map.mp hpiece
    rw [isDigit_of_mem_decimal hc] at hdigit
    cases hdigit
  apply notMem_intercalate (by simp [hcomma, hline])
  intro row hrowmem
  obtain ⟨s, -, rfl⟩ := List.mem_map.mp hrowmem
  exact hrow s

/-! ## The two paths -/

/-- The two bytes of a code unit are put together again. -/
theorem unit_of_bytes (u : UInt16) :
    (UInt8.ofNat (u.toNat / 256)).toNat * 256 + (UInt8.ofNat (u.toNat % 256)).toNat = u.toNat := by
  have hu := UInt16.toNat_lt u
  rw [Utf8.toNat_ofNat_lt (by omega), Utf8.toNat_ofNat_lt (by omega)]
  omega

/-- The elements of the two-byte array are the code units of the text. -/
theorem utf16Elements_encodeText (text : List Char) :
    utf16Elements (Utf8.encodeText text) = some ((Utf8.textUnits text).map UInt16.toNat) := by
  have hbytes : (utf16be text).map UInt8.toNat = (Utf8.textUnits text).flatMap fun u =>
      [(UInt8.ofNat (u.toNat / 256)).toNat, (UInt8.ofNat (u.toNat % 256)).toNat] := by
    rw [utf16be, List.map_flatMap]
    rfl
  rw [utf16Elements, Utf8.decodeText_encodeText, Option.bind_eq_bind, Option.bind_some, hbytes]
  apply pairs_flatMap
  exact unit_of_bytes

theorem ascii_iff_any {bytes : List UInt8} : Ascii bytes ↔ bytes.any (127 < ·.toNat) = false := by
  rw [List.any_eq_false]
  apply forall₂_congr
  intro b _
  rw [decide_eq_true_eq]
  omega

/-! ## Templates -/

/-- A template with the array line in front is filled in: the declaration, the data, and
some text after the closing brace. -/
theorem format_template {head : List Char} (hopen : '{' ∉ head) (hclose : '}' ∉ head)
    (hrest : (format (arguments [] []) rest).isSome) :
    ∃ tail, format (arguments var data)
        (head ++ "\x7bvar\x7d[] = \x7b\x7b \x7bdata\x7d \x7d\x7d".toList ++ rest) =
      some (head ++ var ++ "[] = \x7b".toList ++ ([' '] ++ data ++ [' '] ++ '}' :: tail)) := by
  -- the rest of the template uses the same two names, whatever their values
  have hnames : ∀ name, ((arguments var data).lookup name).isSome =
      ((arguments [] []).lookup name).isSome := by
    intro name
    simp only [arguments, List.lookup_cons]
    split <;> [rfl; split <;> rfl]
  have htail : (format (arguments var data) rest).isSome := by
    rw [format, formatFrom_isSome_congr hnames]
    exact hrest
  obtain ⟨tail, htail⟩ := Option.isSome_iff_exists.mp htail
  refine ⟨tail, ?_⟩
  have hline : "\x7bvar\x7d[] = \x7b\x7b \x7bdata\x7d \x7d\x7d".toList ++ rest =
      '{' :: 'v' :: ("ar".toList ++ '}' :: ("[] = ".toList ++ '{' :: '{' :: ([' '] ++
        '{' :: 'd' :: ("ata".toList ++ '}' :: ([' '] ++ '}' :: '}' :: rest))))) := rfl
  have hvar : (arguments var data).lookup ('v' :: "ar".toList) = some var := rfl
  have hdata : (arguments var data).lookup ('d' :: "ata".toList) = some data := rfl
  rw [format] at htail
  rw [format, List.append_assoc, hline, formatFrom_literal hopen hclose,
    formatFrom_field (by decide) (by decide) hvar, formatFrom_literal (by decide) (by decide),
    formatFrom_openBrace, formatFrom_literal (by decide) (by decide),
    formatFrom_field (by decide) (by decide) hdata, formatFrom_literal (by decide) (by decide),
    formatFrom_closeBrace, htail]
  simp

/-- The template of an element type. -/
def ElementType.template : ElementType → List Char
  | .uint8_t => oneByteString
  | .uint16_t => twoByteString

/-! In the next four proofs the literals are spelled out before anything is evaluated. -/

theorem oneByteString_eq :
    oneByteString = ("\nstatic const ".toList ++ "uint8_t".toList ++ " raw_".toList) ++
      "\x7bvar\x7d[] = \x7b\x7b \x7bdata\x7d \x7d\x7d".toList ++ oneByteString.drop 48 := by
  simp only [oneByteString, unlines, List.flatMap_cons]
  repeat rw [String.toList_ofList]
  decide +kernel

theorem twoByteString_eq :
    twoByteString = ("\nstatic const ".toList ++ "uint16_t".toList ++ " raw_".toList) ++
      "\x7bvar\x7d[] = \x7b\x7b \x7bdata\x7d \x7d\x7d".toList ++ twoByteString.drop 49 := by
  simp only [twoByteString, unlines, List.flatMap_cons]
  repeat rw [String.toList_ofList]
  decide +kernel

theorem isSome_format_oneByteString :
    (format (arguments [] []) (oneByteString.drop 48)).isSome := by
  simp only [oneByteString, unlines, List.flatMap_cons]
  repeat rw [String.toList_ofList]
  decide +kernel

theorem isSome_format_twoByteString :
    (format (arguments [] []) (twoByteString.drop 49)).isSome := by
  simp only [twoByteString, unlines, List.flatMap_cons]
  repeat rw [String.toList_ofList]
  decide +kernel

/-- Either template is filled in to its declaration, the data and some text. -/
theorem format_template_type (type : ElementType) (var data : List Char) :
    ∃ tail, format (arguments var data) type.template =
      some (declaration type var ++ ([' '] ++ data ++ [' '] ++ '}' :: tail)) := by
  cases type with
  | uint8_t =>
    have htemplate : ElementType.uint8_t.template = oneByteString := rfl
    rw [htemplate, oneByteString_eq]
    exact format_template (by decide) (by decide) isSome_format_oneByteString
  | uint16_t =>
    have htemplate : ElementType.uint16_t.template = twoByteString := rfl
    rw [htemplate, twoByteString_eq]
    exact format_template (by decide) (by decide) isSome_format_twoByteString

/-! ## Reading a definition -/

/-- The reader stops at the first closing brace. -/
theorem readElements_declaration {tail : List Char} (hdata : '}' ∉ data) :
    readElements type var (declaration type var ++ (data ++ '}' :: tail)) = readList data := by
  have hprefix :
      (declaration type var).isPrefixOf (declaration type var ++ (data ++ '}' :: tail)) :=
    List.isPrefixOf_iff_prefix.mpr (List.prefix_append _ _)
  rw [readElements, if_pos hprefix, List.drop_left, takeWhile_ne_append hdata]

/-- The two declarations differ. -/
theorem readElements_other : readElements .uint8_t var (declaration .uint16_t var ++ rest) = none :=
  rfl

/-- A template filled with rows of numbers is read back as its element type and these
numbers. -/
theorem readArray_format (hstep : 0 < step) (type : ElementType) (var : List Char)
    (elements : List ℕ) :
    (format (arguments var (toCArray elements step)) type.template).bind (readArray var) =
      some (type, elements) := by
  obtain ⟨tail, htail⟩ := format_template_type type var (toCArray elements step)
  have hblank : ∀ c ∈ [' '], c.isWhitespace := List.forall_mem_singleton.mpr (by decide)
  have hbrace : '}' ∉ [' '] ++ toCArray elements step ++ [' '] := by
    have hrows : '}' ∉ toCArray elements step :=
      notMem_toCArray (by decide) (by decide) (by decide)
    simp [hrows]
  have hread : readElements type var (declaration type var ++
      ([' '] ++ toCArray elements step ++ [' '] ++ '}' :: tail)) = some elements := by
    rw [readElements_declaration hbrace]
    exact readList_toCArray_padded hstep hblank hblank
  rw [htail, Option.bind_some, readArray]
  cases type with
  | uint8_t => rw [hread]
  | uint16_t =>
    -- the reader tries `uint8_t` first
    rw [readElements_other, hread]
    rfl

theorem render_of_ascii {bytes : List UInt8} (h : Ascii bytes) :
    render var bytes = format (arguments var (toCArray (bytes.map UInt8.toNat) 20))
      ElementType.uint8_t.template := by
  rw [render, if_neg (by rw [ascii_iff_any.mp h]; decide)]
  rfl

theorem render_of_not_ascii (h : ¬ Ascii (Utf8.encodeText text)) :
    render var (Utf8.encodeText text) =
      format (arguments var (toCArray ((Utf8.textUnits text).map UInt16.toNat)))
        ElementType.uint16_t.template := by
  rw [ascii_iff_any, Bool.not_eq_false] at h
  rw [render, if_pos h, utf16Elements_encodeText, Option.bind_eq_bind, Option.bind_some,
    ElementType.template]

/-- The element type of the array for some data. -/
def elementType (data : List UInt8) : ElementType := if Ascii data then .uint8_t else .uint16_t

/-- The array emitted for text is read back as the code units of the text. -/
theorem readArray_render (var text : List Char) :
    (render var (Utf8.encodeText text)).bind (readArray var) =
      some (elementType (Utf8.encodeText text), (Utf8.textUnits text).map UInt16.toNat) := by
  by_cases hascii : Ascii (Utf8.encodeText text)
  · rw [render_of_ascii hascii, readArray_format (by decide), elementType, if_pos hascii,
      Utf8.textUnits_of_ascii hascii]
  · rw [render_of_not_ascii hascii, readArray_format (by decide), elementType, if_neg hascii]

/-- `Render` neither loses nor changes a code unit, in either template, for ASCII data and
for valid UTF-8. -/
theorem renderLaw (var : List Char) (bytes : List UInt8)
    (h : Ascii bytes ∨ ∃ text, Utf8.encodeText text = bytes) :
    ∃ text type elements, Utf8.encodeText text = bytes ∧
      RenderLaw var bytes text type elements := by
  obtain ⟨text, rfl⟩ : ∃ text, Utf8.encodeText text = bytes := by
    rcases h with hascii | htext
    · exact Utf8.exists_encodeText_of_ascii hascii
    · exact htext
  have hunits : Ascii (Utf8.encodeText text) → (Utf8.textUnits text).map UInt16.toNat =
      (Utf8.encodeText text).map UInt8.toNat := Utf8.textUnits_of_ascii
  refine ⟨text, elementType (Utf8.encodeText text), (Utf8.textUnits text).map UInt16.toNat, rfl, ?_⟩
  refine { read := readArray_render var text, codeUnits := rfl, length := List.length_map _,
           fits := ?_, ascii := ?_, notAscii := ?_, paths_agree := ?_, rows := ?_ }
  · -- bytes fit the one type, code units the other
    intro e he
    by_cases hascii : Ascii (Utf8.encodeText text)
    · rw [hunits hascii] at he
      obtain ⟨b, -, rfl⟩ := List.mem_map.mp he
      rw [elementType, if_pos hascii]
      exact UInt8.toNat_lt b
    · obtain ⟨u, -, rfl⟩ := List.mem_map.mp he
      rw [elementType, if_neg hascii]
      exact UInt16.toNat_lt u
  · intro hascii
    exact ⟨if_pos hascii, hunits hascii⟩
  · exact fun hascii => if_neg hascii
  · intro _
    exact utf16Elements_encodeText text
  · exact fun _ hstep => readList_toCArray hstep

example : utf16Elements [0xf0, 0x9d, 0x84, 0x9e] = some [0xd834, 0xdd1e] := by decide

/-- A supplementary character is emitted as its surrogate pair. -/
theorem renderLaw_clef : ∃ text type elements,
    Utf8.encodeText text = [0xf0, 0x9d, 0x84, 0x9e] ∧
      RenderLaw "clef_value".toList [0xf0, 0x9d, 0x84, 0x9e] text type elements :=
  renderLaw "clef_value".toList [0xf0, 0x9d, 0x84, 0x9e] (Or.inr ⟨[Char.ofNat 0x1d11e], by decide⟩)

end NodeMini.Js2c
