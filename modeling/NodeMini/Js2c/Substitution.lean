import NodeMini.Lib.Passes
import NodeMini.Js2c.Segments
import NodeMini.Js2c.Definitions

/-!
# The substitution of a text macro

The parameters of a text macro stand for its arguments: in the body, each identifier that
is a parameter should be replaced by its argument, and nothing else should be touched.
`TextMacro.expand` instead replaces one parameter after another, wherever it occurs in the
text it has so far.

To say what happens to the text of an argument, the replacements are done on a text in
which each character remembers whether it came from an argument. The two agree exactly if
parameters occur in the body as whole identifiers only, and no argument that is put in
contains another parameter.

## Main definitions

* `pieces`, `substitute` — the identifiers of a text, and the substitution of all of them
* `Traced`, `TextMacro.trace` — the replacements, with the origin of each character
* `Simultaneous` — `TextMacro.expand` is the substitution, in every order
* `SeparateParameters` — the body and the arguments keep the parameters apart

## Main results

* `trace_eq` — the text after some of the replacements
* `simultaneous_iff` — the expansion is simultaneous exactly if the parameters are separate
-/

namespace NodeMini.Js2c

open Lib

/-! ## Identifiers -/

/-- The text begins with a word character. -/
def beginsInWord (s : Str) : Bool := s.head?.any isWord

/-- The identifiers of a text, and the characters between them. -/
def pieces (text : Str) : List Str := text.splitBy fun c d => isWord c && isWord d

/-- The text in which each identifier that `σ` has a value for is replaced by it. -/
def substitute (σ : Dict Str) (text : Str) : Str :=
  (pieces text).flatMap fun w => (σ.lookup w).getD w

/-! ## Where a character comes from -/

/-- A text in which each character says whether it came from an argument. -/
abbrev Traced := List (Char × Bool)

/-- Text of the body. -/
def ofBody (s : Str) : Traced := s.map fun c => (c, false)

/-- Text of an argument. -/
def ofArgument (s : Str) : Traced := s.map fun c => (c, true)

/-- The text that is compared. -/
def Traced.text (t : Traced) : Str := t.map Prod.fst

/-- `TextMacro.expand`, with the origin of each character. -/
def TextMacro.trace (m : TextMacro) (items : List (Str × Str)) : Traced :=
  items.foldl (fun t (key, value) => replaceOn Prod.fst key (ofArgument value) 0 t) (ofBody m.body)

/-- Wherever `key` occurs in the text, it is a whole identifier of the body. -/
def OwnOccurrences (key : Str) (t : Traced) : Prop :=
  ∀ a k b : Traced, t = a ++ k ++ b → k.text = key →
    (∀ c ∈ k, c.2 = false) ∧ endsInWord a.text = false ∧ beginsInWord b.text = false

/-- The expansion of a text macro with the given arguments, in every order of the mapping
that `ExpandMacros` builds: it is the substitution, and what it replaces on the way are
whole identifiers of the body, never text that came from an argument. -/
structure Simultaneous (m : TextMacro) (values : List Str) : Prop where
  result : ∀ order : DictOrder, (m.toMacro order).expand (bindings m.args values) =
    .ok (substitute (m.args.zip values) m.body)
  own : ∀ order : DictOrder, ∀ done key value rest,
    order.items (bindings m.args values) = done ++ (key, value) :: rest →
      OwnOccurrences key (m.trace done)

/-- Parameters occur in the body as whole identifiers only, and no argument that is put in
contains another parameter. -/
structure SeparateParameters (m : TextMacro) (values : List Str) : Prop where
  whole : ∀ p ∈ m.args, ∀ a b, m.body = a ++ p ++ b → endsInWord a = false ∧ beginsInWord b = false
  free : ∀ p value, (p, value) ∈ m.args.zip values → p <:+: m.body →
    ∀ q ∈ m.args, q ≠ p → ¬ q <:+: value

/-! ## The pieces of a text -/

section Pieces

variable {s t w key : Str} {ws : List Str} {c : Char}

theorem Identifier.not_mem (h : Identifier s) (hc : isWord c = false) : c ∉ s := by
  intro hmem
  rw [h.2 c hmem] at hc
  cases hc

theorem endsInWord_of_word (hs : s ≠ []) (h : ∀ c ∈ s, isWord c = true) : endsInWord s = true := by
  obtain ⟨s, c, rfl⟩ := List.eq_nil_or_concat s |>.resolve_left hs
  rw [List.concat_eq_append, endsInWord_concat]
  exact h c (by simp)

theorem beginsInWord_of_word (hs : s ≠ []) (h : ∀ c ∈ s, isWord c = true) :
    beginsInWord s = true := by
  obtain ⟨c, s, rfl⟩ := List.exists_cons_of_ne_nil hs
  exact h c List.mem_cons_self

/-- The pieces of a text: no two identifiers follow each other. -/
inductive Pieced : List Str → Prop
  | nil : Pieced []
  | other {c : Char} {ws : List Str} (hc : isWord c = false) (h : Pieced ws) : Pieced ([c] :: ws)
  | last {w : Str} (hw : Identifier w) : Pieced [w]
  | word {w : Str} {c : Char} {ws : List Str} (hw : Identifier w) (hc : isWord c = false)
      (h : Pieced ([c] :: ws)) : Pieced (w :: [c] :: ws)

/-- A run of word characters is an identifier or a single character. -/
theorem identifier_or_single (hw : w ≠ [])
    (h : w.IsChain fun c d => (isWord c && isWord d) = true) :
    Identifier w ∨ ∃ c, isWord c = false ∧ w = [c] := by
  induction w with
  | nil => exact absurd rfl hw
  | cons c w ih =>
    cases w with
    | nil =>
      cases hc : isWord c with
      | true => exact Or.inl ⟨by simp, by simp [hc]⟩
      | false => exact Or.inr ⟨c, hc, rfl⟩
    | cons d w =>
      obtain ⟨hcd, hrest⟩ := List.isChain_cons_cons.mp h
      obtain ⟨hc, hd⟩ := (Bool.and_eq_true _ _).mp hcd
      rcases ih (by simp) hrest with hident | ⟨e, he, heq⟩
      · exact Or.inl ⟨by simp, List.forall_mem_cons.mpr ⟨hc, hident.2⟩⟩
      · rw [(List.cons.inj heq).1, he] at hd
        cases hd

theorem pieced_of_chain (hne : [] ∉ ws)
    (hchain : ∀ w ∈ ws, w.IsChain fun c d => (isWord c && isWord d) = true)
    (hbreak : ws.IsChain fun u v =>
      ∃ hu hv, (isWord (u.getLast hu) && isWord (v.head hv)) = false) :
    Pieced ws := by
  induction ws with
  | nil => exact .nil
  | cons w ws ih =>
    obtain ⟨hw, hne⟩ := not_or.mp (mt List.mem_cons.mpr hne)
    obtain ⟨hwchain, hchain⟩ := List.forall_mem_cons.mp hchain
    obtain ⟨hnext, hbreak⟩ := List.isChain_cons.mp hbreak
    have hrest := ih hne hchain hbreak
    rcases identifier_or_single (Ne.symm hw) hwchain with hident | ⟨c, hc, rfl⟩
    · -- an identifier is followed by a character that is not of a word
      cases hrest with
      | nil => exact .last hident
      | other hc h => exact .word hident hc (.other hc h)
      | last hv =>
        obtain ⟨hu, hv', hno⟩ := hnext _ rfl
        rw [hident.2 _ (List.getLast_mem hu), hv.2 _ (List.head_mem hv')] at hno
        cases hno
      | word hv hc h =>
        obtain ⟨hu, hv', hno⟩ := hnext _ rfl
        rw [hident.2 _ (List.getLast_mem hu), hv.2 _ (List.head_mem hv')] at hno
        cases hno
    · exact .other hc hrest

theorem pieced_pieces (text : Str) : Pieced (pieces text) := by
  have hbreak := List.isChain_getLast_head_splitBy (fun c d => isWord c && isWord d) text
  exact pieced_of_chain (List.nil_notMem_splitBy _ text) (fun _ => List.isChain_of_mem_splitBy)
    hbreak

theorem Pieced.of_append {us : List Str} (h : Pieced (us ++ ws)) : Pieced ws := by
  induction us with
  | nil => exact h
  | cons u us ih =>
    apply ih
    rw [List.cons_append] at h
    generalize us ++ ws = vs at h
    cases h with
    | other _ h => exact h
    | last _ => exact .nil
    | word _ _ h => exact h

theorem Pieced.identifier_or_single (h : Pieced ws) (hw : w ∈ ws) :
    Identifier w ∨ ∃ c, isWord c = false ∧ w = [c] := by
  induction h with
  | nil => cases hw
  | @other c ws hc _ ih =>
    rcases List.mem_cons.mp hw with rfl | hw
    · exact Or.inr ⟨c, hc, rfl⟩
    · exact ih hw
  | last hv => exact Or.inl (List.mem_singleton.mp hw ▸ hv)
  | word hv _ _ ih =>
    rcases List.mem_cons.mp hw with rfl | hw
    · exact Or.inl hv
    · exact ih hw

/-- An identifier in a piece that is not part of a longer one is the piece. -/
theorem eq_piece {x y : Str} (hw : Identifier (x ++ key ++ y) ∨ ∃ c, isWord c = false ∧
    x ++ key ++ y = [c]) (hkey : Identifier key) (hx : endsInWord x = false)
    (hy : beginsInWord y = false) : x ++ key ++ y = key := by
  rcases hw with hw | ⟨c, hc, hw⟩
  · have hxnil : x = [] := by
      by_contra hne
      rw [endsInWord_of_word hne fun c hc => hw.2 c (by simp [hc])] at hx
      cases hx
    have hynil : y = [] := by
      by_contra hne
      rw [beginsInWord_of_word hne fun c hc => hw.2 c (by simp [hc])] at hy
      cases hy
    rw [hxnil, hynil, List.nil_append, List.append_nil]
  · -- the piece is a single character of no word
    obtain ⟨d, key, rfl⟩ := List.exists_cons_of_ne_nil hkey.ne_nil
    have hd : d ∈ [c] := hw ▸ by simp
    rw [List.mem_singleton.mp hd] at hkey
    exact absurd List.mem_cons_self (hkey.not_mem hc)

theorem infix_of_mem_pieces (h : w ∈ pieces s) : w <:+: s := by
  have hflatten : (pieces s).flatten = s := List.flatten_splitBy _ s
  rw [← hflatten]
  exact List.infix_of_mem_flatten h

end Pieces

/-! ## The text after some of the replacements -/

/-- A piece of the body, after the replacements in `done`. -/
def renderPiece (done : Dict Str) (w : Str) : Traced :=
  match done.lookup w with
  | some value => ofArgument value
  | none => ofBody w

/-- The key occurs only as a piece of its own, not yet replaced. -/
def Alone (done : Dict Str) (key : Str) (ws : List Str) : Prop :=
  ∀ w ∈ ws, key <:+: (renderPiece done w).text → w = key ∧ done.lookup w = none

section Render

variable {done : Dict Str} {key value w : Str} {ws : List Str} {c : Char}

@[simp] theorem text_ofBody (s : Str) : (ofBody s).text = s := by
  simp [ofBody, Traced.text, Function.comp_def]

@[simp] theorem text_ofArgument (s : Str) : (ofArgument s).text = s := by
  simp [ofArgument, Traced.text, Function.comp_def]

@[simp] theorem text_append (s t : Traced) : (s ++ t).text = s.text ++ t.text := List.map_append

theorem text_renderPiece (done : Dict Str) (w : Str) :
    (renderPiece done w).text = (done.lookup w).getD w := by
  unfold renderPiece
  cases done.lookup w <;> simp

theorem renderPiece_of_lookup_none (h : done.lookup w = none) : renderPiece done w = ofBody w := by
  rw [renderPiece, h]

/-- A character between identifiers is not replaced. -/
theorem renderPiece_other (hkeys : ∀ e ∈ done, Identifier e.1) (hc : isWord c = false) :
    renderPiece done [c] = ofBody [c] := by
  apply renderPiece_of_lookup_none
  rw [List.lookup_eq_none_iff]
  intro e he
  rw [bne_iff_ne]
  intro heq
  have hident := hkeys e he
  rw [← heq] at hident
  exact hident.not_mem hc List.mem_cons_self

theorem renderPiece_append_self (hdone : done.lookup key = none) :
    renderPiece (done ++ [(key, value)]) key = ofArgument value := by
  rw [renderPiece, List.lookup_append, hdone]
  simp

theorem renderPiece_append_of_ne (h : w ≠ key) :
    renderPiece (done ++ [(key, value)]) w = renderPiece done w := by
  have hlookup : (done ++ [(key, value)]).lookup w = done.lookup w := by
    rw [List.lookup_append]
    simp [h]
  rw [renderPiece, hlookup, renderPiece]

/-- An identifier that is not in a text does not begin in it, if no word goes on behind. -/
theorem noStart_of_not_infix {gap rest : Str} (hkey : Identifier key) (h : ¬ key <:+: gap)
    (hrest : beginsInWord rest = false) : NoStart key gap rest := by
  intro a b hgap _ hprefix
  apply h
  have hb : key <+: b := by
    cases rest with
    | nil => rwa [List.append_nil] at hprefix
    | cons c rest => exact (prefix_append_cons_iff (hkey.not_mem hrest)).mp hprefix
  rw [hgap]
  exact hb.isInfix.trans (List.suffix_append a b).isInfix

/-- What follows an identifier of the body. -/
theorem beginsInWord_renderPiece (hkeys : ∀ e ∈ done, Identifier e.1) (hc : isWord c = false) :
    beginsInWord (Traced.text (([c] :: ws).flatMap (renderPiece done))) = false := by
  rw [List.flatMap_cons, renderPiece_other hkeys hc]
  exact hc

/-- No identifier begins in a character between identifiers. -/
theorem noStart_other {rest : Str} (hkey : Identifier key) (hc : isWord c = false) :
    NoStart key [c] rest := by
  intro a b hab hb hprefix
  obtain ⟨rfl, rfl⟩ | ⟨rfl, rfl⟩ : (a = [] ∧ b = [c]) ∨ (a = [c] ∧ b = []) :=
    List.append_eq_singleton_iff.mp hab.symm
  · obtain ⟨d, key, rfl⟩ := List.exists_cons_of_ne_nil hkey.ne_nil
    obtain ⟨rfl, -⟩ := List.cons_prefix_cons.mp hprefix
    exact hkey.not_mem hc List.mem_cons_self
  · exact hb rfl

/-- One replacement puts in the argument wherever the key is a piece, and changes nothing
else. -/
theorem replaceOn_pieces (hws : Pieced ws) (hkeys : ∀ e ∈ done, Identifier e.1)
    (hkey : Identifier key) (hdone : done.lookup key = none) (halone : Alone done key ws) :
    replaceOn Prod.fst key (ofArgument value) 0 (ws.flatMap (renderPiece done)) =
      ws.flatMap (renderPiece (done ++ [(key, value)])) := by
  refine replaceOn_flatMap hkey.ne_nil fun a w b hab => ?_
  by_cases hwkey : w = key
  · subst hwkey
    rw [renderPiece_of_lookup_none hdone]
    exact Or.inl ⟨text_ofBody w, renderPiece_append_self hdone⟩
  · right
    refine ⟨renderPiece_append_of_ne hwkey, ?_⟩
    have hoccurs : ¬ key <:+: (renderPiece done w).text := fun h =>
      hwkey (halone w (hab ▸ by simp) h).1
    -- an identifier is followed by a character between identifiers, or by nothing
    cases (hab ▸ hws).of_append with
    | other hc h =>
      rw [renderPiece_other hkeys hc]
      exact noStart_other hkey hc
    | last hw => exact noStart_of_not_infix hkey hoccurs rfl
    | word hw hc h => exact noStart_of_not_infix hkey hoccurs (beginsInWord_renderPiece hkeys hc)

/-- An occurrence in a text of two parts is in the second part, or it begins in the first. -/
theorem occurrence_cases {x y a k b : Traced} (h : x ++ y = a ++ k ++ b) :
    (∃ a', a = x ++ a' ∧ y = a' ++ k ++ b) ∨
      (∃ x' : Traced, x' ≠ [] ∧ x = a ++ x' ∧ k ++ b = x' ++ y) := by
  rw [List.append_assoc, List.append_eq_append_iff] at h
  rcases h with ⟨a', ha, hy⟩ | ⟨x', hx, hkb⟩
  · exact Or.inl ⟨a', ha, by rw [hy, List.append_assoc]⟩
  · by_cases hnil : x' = []
    · subst hnil
      exact Or.inl ⟨[], by simpa using hx.symm, by simpa using hkb.symm⟩
    · exact Or.inr ⟨x', hnil, hx, hkb⟩

theorem ownOccurrences_nil (hkey : Identifier key) : OwnOccurrences key [] := by
  intro a k b hab hk
  obtain ⟨rfl, rfl, rfl⟩ : a = [] ∧ k = [] ∧ b = [] := by simpa using hab.symm
  exact absurd hk.symm hkey.ne_nil

/-- In front of a text whose occurrences are its own, a character between identifiers. -/
theorem ownOccurrences_other {t : Traced} (hkey : Identifier key) (hc : isWord c = false)
    (h : OwnOccurrences key t) : OwnOccurrences key (ofBody [c] ++ t) := by
  intro a k b hab hk
  rcases occurrence_cases hab with ⟨a', rfl, ht⟩ | ⟨x', hx', hx, hkb⟩
  · obtain ⟨hbody, ha, hb⟩ := h a' k b ht hk
    refine ⟨hbody, ?_, hb⟩
    rw [text_append, text_ofBody]
    exact endsInWord_append_eq_false hc ha
  · -- an identifier does not begin with this character
    obtain ⟨rfl, rfl⟩ | ⟨-, rfl⟩ : (a = [] ∧ x' = [(c, false)]) ∨ (a = [(c, false)] ∧ x' = []) :=
      List.append_eq_singleton_iff.mp hx.symm
    · cases k with
      | nil => exact absurd hk.symm hkey.ne_nil
      | cons d k =>
        obtain ⟨rfl, -⟩ := List.cons.inj hkb
        rw [← hk] at hkey
        exact absurd List.mem_cons_self (hkey.not_mem hc)
    · exact absurd rfl hx'

/-- In front of such a text that begins with no word, an identifier. -/
theorem ownOccurrences_word {t : Traced} (hkey : Identifier key)
    (hw : key <:+: (renderPiece done w).text → w = key ∧ done.lookup w = none)
    (hbegin : beginsInWord t.text = false) (h : OwnOccurrences key t) :
    OwnOccurrences key (renderPiece done w ++ t) := by
  intro a k b hab hk
  rcases occurrence_cases hab with ⟨a', rfl, ht⟩ | ⟨(x' : Traced), hx', hx, hkb⟩
  · -- the text begins with no word, so something stands in front of the occurrence
    obtain ⟨hbody, ha, hb⟩ := h a' k b ht hk
    refine ⟨hbody, ?_, hb⟩
    cases a' using List.reverseRecOn with
    | nil =>
      rw [ht, List.nil_append, text_append, hk] at hbegin
      obtain ⟨c, key, rfl⟩ := List.exists_cons_of_ne_nil hkey.ne_nil
      exact absurd (hkey.2 c List.mem_cons_self) (by simpa [beginsInWord] using hbegin)
    | append_singleton a' c =>
      have hc : Traced.text [c] = [c.1] := rfl
      rw [text_append, hc, endsInWord_concat] at ha
      rw [← List.append_assoc, text_append, hc, endsInWord_concat, ha]
  · -- the occurrence lies in the identifier, so it is the identifier
    have hprefix : key <+: Traced.text x' := by
      have hlong : key <+: Traced.text x' ++ t.text := by
        rw [← text_append, ← hkb, text_append, hk]
        exact List.prefix_append key b.text
      cases ht : t.text with
      | nil => rwa [ht, List.append_nil] at hlong
      | cons c s =>
        rw [ht] at hlong hbegin
        exact (prefix_append_cons_iff (hkey.not_mem hbegin)).mp hlong
    obtain ⟨rfl, hnone⟩ := hw (by
      rw [hx, text_append]
      exact hprefix.isInfix.trans (List.suffix_append _ _).isInfix)
    rw [renderPiece_of_lookup_none hnone] at hx
    have hlength := congrArg List.length (congrArg Traced.text hx)
    rw [text_ofBody, text_append, List.length_append] at hlength
    have hle := hprefix.length_le
    obtain rfl : a = [] := by
      have : a.text.length = 0 := by omega
      simpa [Traced.text] using this
    rw [List.nil_append] at hx
    subst hx
    have hsame : k.length = (ofBody w).length := by
      rw [← hk, ofBody, List.length_map, Traced.text, List.length_map]
    obtain ⟨rfl, rfl⟩ := List.append_inj hkb hsame
    refine ⟨fun c hc => ?_, rfl, hbegin⟩
    obtain ⟨d, -, rfl⟩ := List.mem_map.mp hc
    rfl

/-- Every occurrence of the key is a piece of its own. -/
theorem ownOccurrences_pieces (hws : Pieced ws) (hkeys : ∀ e ∈ done, Identifier e.1)
    (hkey : Identifier key) (halone : Alone done key ws) :
    OwnOccurrences key (ws.flatMap (renderPiece done)) := by
  induction hws with
  | nil => exact ownOccurrences_nil hkey
  | @other c ws hc h ih =>
    have hrest := ih fun w hw => halone w (List.mem_cons_of_mem [c] hw)
    rw [List.flatMap_cons, renderPiece_other hkeys hc]
    exact ownOccurrences_other hkey hc hrest
  | @last w hw =>
    rw [List.flatMap_cons]
    exact ownOccurrences_word hkey (halone w List.mem_cons_self) rfl (ownOccurrences_nil hkey)
  | @word w c ws hw hc h ih =>
    rw [List.flatMap_cons]
    exact ownOccurrences_word hkey (halone w List.mem_cons_self) (beginsInWord_renderPiece hkeys hc)
      (ih fun v hv => halone v (List.mem_cons_of_mem w hv))

end Render

/-! ## The order of the mapping -/

section Order

variable {d l : Dict Str}

/-- With distinct parameters the mapping has one entry for each. -/
theorem bindings_eq_zip {params values : List Str} (h : params.Nodup)
    (hlength : values.length = params.length) : bindings params values = params.zip values := by
  have hset : ∀ (es : Dict Str) (d : Dict Str), (es.map Prod.fst).Nodup →
      (∀ e ∈ es, e.1 ∉ d.map Prod.fst) → es.foldl (fun d e => d.set e.1 e.2) d = d ++ es := by
    intro es
    induction es with
    | nil => simp
    | cons e es ih =>
      intro d hes hd
      obtain ⟨he, hes⟩ := List.nodup_cons.mp hes
      obtain ⟨hed, hd⟩ := List.forall_mem_cons.mp hd
      rw [List.foldl_cons, Dict.set, if_neg hed, ih _ hes, List.append_assoc, List.singleton_append]
      intro e' he' hmem
      rw [List.map_append, List.mem_append] at hmem
      rcases hmem with hmem | hmem
      · exact hd e' he' hmem
      · rw [List.map_singleton, List.mem_singleton] at hmem
        exact he (hmem ▸ List.mem_map_of_mem he')
  have hnodup : ((params.zip values).map Prod.fst).Nodup := by
    rwa [List.map_fst_zip hlength.ge]
  exact hset (params.zip values) [] hnodup fun _ _ => List.not_mem_nil

/-- Every order of a dictionary is the order of some iteration. -/
def orderOf (d l : Dict Str) (h : l.Perm d) : DictOrder where
  items d' := if d' = d then l else d'
  perm d' := by
    split_ifs with heq
    · rw [heq]
      exact h
    · exact List.Perm.refl d'

theorem items_orderOf (h : l.Perm d) : (orderOf d l h).items d = l := if_pos rfl

end Order

/-! ## When the expansion is simultaneous -/

section Simultaneous

variable {m : TextMacro} {values : List Str} {items done : Dict Str} {key value : Str}

theorem text_trace (hkeys : ∀ e ∈ items, e.1 ≠ []) :
    (m.trace items).text = m.expandItems items := by
  have hfold : ∀ (t : Traced), (items.foldl (fun t (key, value) =>
      replaceOn Prod.fst key (ofArgument value) 0 t) t).text =
      items.foldl (fun result (key, value) => replaceAll key value result) t.text := by
    induction items with
    | nil => exact fun t => rfl
    | cons e items ih =>
      intro t
      obtain ⟨he, hkeys⟩ := List.forall_mem_cons.mp hkeys
      have hstep : Traced.text (replaceOn Prod.fst e.1 (ofArgument e.2) 0 t) =
          replaceAll e.1 e.2 t.text := by
        rw [replaceAll_of_ne_nil he, Traced.text, map_replaceOn]
        congr 1
        exact text_ofArgument e.2
      rw [List.foldl_cons, List.foldl_cons, ih hkeys, hstep]
  have h := hfold (ofBody m.body)
  rwa [text_ofBody] at h

/-- The entries of the mapping, some of them done. -/
structure Progress (m : TextMacro) (values : List Str) (done : Dict Str) (key : Str) : Prop where
  mem : ∀ e ∈ done, e ∈ m.args.zip values
  key_mem : key ∈ m.args
  fresh : done.lookup key = none

theorem mem_args_of_mem_zip {e : Str × Str} (h : e ∈ m.args.zip values) : e.1 ∈ m.args :=
  (List.of_mem_zip (a := e.1) (b := e.2) h).1

/-- SeparateParameters parameters are alone in the text, whatever has been replaced. -/
theorem alone_of_separateParameters (h : SeparateParameters m values)
    (hident : ∀ p ∈ m.args, Identifier p) (hprogress : Progress m values done key) :
    Alone done key (pieces m.body) := by
  intro w hw hoccurs
  have hbody := infix_of_mem_pieces hw
  have hkey := hident key hprogress.key_mem
  rw [text_renderPiece] at hoccurs
  cases hlookup : done.lookup w with
  | some value =>
    -- an argument that was put in does not contain the key
    rw [hlookup, Option.getD_some] at hoccurs
    have hmem := hprogress.mem _ (mem_of_lookup hlookup)
    refine absurd hoccurs (h.free w value hmem hbody key hprogress.key_mem ?_)
    rintro rfl
    rw [hprogress.fresh] at hlookup
    cases hlookup
  | none =>
    rw [hlookup, Option.getD_none] at hoccurs
    obtain ⟨x, y, rfl⟩ := hoccurs
    obtain ⟨a, b, hab⟩ := hbody
    have hbody' : m.body = (a ++ x) ++ key ++ (y ++ b) := by
      rw [← hab]
      simp only [List.append_assoc]
    obtain ⟨hbefore, hbehind⟩ := h.whole key hprogress.key_mem _ _ hbody'
    have hx : endsInWord x = false := by
      by_contra hx
      rw [endsInWord_append_eq_true (Bool.eq_true_of_not_eq_false hx)] at hbefore
      cases hbefore
    have hy : beginsInWord y = false := by
      cases y with
      | nil => rfl
      | cons c y => exact hbehind
    exact ⟨eq_piece ((pieced_pieces m.body).identifier_or_single hw) hkey hx hy, rfl⟩

/-- What is known of the entries of the mapping, in any order. -/
theorem progress_of_perm (hargs : m.args.Nodup) (hlength : values.length = m.args.length)
    {rest : Dict Str} (hperm : (done ++ (key, value) :: rest).Perm (m.args.zip values)) :
    Progress m values done key where
  mem e he := hperm.mem_iff.mp (List.mem_append_left _ he)
  key_mem := by
    have hmem : (key, value) ∈ m.args.zip values := hperm.mem_iff.mp (by simp)
    exact mem_args_of_mem_zip hmem
  fresh := by
    have hnodup : ((done ++ (key, value) :: rest).map Prod.fst).Nodup := by
      rw [(hperm.map Prod.fst).nodup_iff, List.map_fst_zip hlength.ge]
      exact hargs
    have hfresh : key ∉ done.map Prod.fst := not_mem_map_of_nodup hnodup
    rw [List.lookup_eq_none_iff]
    intro e he
    rw [bne_iff_ne]
    rintro rfl
    exact hfresh (List.mem_map_of_mem he)

/-- The text after the replacements in `done`: each piece of the body, or its argument. -/
theorem trace_eq (h : SeparateParameters m values) (hargs : m.args.Nodup)
    (hident : ∀ p ∈ m.args, Identifier p) (hlength : values.length = m.args.length)
    {rest : Dict Str} (hperm : (done ++ rest).Perm (m.args.zip values)) :
    m.trace done = (pieces m.body).flatMap (renderPiece done) := by
  induction done using List.reverseRecOn generalizing rest with
  | nil =>
    have hnone : ∀ w, renderPiece [] w = ofBody w := fun w => rfl
    have hflatten : (pieces m.body).flatten = m.body := List.flatten_splitBy _ m.body
    rw [funext hnone, TextMacro.trace, List.foldl_nil]
    conv_lhs => rw [← hflatten]
    rw [ofBody, List.map_flatten, List.flatMap]
    rfl
  | append_singleton done e ih =>
    obtain ⟨key, value⟩ := e
    rw [List.append_assoc, List.singleton_append] at hperm
    have hprogress := progress_of_perm hargs hlength hperm
    have hkeys : ∀ e ∈ done, Identifier e.1 := fun e he =>
      hident e.1 (mem_args_of_mem_zip (hprogress.mem e he))
    have htrace := ih hperm
    rw [TextMacro.trace] at htrace
    rw [TextMacro.trace, List.foldl_append, htrace]
    exact replaceOn_pieces (pieced_pieces m.body) hkeys (hident key hprogress.key_mem)
      hprogress.fresh (alone_of_separateParameters h hident hprogress)

/-- An order of the mapping that begins with some of its entries. -/
theorem exists_order (hargs : m.args.Nodup) (hlength : values.length = m.args.length)
    {rest : Dict Str} (hperm : (done ++ rest).Perm (m.args.zip values)) :
    ∃ order : DictOrder, order.items (bindings m.args values) = done ++ rest := by
  rw [bindings_eq_zip hargs hlength]
  exact ⟨orderOf _ _ hperm, items_orderOf hperm⟩

theorem exists_mem_zip (hlength : values.length = m.args.length) {p : Str} (hp : p ∈ m.args) :
    ∃ value, (p, value) ∈ m.args.zip values := by
  rw [← List.map_fst_zip hlength.ge, List.mem_map] at hp
  obtain ⟨⟨_, value⟩, hmem, rfl⟩ := hp
  exact ⟨value, hmem⟩

/-- A simultaneous expansion finds only whole identifiers: begin with that parameter. -/
theorem Simultaneous.whole (h : Simultaneous m values) (hargs : m.args.Nodup)
    (hlength : values.length = m.args.length) {p a b : Str} (hp : p ∈ m.args)
    (hbody : m.body = a ++ p ++ b) : endsInWord a = false ∧ beginsInWord b = false := by
  obtain ⟨value, hmem⟩ := exists_mem_zip hlength hp
  have hperm : ([] ++ (p, value) :: (m.args.zip values).erase (p, value)).Perm
      (m.args.zip values) := (List.perm_cons_erase hmem).symm
  obtain ⟨order, horder⟩ := exists_order hargs hlength hperm
  have hsplit : m.trace [] = ofBody a ++ ofBody p ++ ofBody b := by
    rw [TextMacro.trace, List.foldl_nil, hbody]
    simp only [ofBody, List.map_append]
  obtain ⟨-, ha, hb⟩ := h.own order [] p value _ horder _ _ _ hsplit (text_ofBody p)
  rw [text_ofBody] at ha hb
  exact ⟨ha, hb⟩

/-- A simultaneous expansion does not find a parameter in an argument: begin with the one
that puts the argument in, and go on with the other. -/
theorem Simultaneous.free (h : Simultaneous m values) (hargs : m.args.Nodup)
    (hident : ∀ p ∈ m.args, Identifier p) (hlength : values.length = m.args.length)
    {p q : Str} (hmem : (p, value) ∈ m.args.zip values) (hoccurs : p <:+: m.body)
    (hq : q ∈ m.args) (hne : q ≠ p) : ¬ q <:+: value := by
  rintro ⟨x, y, rfl⟩
  obtain ⟨w, hqw⟩ := exists_mem_zip hlength hq
  have hfirst := List.perm_cons_erase hmem
  have hqrest : (q, w) ∈ (m.args.zip values).erase (p, x ++ q ++ y) := by
    refine (List.mem_cons.mp (hfirst.mem_iff.mp hqw)).resolve_left fun heq => hne ?_
    exact congrArg Prod.fst heq
  have hperm : ([(p, x ++ q ++ y)] ++ (q, w) ::
      ((m.args.zip values).erase (p, x ++ q ++ y)).erase (q, w)).Perm (m.args.zip values) :=
    (hfirst.trans ((List.perm_cons_erase hqrest).cons _)).symm
  obtain ⟨order, horder⟩ := exists_order hargs hlength hperm
  have hident' := hident q hq
  -- the argument stands in the text after the first replacement
  have hbody : ofBody m.body ≠ [] := by
    intro hnil
    rw [ofBody, List.map_eq_nil_iff] at hnil
    rw [hnil, List.infix_nil] at hoccurs
    exact (hident p (mem_args_of_mem_zip hmem)).ne_nil hoccurs
  have htext : p <:+: (ofBody m.body).map Prod.fst := by
    rwa [show (ofBody m.body).map Prod.fst = m.body from text_ofBody m.body]
  obtain ⟨a, b, hab⟩ := exists_replaceOn (ofArgument (x ++ q ++ y)) htext hbody
  have hsplit : m.trace [(p, x ++ q ++ y)] =
      (a ++ ofArgument x) ++ ofArgument q ++ (ofArgument y ++ b) := by
    rw [TextMacro.trace, List.foldl_cons, List.foldl_nil]
    refine hab.trans ?_
    simp only [ofArgument, List.map_append, List.append_assoc]
  obtain ⟨horigin, -, -⟩ := h.own order _ q w _ horder _ _ _ hsplit (text_ofArgument q)
  obtain ⟨c, q, rfl⟩ := List.exists_cons_of_ne_nil hident'.ne_nil
  cases horigin (c, true) List.mem_cons_self

/-- The expansion of a text macro is simultaneous exactly if its parameters are separate, for
every body, distinct identifiers as parameters, and an argument for each. -/
theorem simultaneous_iff (m : TextMacro) (values : List Str) (hargs : m.args.Nodup)
    (hident : ∀ p ∈ m.args, Identifier p) (hlength : values.length = m.args.length) :
    Simultaneous m values ↔ SeparateParameters m values := by
  constructor
  · intro h
    exact ⟨fun p hp a b hbody => h.whole hargs hlength hp hbody,
      fun p value hmem hoccurs q hq hne => h.free hargs hident hlength hmem hoccurs hq hne⟩
  · intro h
    have hzip := bindings_eq_zip hargs hlength
    have hperm : ∀ order : DictOrder,
        (order.items (bindings m.args values)).Perm (m.args.zip values) := by
      intro order
      rw [hzip]
      exact order.perm _
    refine ⟨fun order => ?_, fun order done key value rest hitems => ?_⟩
    · -- the text after all replacements
      have hall := hperm order
      have hkeys : ∀ e ∈ order.items (bindings m.args values), e.1 ≠ [] := fun e he =>
        (hident e.1 (mem_args_of_mem_zip (hall.mem_iff.mp he))).ne_nil
      have hnodup : ((m.args.zip values).map Prod.fst).Nodup := by
        rwa [List.map_fst_zip hlength.ge]
      have hexpand : (m.toMacro order).expand (bindings m.args values) =
          .ok (m.expandItems (order.items (bindings m.args values))) := rfl
      rw [← List.append_nil (order.items _)] at hall
      rw [hexpand, ← text_trace hkeys, trace_eq h hargs hident hlength hall, substitute,
        Traced.text, List.map_flatMap]
      congr 2
      funext w
      rw [List.append_nil] at hall
      rw [← lookup_eq_of_perm hall hnodup w]
      exact text_renderPiece _ w
    · have hsplit := hperm order
      rw [hitems] at hsplit
      have hprogress := progress_of_perm hargs hlength hsplit
      rw [trace_eq h hargs hident hlength hsplit]
      exact ownOccurrences_pieces (pieced_pieces m.body)
        (fun e he => hident e.1 (mem_args_of_mem_zip (hprogress.mem e he)))
        (hident key hprogress.key_mem) (alone_of_separateParameters h hident hprogress)

end Simultaneous

/-! ## An argument that is rewritten -/

/-- `macro f(x, y) = x;` -/
def macroF : TextMacro := ⟨[['x'], ['y']], ['x']⟩

/-- Two arguments. -/
theorem simultaneous_iff_two :
    Simultaneous macroF [['a'], ['b']] ↔ SeparateParameters macroF [['a'], ['b']] :=
  simultaneous_iff macroF [['a'], ['b']] (by decide) (by decide) rfl

/-- The first argument is the name of the second parameter, and the second replacement
rewrites it. -/
theorem not_simultaneous :
    readMacros (fun _ => .error (.raised [])) ["macro f(x, y) = x;".toList] =
        .ok ⟨[], [(['f'], .text macroF)]⟩ ∧
      expandMacros [(['f'], macroF.toMacro insertionOrder)] 2 "f(y, 1)".toList = .ok ['1'] ∧
      substitute (macroF.args.zip [['y'], ['1']]) macroF.body = ['y'] ∧
      ¬ Simultaneous macroF [['y'], ['1']] := by
  have hsubstitute : substitute (macroF.args.zip [['y'], ['1']]) macroF.body = ['y'] := by decide
  refine ⟨rfl, by decide, hsubstitute, fun h => ?_⟩
  have hresult := h.result insertionOrder
  rw [hsubstitute] at hresult
  exact absurd hresult (by decide)

end NodeMini.Js2c
