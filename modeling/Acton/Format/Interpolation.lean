import Acton.Format.Literal

/-!
# String interpolation

A literal with embedded expressions becomes a format string, in which every expression stands as
`%s`, and the string conversions of the expressions are its arguments. The text between them is put
into the format string as it is. So percent signs in it are read as conversion specifications, and
it is not split at hexadecimal escape sequences. `value` goes through all passes: the parser, the
type checker, the normalizer, the code generator, the C compiler, and `$FORMAT` at run time.

If the text avoids what these passes do not treat as text, the value is the concatenation that is
meant (`value_eq_concatenation`).
-/

namespace Acton.Format
open List Option CFormat Atom Parts
open CFormat (CChar Piece backslash dquote newline read pieces output cString)

/-! ### The parser -/

inductive StringPart (E : Type)
  | text (is : List Item)
  /-- An expression without a format specification. -/
  | expr (e : E)

section Interpolation
variable {E : Type}

/-- The text of a literal without expressions. -/
def textContent (ps : List (StringPart E)) : List Char := ps.flatMap fun
    | .text is => rawText (atoms is)
    | .expr _ => []

def exprs (ps : List (StringPart E)) : List E := ps.filterMap fun
    | .text _ => none
    | .expr e => some e

def buildFormatString : List (StringPart E) → List Char
  | [] => []
  | .text is :: ps => rawText (atoms is) ++ buildFormatString ps
  | .expr _ :: ps => '%' :: 's' :: buildFormatString ps

/-! ### The value at run time -/

/-- A string from memory. Bytes that are no characters are an error. -/
def toStr (v : List CChar) : Option (List Char) := (cString v).mapM fun
    | .char c => some c
    | .byte _ => none

/-- `$FORMAT` with string arguments. -/
def formatted (str : E → List Char) (fmt : List Char) (es : List E) : Option (List Char) :=
  match formatTypes fmt with
  | .error _ => none
  | .ok ts =>
    -- the arguments have to be of the types that the type checker finds
    if ts = List.replicate es.length .str then do
      let lit ← formatLit (catStrings [fmt]).flatten
      let v ← read false lit
      let qs ← pieces v
      let cs ← castLit (catStrings [fmt]).flatten es
      let out ← output qs (cs.map fun c => (str c.2).map .char)
      toStr out
    else none

/-- The value of a literal, where `str` are the string conversions of the expressions. -/
def value (str : E → List Char) (ps : List (StringPart E)) : Option (List Char) :=
  if exprs ps = [] then do
    let v ← read false (catStrings (hexSplitString (textContent ps))).flatten
    toStr v
  else formatted str (buildFormatString ps) (exprs ps)

/-- What is meant. -/
def concatenation (str : E → List Char) (ps : List (StringPart E)) : List Char := ps.flatMap fun
    | .text is => (atoms is).map Atom.denotes
    | .expr e => str e

/-! ### Text between expressions -/

/-- The text before the first expression, and each expression with the text after it. -/
def runs : List (StringPart E) → List Atom × List (E × List Atom)
  | [] => ([], [])
  | .text is :: ps => (atoms is ++ (runs ps).1, (runs ps).2)
  | .expr e :: ps => ([], (e, (runs ps).1) :: (runs ps).2)

def texts (ps : List (StringPart E)) : List (List Atom) := (runs ps).1 :: (runs ps).2.map Prod.snd

lemma exprs_eq (ps : List (StringPart E)) : exprs ps = (runs ps).2.map Prod.fst := by
  induction ps with
  | nil => rfl
  | cons p ps ih =>
    cases p with
    | text as => exact ih
    | expr e => exact congrArg (e :: ·) ih

lemma buildFormatString_eq (ps : List (StringPart E)) :
    buildFormatString ps = rawText (runs ps).1 ++
      (runs ps).2.flatMap fun p => '%' :: 's' :: rawText p.2 := by
  induction ps with
  | nil => rfl
  | cons p ps ih =>
    cases p with
    | text as => rw [buildFormatString, ih, runs, rawText_append, append_assoc]
    | expr e =>
      rw [buildFormatString, ih, runs]
      simp [rawText]

lemma textContent_eq (ps : List (StringPart E)) : textContent ps = rawText (texts ps).flatten := by
  induction ps with
  | nil => rfl
  | cons p ps ih =>
    cases p with
    | text is =>
      have hflat : (texts (.text is :: ps)).flatten = atoms is ++ (texts ps).flatten := by
        simp [texts, runs]
      rw [hflat, rawText_append, ← ih]
      rfl
    | expr e => exact ih

lemma concatenation_eq (str : E → List Char) (ps : List (StringPart E)) :
    concatenation str ps = (runs ps).1.map Atom.denotes ++
      (runs ps).2.flatMap fun p => str p.1 ++ p.2.map Atom.denotes := by
  induction ps with
  | nil => rfl
  | cons p ps ih =>
    rw [concatenation] at ih
    cases p with
    | text as => rw [concatenation, flatMap_cons, ih, runs, map_append, append_assoc]
    | expr e =>
      rw [concatenation, flatMap_cons, ih, runs]
      simp

/-! ### Literals without expressions -/

lemma cString_map_char {cs : List Char} (h : Char.ofNat 0 ∉ cs) :
    cString (cs.map .char) = cs.map .char := by
  refine cString_eq_self ?_
  simp only [List.mem_map]
  rintro _ ⟨c, hc, rfl⟩ ⟨⟩
  exact h hc

lemma toStr_map_char {cs : List Char} (h : Char.ofNat 0 ∉ cs) : toStr (cs.map .char) = some cs := by
  rw [toStr, cString_map_char h]
  clear h
  induction cs with
  | nil => rfl
  | cons c cs ih =>
    rw [map_cons, mapM_cons, ih]
    rfl

variable {as : List Atom}

/-- The text is not split at wrong places, and where it is necessary. -/
theorem exists_split (h : HexFree as ∨ hasActualHexEscapes (rawText as)) :
    ∃ ass : List (List Atom), hexSplitString (rawText as) = ass.map rawText ∧ ass.flatten = as ∧
      (∀ cs ∈ ass, HexFree cs) ∧ ((∀ cs ∈ ass, Lexed cs) → Lexed as) := by
  by_cases hhas : hasActualHexEscapes (rawText as)
  · exact exists_hexSplitString hhas
  · have hsplit : hexSplitString (rawText as) = [rawText as] := by
      rw [hexSplitString, if_neg hhas]
      split_ifs with hnil
      · rw [hnil]
      · rfl
    exact ⟨[as], hsplit, by simp, by simpa [hhas] using h, by simp⟩

lemma read_catStrings {ass : List (List Atom)} (hread : ∀ as ∈ ass, ∀ a ∈ as, a.Readable)
    (hlex : ∀ as ∈ ass, Lexed as) (hfree : ∀ as ∈ ass, HexFree as) :
    read false (catStrings (ass.map rawText)).flatten =
      some (ass.flatten.map fun a => .char a.denotes) := by
  induction ass with
  | nil => simp [catStrings]
  | cons as ass ih =>
    rw [map_cons, flatten_catStrings_cons, read_false_cons, if_pos rfl,
      read_rawText (hread as (by simp)) (hlex as (by simp)) (hfree as (by simp)),
      ih (fun b hb => hread b (by simp [hb])) (fun b hb => hlex b (by simp [hb]))
        fun b hb => hfree b (by simp [hb])]
    simp

lemma lexed_of_mem_flatten {ass : List (List Atom)} (h : Lexed ass.flatten) :
    ∀ as ∈ ass, Lexed as := by
  induction ass with
  | nil => simp
  | cons as ass ih =>
    obtain ⟨has, hass⟩ := lexed_of_append h
    intro bs hbs
    obtain rfl | hbs := mem_cons.mp hbs
    · exact has
    · exact ih hass bs hbs

lemma value_of_text (hread : ∀ a ∈ as, a.Readable ∧ a.denotes ≠ Char.ofNat 0) (hlex : Lexed as)
    (hhex : HexFree as ∨ hasActualHexEscapes (rawText as)) :
    (read false (catStrings (hexSplitString (rawText as))).flatten).bind toStr =
      some (as.map Atom.denotes) := by
  obtain ⟨ass, hsplit, rfl, hfree, -⟩ := exists_split hhex
  have hnull : Char.ofNat 0 ∉ ass.flatten.map denotes := by
    intro h
    obtain ⟨a, ha, hd⟩ := mem_map.mp h
    exact (hread a ha).2 hd
  rw [hsplit, read_catStrings (fun as has a ha => (hread a (mem_flatten.mpr ⟨as, has, ha⟩)).1)
    (lexed_of_mem_flatten hlex) hfree, bind_some, ← toStr_map_char hnull, List.map_map]
  rfl

/-! ### Literals with expressions -/

/-- The specification `%s`. -/
def strSpec : Spec := { charSpec with conv := 's', conv_ok := by decide }

/-- Text, where it has no percent signs. -/
def toText (r : List Char) : Text := ⟨r.filter (· ≠ '%'), by simp⟩

lemma val_toText {r : List Char} (h : '%' ∉ r) : (toText r).1 = r :=
  filter_eq_self.mpr fun c hc => by
    rw [decide_eq_true_eq]
    rintro rfl
    exact h hc

/-- The parts of the format string. -/
def formatParts (ps : List (StringPart E)) : Parts :=
  ⟨toText (rawText (runs ps).1), (runs ps).2.map fun p => (strSpec, toText (rawText p.2))⟩

lemma Atom.percent_not_mem_raw {a : Atom} (h : a.denotes ≠ '%') : '%' ∉ a.raw := by
  have hb : '%' ≠ backslash := by decide
  have hdigits : ∀ {ds : List Char}, (∀ d ∈ ds, isHex d) → '%' ∉ ds := fun hds hm =>
    absurd (hds '%' hm) (by decide)
  cases a with
  | char c hc =>
    have hne : c ≠ '%' := h
    simpa [raw] using hne.symm
  | single c hc =>
    have hsingle : ∀ x ∈ singleChars, '%' ≠ x := forall_mem_of_all (by decide)
    simp [raw, hsingle c hc, hb]
  | hex a b hab =>
    have hab' : '%' ∉ [a, b] := hdigits (by simpa using hab)
    simpa [raw, hb] using hab'
  | oct ds hds =>
    have hds' : '%' ∉ ds := hdigits fun d hd => isHex_of_isOct (hds.1 d hd)
    simpa [raw, hb] using hds'
  | univ1 ds hds | univ2 ds hds => simpa [raw, hb] using hdigits hds.1

lemma percent_not_mem_rawText (h : ∀ a ∈ as, a.denotes ≠ '%') : '%' ∉ rawText as := by
  intro hm
  obtain ⟨a, ha, hm⟩ := mem_flatMap.mp hm
  exact percent_not_mem_raw (h a ha) hm

/-- Text that is treated as such in a format string. -/
structure Tame (as : List Atom) : Prop where
  readable : ∀ a ∈ as, a.Readable
  lexed : Lexed as
  hexFree : HexFree as
  denotes : ∀ a ∈ as, a.denotes ≠ Char.ofNat 0 ∧ a.denotes ≠ '%'

lemma Tame.clean (h : Tame as) :
    Clean (rawText as) ∧ textOf (rawText as) = as.map fun a => .char a.denotes := by
  have hliteral : literal (escape (rawText as)) = some (as.map fun a => .char a.denotes) := by
    rw [literal, read_false_cons, if_pos rfl, read_rawText h.readable h.lexed h.hexFree]
    simp
  refine ⟨⟨by rw [hliteral]; rfl, ?_⟩, by rw [textOf, hliteral]; rfl⟩
  rw [textOf, hliteral]
  simp only [getD_some, List.mem_map]
  rintro _ ⟨a, ha, rfl⟩
  simpa using h.denotes a ha

lemma Tame.val_toText (h : Tame as) : (toText (rawText as)).1 = rawText as :=
  Format.val_toText (percent_not_mem_rawText fun a ha => (h.denotes a ha).2)

section Formatted
variable {str : E → List Char} {ps : List (StringPart E)}

lemma mem_texts {p : E × List Atom} (hp : p ∈ (runs ps).2) : p.2 ∈ texts ps := by
  rw [texts, mem_cons, List.mem_map]
  exact .inr ⟨p, hp, rfl⟩

lemma raw_formatParts (h : ∀ as ∈ texts ps, Tame as) :
    (formatParts ps).raw = buildFormatString ps := by
  rw [buildFormatString_eq, Parts.raw, formatParts, (h _ (by simp [texts])).val_toText,
    flatMap_map]
  congr 1
  refine flatMap_congr fun p hp => ?_
  rw [(h p.2 (mem_texts hp)).val_toText]
  rfl

lemma clean_formatParts (h : ∀ as ∈ texts ps, Tame as) : (formatParts ps).Clean := by
  have hclean : ∀ as ∈ texts ps, Clean (toText (rawText as)) := fun as has => by
    rw [(h as has).val_toText]
    exact (h as has).clean.1
  refine ⟨hclean _ (by simp [texts]), ?_⟩
  intro q hq
  obtain ⟨p, hp, rfl⟩ := mem_map.mp hq
  exact hclean p.2 (mem_texts hp)

lemma types_formatParts (ps : List (StringPart E)) :
    (formatParts ps).types = List.replicate (exprs ps).length .str := by
  rw [types, specs, formatParts, exprs_eq, length_map, List.map_map, flatMap_map]
  induction (runs ps).2 with
  | nil => rfl
  | cons p rest ih =>
    rw [flatMap_cons, ih]
    rfl

lemma passed_formatParts (ps : List (StringPart E)) :
    (formatParts ps).passed = List.replicate (exprs ps).length .charPtr := by
  rw [passed, specs, formatParts, exprs_eq, length_map, List.map_map, flatMap_map]
  induction (runs ps).2 with
  | nil => rfl
  | cons p rest ih =>
    rw [flatMap_cons, ih]
    rfl

lemma output_rest {rest : List (E × List Atom)} (hrest : ∀ p ∈ rest, Char.ofNat 0 ∉ str p.1 ∧
      textOf (toText (rawText p.2)) = p.2.map fun a => .char a.denotes) :
    output (rest.flatMap fun p =>
        .conv strSpec.toC :: (textOf (toText (rawText p.2))).map Piece.text)
        (rest.map fun p => (str p.1).map .char) =
      some ((rest.flatMap fun p => str p.1 ++ p.2.map Atom.denotes).map .char) := by
  have hspec : strSpec.toC = stringSpec := by decide
  induction rest with
  | nil => rfl
  | cons p rest ih =>
    obtain ⟨hnull, htext⟩ := hrest p (by simp)
    rw [flatMap_cons, cons_append, map_cons, hspec, output, if_neg (by decide), if_pos rfl,
      output_text, ← hspec, ih fun q hq => hrest q (by simp [hq]), htext,
      cString_map_char hnull]
    simp

/-- The output is made of the text and the arguments. -/
theorem output_formatParts (h : ∀ as ∈ texts ps, Tame as)
    (hstr : ∀ e ∈ exprs ps, Char.ofNat 0 ∉ str e) :
    output (formatParts ps).pieces ((exprs ps).map fun e => (str e).map .char) =
      some ((concatenation str ps).map .char) := by
  have htext : ∀ as ∈ texts ps,
      textOf (toText (rawText as)) = as.map fun a => .char a.denotes := fun as has => by
    rw [(h as has).val_toText]
    exact (h as has).clean.2
  have hrest : ∀ p ∈ (runs ps).2, Char.ofNat 0 ∉ str p.1 ∧
      textOf (toText (rawText p.2)) = p.2.map fun a => .char a.denotes := fun p hp => by
    refine ⟨hstr p.1 ?_, htext p.2 (mem_texts hp)⟩
    rw [exprs_eq]
    exact mem_map_of_mem hp
  rw [Parts.pieces, formatParts, CFormat.output_text, htext _ (by simp [texts]), exprs_eq,
    concatenation_eq, flatMap_map, List.map_map]
  refine (congrArg _ (output_rest hrest)).trans ?_
  simp

lemma null_not_mem_concatenation (h : ∀ as ∈ texts ps, ∀ a ∈ as, a.denotes ≠ Char.ofNat 0)
    (hstr : ∀ e ∈ exprs ps, Char.ofNat 0 ∉ str e) : Char.ofNat 0 ∉ concatenation str ps := by
  have hdenotes : ∀ as ∈ texts ps, Char.ofNat 0 ∉ as.map denotes := by
    intro as has hm
    obtain ⟨a, ha, hd⟩ := mem_map.mp hm
    exact h as has a ha hd
  rw [concatenation_eq, mem_append, mem_flatMap]
  rintro (hm | ⟨p, hp, hm⟩)
  · exact hdenotes _ (by simp [texts]) hm
  · obtain hm | hm := mem_append.mp hm
    · refine hstr p.1 ?_ hm
      rw [exprs_eq]
      exact mem_map_of_mem hp
    · exact hdenotes p.2 (mem_texts hp) hm

lemma formatted_eq (h : ∀ as ∈ texts ps, Tame as) (hstr : ∀ e ∈ exprs ps, Char.ofNat 0 ∉ str e) :
    formatted str (buildFormatString ps) (exprs ps) = some (concatenation str ps) := by
  have hraw : [buildFormatString ps] = [formatParts ps].map Parts.raw := by
    rw [map_singleton, raw_formatParts h]
  have hclean : ∀ q ∈ [formatParts ps], q.Clean := by
    simpa using clean_formatParts h
  have htypes : formatTypes (buildFormatString ps) =
      .ok (List.replicate (exprs ps).length .str) := by
    have htypes := formatTypes_raw [formatParts ps]
    rwa [← hraw, flatten_singleton, flatMap_singleton, types_formatParts] at htypes
  have hcast : castLit (catStrings [buildFormatString ps]).flatten (exprs ps) =
      some ((formatParts ps).passed.zip (exprs ps)) := by
    rw [hraw, castLit_catStrings, flatMap_singleton, passAll_eq]
    rw [passed_formatParts, length_replicate]
  have hsnd : ((formatParts ps).passed.zip (exprs ps)).map Prod.snd = exprs ps :=
    map_snd_zip (by rw [passed_formatParts, length_replicate])
  have hargs : ((formatParts ps).passed.zip (exprs ps)).map (fun c => (str c.2).map CChar.char) =
      (exprs ps).map fun e => (str e).map .char := by
    conv_rhs => rw [← hsnd, List.map_map]
    rfl
  have hlit := formatLit_catStrings [formatParts ps]
  have hread := read_literal hclean
  have hpieces := pieces_literal hclean
  rw [← hraw, flatMap_singleton] at hlit
  rw [flatMap_singleton, flatMap_singleton] at hread
  rw [flatMap_singleton, flatMap_singleton] at hpieces
  have hnull : Char.ofNat 0 ∉ concatenation str ps :=
    null_not_mem_concatenation (fun as has a ha => ((h as has).denotes a ha).1) hstr
  simp only [formatted, htypes, if_true, hcast, hlit, hread, hpieces, bind_eq_bind,
    bind_some, hargs, output_formatParts h hstr, toStr_map_char hnull]

end Formatted

/-! ### The value of a literal -/

/-- What the passes treat as text: characters that C can denote by the escape sequences that are
used, no null characters, no percent signs next to expressions, no octal escape sequences before
digits of the next line, and no hexadecimal ones before digits, except where the parser splits the
literal. -/
structure Plain (str : E → List Char) (ps : List (StringPart E)) : Prop where
  lexed : ∀ as ∈ texts ps, Lexed as
  readable : ∀ as ∈ texts ps, ∀ a ∈ as, a.Readable ∧ a.denotes ≠ Char.ofNat 0
  str : ∀ e ∈ exprs ps, Char.ofNat 0 ∉ str e
  percent : exprs ps ≠ [] → ∀ as ∈ texts ps, ∀ a ∈ as, a.denotes ≠ '%'
  hexFree : (∀ as ∈ texts ps, HexFree as) ∨ (exprs ps = [] ∧ hasActualHexEscapes (textContent ps))

/-- The value of a literal is the concatenation of its text and the string conversions of its
expressions, if all that is meant as text is treated as text. -/
theorem value_eq_concatenation {str : E → List Char} {ps : List (StringPart E)}
    (h : Plain str ps) : value str ps = some (concatenation str ps) := by
  rw [value]
  split_ifs with hexprs
  · have hrest : (runs ps).2 = [] := by
      rw [exprs_eq] at hexprs
      exact map_eq_nil_iff.mp hexprs
    have htexts : texts ps = [(runs ps).1] := by rw [texts, hrest, map_nil]
    have hcontent : textContent ps = rawText (runs ps).1 := by
      rw [textContent_eq, htexts, flatten_singleton]
    have hhex : HexFree (runs ps).1 ∨ hasActualHexEscapes (rawText (runs ps).1) := by
      rw [← hcontent]
      exact h.hexFree.imp (fun hf => hf _ (by simp [texts])) And.right
    rw [concatenation_eq, hrest, flatMap_nil, append_nil, hcontent]
    exact value_of_text (h.readable _ (by simp [texts])) (h.lexed _ (by simp [texts])) hhex
  · refine formatted_eq (fun as has => ⟨?_, h.lexed as has, ?_, ?_⟩) h.str
    · exact fun a ha => (h.readable as has a ha).1
    · exact h.hexFree.elim (fun hf => hf as has) fun hf => absurd hf.1 hexprs
    · exact fun a ha => ⟨(h.readable as has a ha).2, h.percent hexprs as has a ha⟩

end Interpolation

/-- The literal `"x{e}"`, with the end of a line after the first character. -/
theorem value_eq_concatenation_simple :
    value (fun _ : Unit => ['a', 'b'])
        [.text [.atom (.char 'x' (by decide)), .newlineEscape], .expr ()] =
      some ['x', 'a', 'b'] := by
  refine value_eq_concatenation ⟨?_, ?_, ?_, ?_, .inl ?_⟩
  · simp [texts, runs, atoms, filterMap_cons, Item.atom?, Lexed, Atom.OctStops]
  · simp [texts, runs, atoms, Item.atom?, Atom.Readable, denotes]
  · simp [exprs]
  · simp [texts, runs, atoms, Item.atom?, denotes]
  · simp [texts, runs, atoms, filterMap_cons, Item.atom?, HexFree, Atom.HexStops]

/-- The specification `%%`. -/
def percentSpec : Spec := { charSpec with conv := '%', conv_ok := by decide }

/-- In the literal `"{e}%%"` one of the percent signs is lost. -/
theorem value_loses_percent : value (fun _ : Unit => ['a', 'b'])
        [.expr (), .text [.atom (.char '%' (by decide)), .atom (.char '%' (by decide))]] =
          some ['a', 'b', '%'] ∧
      concatenation (fun _ : Unit => ['a', 'b'])
        [.expr (), .text [.atom (.char '%' (by decide)), .atom (.char '%' (by decide))]] =
          ['a', 'b', '%', '%'] := by
  refine ⟨?_, rfl⟩
  let ps : Parts := ⟨⟨[], by simp⟩, [(strSpec, ⟨[], by simp⟩), (percentSpec, ⟨[], by simp⟩)]⟩
  have hraw : [['%', 's', '%', '%']] = [ps].map Parts.raw := rfl
  have hclean : ∀ q ∈ [ps], q.Clean := by
    intro q hq
    obtain rfl := mem_singleton.mp hq
    refine ⟨clean_nil.1, fun p hp => ?_⟩
    obtain rfl | hp := mem_cons.mp hp
    · exact clean_nil.1
    · obtain rfl := mem_singleton.mp hp
      exact clean_nil.1
  have htypes : formatTypes ['%', 's', '%', '%'] = .ok [.str] :=
    (congrArg (fun ss => formatTypes ss.flatten) hraw).trans (formatTypes_raw [ps])
  have hlit := formatLit_catStrings [ps]
  have hread := read_literal hclean
  have hpieces := pieces_literal hclean
  have hcast : castLit (catStrings [['%', 's', '%', '%']]).flatten [()] =
      some [(CFormat.CType.charPtr, ())] := by
    rw [hraw, castLit_catStrings]
    rfl
  rw [← hraw] at hlit
  change formatted (fun _ : Unit => ['a', 'b']) ['%', 's', '%', '%'] [()] = _
  simp only [formatted, htypes, hcast, hlit, hread, hpieces, bind_eq_bind, bind_some]
  have hqs : [ps].flatMap Parts.pieces =
      [.conv CFormat.stringSpec, .conv ⟨[], .digits [], none, .none, '%'⟩] := by
    simp only [ps, Parts.pieces, clean_nil.2, flatMap_cons, flatMap_nil]
    rfl
  rw [hqs]
  rfl

end Acton.Format
