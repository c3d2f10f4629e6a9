import Acton.Format

/-!
# The format string in the generated code

The normalizer puts every string of a literal in quotation marks (`catStrings`), the code generator
rewrites the result for `printf` (`formatLit`) and passes the arguments (`castLit`). C then reads
the string literals and `printf` the format string. `Correct` says that this gives the text of the
literal and conversions for the arguments in their order and with their C types.

It is so, for literals whose text contains no escape sequences for percent signs and null
characters, exactly if all specifications are `Good`. The others are `%c`, `%r`, `%a`, `%s` with a
length modifier, and `%%` with anything between the percent signs.
-/

namespace Acton.Format
open List Option Spec CFormat CFormat.Spec
open CFormat (CChar CType Piece backslash dquote newline literal read pieces forall_mem_of_all
  convType read_false_cons)

/-! ### Quotation marks -/

def mark (x : Char) : List Char := if x = dquote then [backslash, x] else [x]

/-- Quotation marks without a backslash get one. -/
def escape : List Char → List Char
  | [] => []
  | [x] => mark x
  | x :: y :: s => if x = backslash then x :: y :: escape s else mark x ++ escape (y :: s)

def quote (s : List Char) : List Char := dquote :: (s ++ [dquote])
def catStrings (ss : List (List Char)) : List (List Char) := ss.map fun s => quote (escape s)

section Escape
variable {c : Char} {r s : List Char}

lemma escape_cons (hq : c ≠ dquote) (hb : c ≠ backslash) : escape (c :: s) = c :: escape s := by
  cases s with
  | nil => simp [escape, mark, hq]
  | cons d s => simp [escape, mark, hq, hb]

/-- A backslash does not change what stands around any other character. -/
theorem escape_append (hq : c ≠ dquote) (hb : c ≠ backslash) :
    escape (r ++ c :: s) = escape r ++ c :: escape s := by
  fun_induction escape r with
  | case1 => exact escape_cons hq hb
  | case2 x =>
    by_cases hx : x = backslash
    · subst hx
      simp [escape, mark, show backslash ≠ dquote by decide]
    · simp [escape, hx, escape_cons hq hb]
  | case3 y s' ih => simp [escape, ih]
  | case4 x y s' hx ih => simpa [escape, hx] using ih

lemma escape_append_of_plain {t : List Char} (ht : ∀ a ∈ t, a ≠ dquote ∧ a ≠ backslash) :
    escape (t ++ s) = t ++ escape s := by
  induction t with
  | nil => rfl
  | cons a t ih =>
    obtain ⟨hq, hb⟩ := ht a (by simp)
    rw [cons_append, escape_cons hq hb, ih fun x hx => ht x (by simp [hx]), cons_append]

lemma mem_escape (hc : c ∈ escape r) : c ∈ r ∨ c = backslash := by
  have hmark : ∀ x, c ∈ mark x → c = x ∨ c = backslash := by
    intro x hx
    unfold mark at hx
    split_ifs at hx
    · simp only [mem_cons, not_mem_nil, or_false] at hx
      exact hx.symm
    · simp only [mem_singleton] at hx
      exact .inl hx
  fun_induction escape r with
  | case1 => simp at hc
  | case2 x => simpa using hmark x hc
  | case3 y s' ih =>
    simp only [mem_cons] at hc ⊢
    obtain h | h | h := hc
    · exact .inr h
    · exact .inl (.inr (.inl h))
    · obtain h | h := ih h
      · exact .inl (.inr (.inr h))
      · exact .inr h
  | case4 x y s' hx ih =>
    rw [mem_append] at hc
    obtain h | h := hc
    · obtain rfl | h := hmark x h
      · simp
      · exact .inr h
    · obtain h | h := ih h
      · exact .inl (mem_cons_of_mem _ h)
      · exact .inr h

end Escape

def Text.escaped (r : Text) : Text := ⟨escape r, fun h => (mem_escape h).elim r.2 (by decide)⟩

def Parts.escaped (ps : Parts) : Parts :=
  ⟨Text.escaped ps.first, ps.rest.map fun p => (p.1, Text.escaped p.2)⟩

lemma plain_of_mem_specChars : ∀ c ∈ specChars, c ≠ dquote ∧ c ≠ newline ∧ c ≠ backslash :=
  forall_mem_of_all (by decide)

lemma escape_raw (ps : Parts) : escape ps.raw = ps.escaped.raw := by
  obtain ⟨first, rest⟩ := ps
  have hrest : ∀ r : List Char, escape (r ++ rest.flatMap fun p => '%' :: (p.1.raw ++ p.2)) =
        escape r ++ (rest.map fun p => (p.1, Text.escaped p.2)).flatMap
          fun p => '%' :: (p.1.raw ++ p.2) := by
    induction rest with
    | nil => simp
    | cons p rest ih =>
      intro r
      have hspec : ∀ a ∈ p.1.raw, a ≠ dquote ∧ a ≠ backslash := fun a ha =>
        ⟨(plain_of_mem_specChars a (mem_specChars ha)).1,
          (plain_of_mem_specChars a (mem_specChars ha)).2.2⟩
      rw [flatMap_cons, cons_append, escape_append (by decide) (by decide),
        append_assoc, escape_append_of_plain hspec, ih]
      simp [Text.escaped]
  exact hrest first

/-! ### What the code generator writes -/

def Spec.HasLen (sp : Spec) : Prop := sp.len.isSome ∨ sp.conv ∈ intConv
instance (sp : Spec) : Decidable sp.HasLen := inferInstanceAs (Decidable (_ ∨ _))

def Spec.emitted (sp : Spec) : List Char := sp.flags ++ (sp.width.raw ++ (rawPrec sp.prec ++
    ((if sp.HasLen then ['l'] else []) ++ [sp.conv])))

def Parts.emitted (ps : Parts) : List Char :=
  ps.first ++ ps.rest.flatMap fun p => '%' :: (p.1.emitted ++ p.2)

lemma foldr_text_litVisitor (t s : List Char) :
    t.foldr litVisitor.text (some s) = some (t ++ s) := by
  induction t with
  | nil => rfl
  | cons c t ih =>
    rw [foldr_cons, ih]
    rfl

lemma foldr_flag_litVisitor (t s : List Char) :
    t.foldr litVisitor.flag (some s) = some (t ++ s) := by
  induction t with
  | nil => rfl
  | cons c t ih =>
    rw [foldr_cons, ih]
    rfl

lemma lenPart_litVisitor (sp : Spec) (s : List Char) :
    litVisitor.lenPart sp.len (litVisitor.conv sp.len.isSome sp.conv (some s)) =
      some ((if sp.HasLen then ['l'] else []) ++ sp.conv :: s) := by
  cases hl : sp.len with
  | none =>
    by_cases ht : sp.conv ∈ intConv <;> simp [litVisitor, Visitor.lenPart, Spec.HasLen, hl, ht]
  | some l => simp [litVisitor, Visitor.lenPart, Spec.HasLen, hl]

lemma precPart_litVisitor (p : Option Field) (s : List Char) :
    litVisitor.precPart p (some s) = some (rawPrec p ++ s) := by
  rcases p with _ | _ | ds
  · rfl
  · rfl
  · by_cases hds : ds = [] <;>
      simp [litVisitor, Visitor.precPart, Visitor.precField, rawPrec, Field.raw, hds]

lemma widthField_litVisitor (w : Field) (s : List Char) :
    litVisitor.widthField w (some s) = some (w.raw ++ s) := by
  rcases w with _ | ds
  · rfl
  · by_cases hds : ds = [] <;> simp [litVisitor, Visitor.widthField, Field.raw, hds]

lemma spec_litVisitor (sp : Spec) (s : List Char) :
    litVisitor.spec sp (some s) = some ('%' :: (sp.emitted ++ s)) := by
  rw [Visitor.spec, Visitor.head, lenPart_litVisitor, precPart_litVisitor, widthField_litVisitor,
    foldr_flag_litVisitor]
  simp [litVisitor, emitted]

lemma parts_litVisitor (ps : Parts) (s : List Char) :
    litVisitor.parts ps (some s) = some (ps.emitted ++ s) := by
  obtain ⟨first, rest⟩ := ps
  have hrest :
      rest.foldr (fun p a => litVisitor.spec p.1 (p.2.1.foldr litVisitor.text a)) (some s) =
        some ((rest.flatMap fun p => '%' :: (p.1.emitted ++ p.2)) ++ s) := by
    induction rest with
    | nil => rfl
    | cons p rest ih =>
      rw [foldr_cons, ih, foldr_text_litVisitor, spec_litVisitor]
      simp
  rw [Visitor.parts, hrest, foldr_text_litVisitor, Parts.emitted, append_assoc]

lemma flatten_catStrings_cons (s : List Char) (ss : List (List Char)) :
    (catStrings (s :: ss)).flatten = dquote :: (escape s ++ dquote :: (catStrings ss).flatten) := by
  simp [catStrings, quote]

/-- Every scanner goes through the strings of a literal one by one. -/
theorem format_catStrings {α : Type} (V : Visitor α) (pss : List Parts) :
    format V (catStrings (pss.map Parts.raw)).flatten =
      pss.foldr (fun ps a => V.text dquote (V.parts ps.escaped (V.text dquote a))) V.done := by
  have hquote : ∀ s, format V (dquote :: s) = V.text dquote (format V s) := fun s => by
    rw [format, if_neg (by decide)]
  induction pss with
  | nil => simp [catStrings, format]
  | cons ps pss ih =>
    rw [map_cons, flatten_catStrings_cons, escape_raw, hquote, format_parts, hquote, ih, foldr_cons]

lemma formatLit_catStrings (pss : List Parts) : formatLit (catStrings (pss.map Parts.raw)).flatten =
      some (pss.flatMap fun ps => quote ps.escaped.emitted) := by
  rw [formatLit, format_catStrings]
  induction pss with
  | nil => rfl
  | cons ps pss ih =>
    have hquote : ∀ s, litVisitor.text dquote (some s) = some (dquote :: s) := fun s => rfl
    rw [foldr_cons, ih, hquote, parts_litVisitor, hquote]
    simp [quote]

/-! ### The types of the arguments and how they are passed -/

def Parts.types (ps : Parts) : List ArgType := ps.specs.flatMap Spec.types

lemma parts_typesVisitor (ps : Parts) (r : Except FormatError (List ArgType)) :
    typesVisitor.parts ps r = (ps.types ++ ·) <$> r := by
  obtain ⟨first, rest⟩ := ps
  have htext (t : List Char) (a) : t.foldr typesVisitor.text a = a := foldr_fixed t
  rw [Visitor.parts, htext]
  induction rest with
  | nil => cases r <;> rfl
  | cons p rest ih =>
    rw [foldr_cons, ih, htext, spec_typesVisitor]
    cases r <;> simp [Parts.types, Parts.specs]

lemma formatTypes_raw (pss : List Parts) :
    formatTypes (pss.map Parts.raw).flatten = .ok (pss.flatMap Parts.types) := by
  induction pss with
  | nil =>
    rw [formatTypes, map_nil, flatten_nil, format]
    rfl
  | cons ps pss ih =>
    rw [formatTypes] at ih ⊢
    rw [map_cons, flatten_cons, format_parts, ih, parts_typesVisitor]
    rfl

/-- The C types of arguments. -/
def ArgType.passed : ArgType → CType
  | .int => .long
  | .float => .double
  | .str => .charPtr

def Field.passed : Field → List CType
  | .star => [.int]
  | .digits _ => []

def Spec.passed (sp : Spec) : List CType :=
  sp.width.passed ++ (sp.prec.elim [] Field.passed ++ (convTypes sp.conv).map ArgType.passed)

def Parts.passed (ps : Parts) : List CType := ps.specs.flatMap Spec.passed

lemma length_passed_field (f : Field) : f.passed.length = f.types.length := by
  cases f <;> rfl

lemma length_passed (sp : Spec) : sp.passed.length = sp.types.length := by
  have hprec : (sp.prec.elim [] Field.passed).length = (sp.prec.elim [] Field.types).length := by
    cases sp.prec with
    | none => rfl
    | some f => exact length_passed_field f
  simp [passed, types, Head.types, length_passed_field, hprec]

section Cast
variable {E : Type}

/-- Pass arguments on, with C types in this order. -/
def passAll (ts : List CType) (r : List E → Option (List (CType × E))) :
    List E → Option (List (CType × E)) :=
  ts.foldr passNext r

lemma passAll_append (ts us : List CType) (r : List E → Option (List (CType × E))) :
    passAll (ts ++ us) r = passAll ts (passAll us r) :=
  foldr_append

lemma passAll_eq {ts : List CType} {es : List E} (h : es.length = ts.length) :
    passAll ts (fun _ => some []) es = some (ts.zip es) := by
  induction ts generalizing es with
  | nil => rfl
  | cons t ts ih =>
    cases es with
    | nil => simp at h
    | cons e es =>
      have hes : es.length = ts.length := by simpa using h
      have htail := ih hes
      rw [passAll] at htail
      rw [passAll, foldr_cons, passNext, htail, map_some, zip_cons_cons]

lemma conv_castVisitor {b : Bool} {t : Char} (ht : t ∈ convs)
    (r : List E → Option (List (CType × E))) :
    (castVisitor E).conv b t r = passAll ((convTypes t).map ArgType.passed) r := by
  have hpercent : t ∉ intConv → t ∉ floatConv → t ∉ strConv → t = '%' := by
    simp only [convs, mem_append, mem_singleton] at ht
    tauto
  simp only [castVisitor, convTypes]
  split_ifs with h1 h2 h3 h4
  · rfl
  · rfl
  · rfl
  · rfl
  · exact absurd (hpercent h1 h2 h3) h4

lemma spec_castVisitor (sp : Spec) (r : List E → Option (List (CType × E))) :
    (castVisitor E).spec sp r = passAll sp.passed r := by
  have hflags (fs : List Char) (a) : fs.foldr (castVisitor E).flag a = a := foldr_fixed fs
  have hlen : ∀ a, (castVisitor E).lenPart sp.len a = a := fun a => by
    cases h : sp.len <;> rfl
  have hprec : ∀ a, (castVisitor E).precPart sp.prec a =
      passAll (sp.prec.elim [] Field.passed) a := fun a => by
    rcases h : sp.prec with _ | _ | ds
    · rfl
    · rfl
    · by_cases hds : ds = [] <;>
        simp [castVisitor, Visitor.precPart, Visitor.precField, Field.passed, passAll, hds]
  have hwidth : ∀ a, (castVisitor E).widthField sp.width a = passAll sp.width.passed a :=
    fun a => by
    rcases h : sp.width with _ | ds
    · rfl
    · by_cases hds : ds = [] <;>
        simp [castVisitor, Visitor.widthField, Field.passed, passAll, hds]
  rw [Visitor.spec, Visitor.head, hflags, hwidth, hprec, hlen, conv_castVisitor sp.conv_ok,
    passed, passAll_append, passAll_append]
  rfl

lemma parts_castVisitor (ps : Parts) (r : List E → Option (List (CType × E))) :
    (castVisitor E).parts ps r = passAll ps.passed r := by
  obtain ⟨first, rest⟩ := ps
  have htext (t : List Char) (a) : t.foldr (castVisitor E).text a = a := foldr_fixed t
  rw [Visitor.parts, htext]
  induction rest with
  | nil => rfl
  | cons p rest ih =>
    rw [foldr_cons, ih, htext, spec_castVisitor]
    simp only [Parts.passed, Parts.specs, map_cons, flatMap_cons, passAll_append]

lemma castLit_catStrings (pss : List Parts) (es : List E) :
    castLit (catStrings (pss.map Parts.raw)).flatten es =
      passAll (pss.flatMap Parts.passed) (fun _ => some []) es := by
  have hescaped : ∀ ps : Parts, ps.escaped.passed = ps.passed := fun ps => by
    rw [Parts.passed, Parts.specs, Parts.escaped, List.map_map]
    rfl
  rw [castLit, format_catStrings]
  refine congrFun ?_ es
  induction pss with
  | nil => rfl
  | cons ps pss ih =>
    rw [foldr_cons, ih, flatMap_cons, passAll_append, ← hescaped]
    exact parts_castVisitor _ _

end Cast

/-! ### What C reads -/

def Field.toC : Field → CFormat.Field
  | .star => .star
  | .digits ds => .digits (ds.map .char)

/-- The specification that `printf` gets. -/
def Spec.toC (sp : Spec) : CFormat.Spec where
  flags := sp.flags.map .char
  width := sp.width.toC
  prec := sp.prec.map Field.toC
  len := if sp.HasLen then .l else .none
  conv := sp.conv

lemma Field.raw_toC (f : Field) : f.toC.raw = f.raw.map .char := by
  cases f <;> rfl

lemma Spec.raw_toC (sp : Spec) : sp.toC.raw = sp.emitted.map .char := by
  have hprec : CFormat.rawPrec sp.toC.prec = (rawPrec sp.prec).map .char := by
    rw [Spec.toC]
    cases sp.prec with
    | none => rfl
    | some f => simp [CFormat.rawPrec, rawPrec, Field.raw_toC]
  rw [CFormat.Spec.raw, hprec]
  by_cases hl : sp.HasLen <;>
    simp [toC, emitted, Field.raw_toC, CFormat.Len.raw, hl]

lemma isDigit_char {ds : List Char} (hds : ∀ d ∈ ds, isDigit d) :
    ∀ d ∈ ds.map CChar.char, CFormat.isDigit d := by
  intro d hd
  obtain ⟨c, hc, rfl⟩ := mem_map.mp hd
  exact hds c hc

lemma Spec.ok_toC (sp : Spec) : sp.toC.Ok where
  flags := by
    intro c hc
    obtain ⟨f, hf, rfl⟩ := mem_map.mp hc
    exact sp.flags_ok f hf
  width := by
    intro ds hds
    cases hw : sp.width with
    | star => simp [toC, hw, Field.toC] at hds
    | digits ds' =>
      obtain ⟨hall, hhead⟩ := sp.width_ok ds' hw
      obtain rfl : ds'.map .char = ds := by simpa [toC, hw, Field.toC] using hds
      refine ⟨isDigit_char hall, ?_⟩
      cases ds' with
      | nil => simp
      | cons d ds' =>
        rintro c hc rfl
        obtain rfl : d = '0' := by simpa using hc
        exact absurd (hhead '0' rfl) (by decide)
  prec := by
    intro ds hds
    rcases hp : sp.prec with _ | _ | ds'
    · simp [toC, hp] at hds
    · simp [toC, hp, Field.toC] at hds
    · obtain rfl : ds'.map .char = ds := by simpa [toC, hp, Field.toC] using hds
      exact isDigit_char (sp.prec_ok ds' hp)
  conv := by
    have hconv : ∀ t ∈ convs, t ∉ reserved := forall_mem_of_all (by decide)
    exact hconv sp.conv sp.conv_ok

variable {sp : Spec}

lemma Spec.mem_emitted {c : Char} (hc : c ∈ sp.emitted) : c ∈ specChars := by
  have hhead : ∀ a ∈ sp.toHead.raw, a ∈ specChars := fun a ha => Head.mem_specChars ha
  simp only [emitted, mem_append] at hc
  obtain hc | hc | hc | hc | hc := hc
  · exact hhead c (by simp [Head.raw, hc])
  · exact hhead c (by simp [Head.raw, hc])
  · exact hhead c (by simp [Head.raw, hc])
  · split_ifs at hc
    · obtain rfl : c = 'l' := by simpa using hc
      decide
    · simp at hc
  · obtain rfl : c = sp.conv := by simpa using hc
    exact mem_append_right _ sp.conv_ok

/-- What text between two specifications stands for. -/
def textOf (r : List Char) : List CChar := (literal (escape r)).getD []

/-- Text that C reads as a string without percent signs and null characters. -/
def Clean (r : List Char) : Prop :=
  (literal (escape r)).isSome ∧ ∀ a ∈ textOf r, a ≠ .char (Char.ofNat 0) ∧ a ≠ .char '%'

instance (r : List Char) : Decidable (Clean r) := inferInstanceAs (Decidable (_ ∧ _))
def Parts.Clean (ps : Parts) : Prop := Format.Clean ps.first ∧ ∀ p ∈ ps.rest, Format.Clean p.2

/-- The string that C reads. -/
def Parts.value (ps : Parts) : List CChar := textOf ps.first ++ ps.rest.flatMap fun p =>
    .char '%' :: (p.1.emitted.map .char ++ textOf p.2)

/-- The format string that `printf` reads. -/
def Parts.pieces (ps : Parts) : List Piece :=
  (textOf ps.first).map .text ++ ps.rest.flatMap fun p =>
    .conv p.1.toC :: (textOf p.2).map .text

lemma read_text {r s : List Char} {c : Char} (hr : Clean r) (hc : CFormat.isHex c = false) :
    read true (escape r ++ c :: s) = (read true (c :: s)).map (textOf r ++ ·) := by
  obtain ⟨v, hv⟩ := isSome_iff_exists.mp hr.1
  have hread : read true (escape r ++ [dquote]) = some v := by
    rwa [literal, read_false_cons, if_pos rfl] at hv
  rw [read_append hread hc, textOf, hv, getD_some]

/-- The text after the first specification, before and after C reads it. -/
def emitRest (rest : List (Spec × Text)) : List Char :=
  rest.flatMap fun p => '%' :: (p.1.emitted ++ escape p.2)

def valueRest (rest : List (Spec × Text)) : List CChar :=
  rest.flatMap fun p => .char '%' :: (p.1.emitted.map .char ++ textOf p.2)

lemma read_emitRest {rest : List (Spec × Text)} (hrest : ∀ p ∈ rest, Clean p.2)
    {r : List Char} (hr : Clean r) (s : List Char) :
    read true (escape r ++ (emitRest rest ++ dquote :: s)) =
      (read false s).map fun v => textOf r ++ (valueRest rest ++ v) := by
  induction rest generalizing r with
  | nil =>
    rw [emitRest, flatMap_nil, nil_append, read_text hr (by decide), read_dquote]
    rfl
  | cons p rest ih =>
    have hplain : ∀ a ∈ '%' :: p.1.emitted, a ≠ dquote ∧ a ≠ newline ∧ a ≠ backslash := by
      intro a ha
      obtain rfl | ha := mem_cons.mp ha
      · decide
      · exact plain_of_mem_specChars a (mem_emitted ha)
    have hcons : emitRest (p :: rest) ++ dquote :: s =
        '%' :: (p.1.emitted ++ (escape p.2 ++ (emitRest rest ++ dquote :: s))) := by
      simp [emitRest]
    rw [hcons, read_text hr (by decide), ← cons_append, read_map_char hplain,
      ih (fun q hq => hrest q (by simp [hq])) (hrest p (by simp)), Option.map_map, Option.map_map]
    congr 1
    funext v
    simp [valueRest]

lemma read_emitted {ps : Parts} (h : ps.Clean) (s : List Char) :
    read false (quote ps.escaped.emitted ++ s) = (read false s).map (ps.value ++ ·) := by
  have hemit : quote ps.escaped.emitted ++ s =
      dquote :: (escape ps.first ++ (emitRest ps.rest ++ dquote :: s)) := by
    simp [quote, Parts.emitted, Parts.escaped, Text.escaped, emitRest, flatMap_map]
  rw [hemit, read_false_cons, if_pos rfl, read_emitRest h.2 h.1]
  congr 1
  funext v
  simp [Parts.value, valueRest]

lemma pieces_value {ps : Parts} (h : ps.Clean) (s : List CChar) :
    pieces (ps.value ++ s) = (pieces s).map (ps.pieces ++ ·) := by
  obtain ⟨first, rest⟩ := ps
  obtain ⟨hfirst, hrest⟩ := h
  rw [Parts.value, append_assoc, CFormat.pieces_text hfirst.2]
  have hpieces : pieces (valueRest rest ++ s) = (pieces s).map
      ((rest.flatMap fun p => .conv p.1.toC :: (textOf p.2).map .text) ++ ·) := by
    clear hfirst
    induction rest with
    | nil => simp [valueRest]
    | cons p rest ih =>
      have hcons : valueRest (p :: rest) ++ s =
          .char '%' :: (p.1.toC.raw ++ (textOf p.2 ++ (valueRest rest ++ s))) := by
        simp [valueRest, Spec.raw_toC]
      rw [hcons, CFormat.pieces_percent, CFormat.spec_raw p.1.ok_toC, bind_some,
        CFormat.pieces_text (hrest p (by simp)).2, ih fun q hq => hrest q (by simp [hq]),
        Option.map_map, Option.map_map]
      congr 1
      funext v
      simp
  rw [valueRest] at hpieces
  rw [hpieces, Option.map_map]
  congr 1
  funext v
  simp [Parts.pieces]

variable {pss : List Parts}

lemma read_literal (h : ∀ ps ∈ pss, ps.Clean) :
    read false (pss.flatMap fun ps => quote ps.escaped.emitted) =
      some (pss.flatMap Parts.value) := by
  induction pss with
  | nil => simp
  | cons ps pss ih =>
    rw [flatMap_cons, read_emitted (h ps (by simp)), ih fun q hq => h q (by simp [hq])]
    rfl

lemma pieces_literal (h : ∀ ps ∈ pss, ps.Clean) :
    pieces (pss.flatMap Parts.value) = some (pss.flatMap Parts.pieces) := by
  induction pss with
  | nil => simp
  | cons ps pss ih =>
    rw [flatMap_cons, pieces_value (h ps (by simp)), ih fun q hq => h q (by simp [hq])]
    rfl

/-! ### Good specifications -/

/-- The specifications that `printf` understands as the code generator does. -/
def Spec.Good (sp : Spec) : Prop :=
  (sp.conv ∈ intConv ∧ sp.conv ≠ 'c') ∨ sp.conv ∈ floatConv ∨ (sp.conv = 's' ∧ sp.len = none) ∨
    (sp.conv = '%' ∧ sp.raw = ['%'])

lemma Field.args_toC (f : Field) : f.toC.args = f.passed := by
  cases f <;> rfl

/-- The argument that is converted is of the right type. -/
theorem convType_eq_iff : ∀ t ∈ convs, t ≠ '%' → ∀ b : Bool,
    ((convType (if b ∨ t ∈ intConv then .l else .none) t).map ([·]) =
        some ((convTypes t).map ArgType.passed) ↔
      (t ∈ intConv ∧ t ≠ 'c') ∨ t ∈ floatConv ∨ (t = 's' ∧ b = false)) :=
  forall_mem_of_all (by decide)

lemma length_convTypes : ∀ t ∈ convs, t ≠ '%' → (convTypes t).length = 1 :=
  forall_mem_of_all (by decide)

/-- The types that `printf` expects for a specification other than `%%`. -/
theorem Spec.args_toC (hpercent : sp.conv ≠ '%') :
    sp.toC.args = (convType sp.toC.len sp.conv).map fun t =>
      sp.width.passed ++ (sp.prec.elim [] Field.passed ++ [t]) := by
  have hprec : sp.toC.prec.elim [] CFormat.Field.args = sp.prec.elim [] Field.passed := by
    rw [toC]
    cases sp.prec with
    | none => rfl
    | some f => exact f.args_toC
  rw [args, if_neg (show sp.toC.conv ≠ '%' from hpercent), hprec]
  simp only [toC, Field.args_toC]

lemma Spec.bare_toC_iff (hpercent : sp.conv = '%') : sp.toC.Bare ↔ sp.raw = ['%'] := by
  have hint : sp.conv ∉ intConv := by
    rw [hpercent]
    decide
  have hraw : sp.raw = ['%'] ↔ sp.flags = [] ∧ sp.width.raw = [] ∧ rawPrec sp.prec = [] ∧
      sp.len = none := by
    rw [raw, hpercent, append_left_eq_self]
    simp [Head.raw]
  have hlen : sp.toC.len = .none ↔ sp.len = none := by
    cases hl : sp.len <;> simp [toC, Spec.HasLen, hint, hl]
  have hwidth : sp.toC.width = .digits [] ↔ sp.width.raw = [] := by
    rw [toC]
    rcases sp.width with _ | ds <;> simp [Field.toC, Field.raw]
  have hprec : sp.toC.prec = none ↔ rawPrec sp.prec = [] := by
    rw [toC]
    cases sp.prec <;> simp [rawPrec]
  rw [CFormat.Spec.Bare, hraw, hlen, hwidth, hprec]
  simp [toC]

lemma Spec.passed_of_bare (hpercent : sp.conv = '%') (h : sp.toC.Bare) : sp.passed = [] := by
  obtain ⟨-, hw, hp, -⟩ := h
  have hwidth : sp.width.passed = [] := by
    rw [← Field.args_toC, show sp.width.toC = _ from hw]
    rfl
  have hprec : sp.prec = none := map_eq_none_iff.mp hp
  rw [passed, hwidth, hprec, hpercent]
  rfl

lemma Spec.args_toC_iff (sp : Spec) : sp.toC.args = some sp.passed ↔ sp.Good := by
  by_cases hpercent : sp.conv = '%'
  · have hgood : sp.Good ↔ sp.toC.Bare := by
      rw [bare_toC_iff hpercent]
      simp [Spec.Good, hpercent, intConv, floatConv]
    have hargs : sp.toC.args = if sp.toC.Bare then some [] else none := by
      rw [args, if_pos (show sp.toC.conv = '%' from hpercent)]
    rw [hgood, hargs]
    split_ifs with hbare
    · simp [hbare, passed_of_bare hpercent hbare]
    · simp [hbare]
  · have hgood : sp.Good ↔ (sp.conv ∈ intConv ∧ sp.conv ≠ 'c') ∨ sp.conv ∈ floatConv ∨
        (sp.conv = 's' ∧ sp.len.isSome = false) := by
      simp [Spec.Good, hpercent]
    rw [args_toC hpercent, hgood, ← convType_eq_iff _ sp.conv_ok hpercent, passed]
    change Option.map _ (convType (if sp.len.isSome ∨ sp.conv ∈ intConv then .l else .none)
      sp.conv) = _ ↔ _
    cases convType (if sp.len.isSome ∨ sp.conv ∈ intConv then .l else .none) sp.conv with
    | none => simp
    | some t => simp

lemma Spec.length_args_toC {ts : List CType} (h : sp.toC.args = some ts) :
    ts.length = sp.passed.length := by
  by_cases hpercent : sp.conv = '%'
  · rw [args, if_pos (show sp.toC.conv = '%' from hpercent)] at h
    split_ifs at h with hbare
    rw [passed_of_bare hpercent hbare, some.inj h]
  · rw [args_toC hpercent] at h
    obtain ⟨t, -, rfl⟩ := map_eq_some_iff.mp h
    simp [passed, length_convTypes _ sp.conv_ok hpercent]

/-! ### Correctness -/

/-- The text of a format string, with gaps for the conversions. -/
def outline (qs : List Piece) : List (Option CChar) := qs.map fun
    | .text c => some c
    | .conv _ => none

def convsOf (qs : List Piece) : List CFormat.Spec := qs.filterMap fun
    | .text _ => none
    | .conv sp => some sp

def Parts.outline (ps : Parts) : List (Option CChar) :=
  (textOf ps.first).map some ++ ps.rest.flatMap fun p => none :: (textOf p.2).map some

/-- The format string that `printf` reads has the text of the literal, and its conversions take the
arguments that are passed: all of them, in the order in which they were given, and with their C
types. -/
def Correct (pss : List Parts) : Prop := ∃ (lit : List Char) (v : List CChar) (qs : List Piece),
    formatLit (catStrings (pss.map Parts.raw)).flatten = some lit ∧
    read false lit = some v ∧ pieces v = some qs ∧
    outline qs = pss.flatMap Parts.outline ∧
    ∀ (ts : List ArgType) (E : Type) (es : List E),
      formatTypes (pss.map Parts.raw).flatten = .ok ts → es.length = ts.length →
      ∃ (cs : List (CType × E)) (uss : List (List CType)),
        castLit (catStrings (pss.map Parts.raw)).flatten es = some cs ∧
        cs.map Prod.snd = es ∧ cs.map Prod.fst = uss.flatten ∧
        List.Forall₂ (fun sp us => sp.args = some us) (convsOf qs) uss

lemma outline_pieces (pss : List Parts) :
    outline (pss.flatMap Parts.pieces) = pss.flatMap Parts.outline := by
  have htext : ∀ t : List CChar, outline (t.map .text) = t.map some := fun t => by
    simp [outline]
  have hparts : ∀ ps : Parts, outline ps.pieces = ps.outline := by
    rintro ⟨first, rest⟩
    simp only [outline] at htext
    simp [outline, Parts.pieces, Parts.outline, htext, map_flatMap]
  induction pss with
  | nil => rfl
  | cons ps pss ih =>
    rw [flatMap_cons, flatMap_cons, ← ih, ← hparts]
    exact map_append

lemma convsOf_append (qs rs : List Piece) : convsOf (qs ++ rs) = convsOf qs ++ convsOf rs :=
  filterMap_append

lemma convsOf_pieces (pss : List Parts) :
    convsOf (pss.flatMap Parts.pieces) = (pss.flatMap Parts.specs).map Spec.toC := by
  have htext : ∀ t : List CChar, convsOf (t.map .text) = [] := fun t => by
    simp [convsOf]
  have hrest : ∀ rest : List (Spec × Text),
      convsOf (rest.flatMap fun p => .conv p.1.toC :: (textOf p.2).map .text) =
        (rest.map Prod.fst).map toC := fun rest => by
    induction rest with
    | nil => rfl
    | cons p rest ih =>
      have hcons : ∀ qs, convsOf (.conv p.1.toC :: qs) = p.1.toC :: convsOf qs := fun qs => rfl
      rw [flatMap_cons, cons_append, hcons, convsOf_append, htext, ih]
      rfl
  induction pss with
  | nil => rfl
  | cons ps pss ih =>
    rw [flatMap_cons, flatMap_cons, map_append, ← ih, convsOf_append, Parts.pieces,
      convsOf_append, htext, hrest, nil_append, Parts.specs]

/-- If `printf` takes the passed arguments altogether, then each conversion takes those that were
meant for it. -/
theorem args_eq_passed {sps : List Spec} {uss : List (List CType)}
    (h : List.Forall₂ (fun sp us => sp.args = some us) (sps.map Spec.toC) uss)
    (huss : sps.flatMap Spec.passed = uss.flatten) : ∀ sp ∈ sps, sp.toC.args = some sp.passed := by
  induction sps generalizing uss with
  | nil => simp
  | cons sp sps ih =>
    obtain _ | ⟨hargs, htail⟩ := h
    -- the lengths agree, so the two lists of types are split at the same place
    obtain ⟨hus, hrest⟩ := append_inj huss (length_args_toC hargs).symm
    intro sp' hsp'
    obtain rfl | hsp' := mem_cons.mp hsp'
    · rw [hargs, hus]
    · exact ih htail hrest sp' hsp'

lemma correct_iff (hclean : ∀ ps ∈ pss, ps.Clean) :
    Correct pss ↔ ∀ ps ∈ pss, ∀ sp ∈ ps.specs, sp.Good := by
  have hpassed : pss.flatMap Parts.passed = (pss.flatMap Parts.specs).flatMap passed := by
    rw [flatMap_assoc]
    rfl
  have hlength : (pss.flatMap Parts.passed).length = (pss.flatMap Parts.types).length := by
    have hps : ∀ ps : Parts, ps.passed.length = ps.types.length := fun ps => by
      simp only [Parts.passed, Parts.types, length_flatMap, length_passed]
    simp only [length_flatMap, hps]
  have hgood : (∀ ps ∈ pss, ∀ sp ∈ ps.specs, sp.Good) ↔
      ∀ sp ∈ pss.flatMap Parts.specs, sp.toC.args = some sp.passed := by
    simp only [args_toC_iff, mem_flatMap]
    exact ⟨fun h sp ⟨ps, hps, hsp⟩ => h ps hps sp hsp, fun h ps hps sp hsp => h sp ⟨ps, hps, hsp⟩⟩
  rw [hgood]
  constructor
  · rintro ⟨lit, v, qs, hlit, hv, hqs, -, hargs⟩
    obtain rfl : lit = _ := some.inj (hlit.symm.trans (formatLit_catStrings pss))
    obtain rfl : v = _ := some.inj (hv.symm.trans (read_literal hclean))
    obtain rfl : qs = _ := some.inj (hqs.symm.trans (pieces_literal hclean))
    obtain ⟨cs, uss, hcs, -, huss, hall⟩ := hargs _ Unit
      (replicate (pss.flatMap Parts.types).length ()) (formatTypes_raw pss) (by simp)
    rw [castLit_catStrings, passAll_eq (by simp [hlength])] at hcs
    obtain ⟨⟩ := hcs
    rw [map_fst_zip (by simp [hlength]), hpassed] at huss
    rw [convsOf_pieces] at hall
    exact args_eq_passed hall huss
  · intro h
    refine ⟨_, _, _, formatLit_catStrings pss, read_literal hclean, pieces_literal hclean,
      outline_pieces pss, ?_⟩
    intro ts E es hts hes
    obtain rfl : pss.flatMap Parts.types = ts := by
      simpa [formatTypes_raw] using hts
    refine ⟨(pss.flatMap Parts.passed).zip es, (pss.flatMap Parts.specs).map passed, ?_, ?_, ?_, ?_⟩
    · rw [castLit_catStrings, passAll_eq (hes.trans hlength.symm)]
    · exact map_snd_zip (by rw [hes, hlength])
    · rw [map_fst_zip (by rw [hes, hlength]), hpassed]
      rfl
    · rw [convsOf_pieces, forall₂_map_left_iff, forall₂_map_right_iff]
      exact forall₂_same.mpr h

/-- Each string that the type checker accepts is made of text and specifications. If the text is
clean, the literal is translated correctly exactly if all its specifications are good. -/
theorem format_correct_iff {ss : List (List Char)} (hacc : ∀ s ∈ ss, ∃ ts, formatTypes s = .ok ts) :
    (∃ pss : List Parts, pss.map Parts.raw = ss) ∧
      ∀ pss : List Parts, pss.map Parts.raw = ss → (∀ ps ∈ pss, ps.Clean) →
        (Correct pss ↔ ∀ ps ∈ pss, ∀ sp ∈ ps.specs, sp.Good) := by
  refine ⟨?_, fun pss _ hclean => correct_iff hclean⟩
  induction ss with
  | nil => exact ⟨[], rfl⟩
  | cons s ss ih =>
    obtain ⟨ts, hts⟩ := hacc s (by simp)
    obtain ⟨ps, hps⟩ := exists_parts hts
    obtain ⟨pss, hpss⟩ := ih fun s hs => hacc s (by simp [hs])
    exact ⟨ps :: pss, by rw [map_cons, hps, hpss]⟩

lemma clean_nil : Clean [] ∧ textOf [] = [] := by
  have h : literal (escape []) = some [] := by
    simp [literal, escape, read_false_cons]
  simp [Clean, textOf, h]

/-- The specification `%.*f`. -/
def floatSpec : Spec where
  flags := []
  width := .digits []
  prec := some .star
  len := none
  flags_ok := by simp
  width_ok := by simp
  prec_ok := by simp
  len_ok := by simp
  conv := 'f'
  conv_ok := by decide

/-- The literal `"x=%.*f"`. -/
theorem format_correct_iff_precision : ∃ ps : Parts,
    ps.raw = ['x', '=', '%', '.', '*', 'f'] ∧ ps.Clean ∧ Correct [ps] := by
  let ps : Parts := ⟨⟨['x', '='], by simp⟩, [(floatSpec, ⟨[], by simp⟩)]⟩
  have hacc : ∀ s ∈ [['x', '=', '%', '.', '*', 'f']], ∃ ts, formatTypes s = .ok ts := by
    intro s hs
    obtain rfl := mem_singleton.mp hs
    refine ⟨[.int, .float], ?_⟩
    simp [formatTypes, format, flags, width, dot, prec, len, conv, typesVisitor, isFlag, isDigit1,
      isLength, intConv, floatConv]
  have hclean : ps.Clean := by
    refine ⟨?_, fun p hp => ?_⟩
    · have h : literal (escape ['x', '=']) = some [.char 'x', .char '='] := by
        have hescape : escape ['x', '='] = ['x', '='] := by decide
        rw [literal, read_false_cons, if_pos rfl, hescape, cons_append, cons_append,
          CFormat.read_char (by decide) (by decide) (by decide),
          CFormat.read_char (by decide) (by decide) (by decide)]
        simp
      simp [Clean, textOf, h, ps]
    · obtain rfl := mem_singleton.mp hp
      exact clean_nil.1
  refine ⟨ps, rfl, hclean, ((format_correct_iff hacc).2 [ps] rfl (by simpa using hclean)).mpr ?_⟩
  intro q hq sp hsp
  obtain rfl := mem_singleton.mp hq
  obtain rfl : sp = floatSpec := mem_singleton.mp hsp
  exact .inr (.inl (by decide))

/-- The specification `%c`. -/
def charSpec : Spec where
  flags := []
  width := .digits []
  prec := none
  len := none
  flags_ok := by simp
  width_ok := by simp
  prec_ok := by simp
  len_ok := by simp
  conv := 'c'
  conv_ok := by decide

/-- A `%c` becomes `%lc`, for which `printf` expects a `wint_t`, and gets an `int64_t`. -/
theorem format_char_wrong : formatTypes ['%', 'c'] = .ok [.int] ∧
    formatLit (catStrings [['%', 'c']]).flatten = some [dquote, '%', 'l', 'c', dquote] ∧
    (read false [dquote, '%', 'l', 'c', dquote]).bind pieces = some [.conv charSpec.toC] ∧
    charSpec.toC.args = some [.wint] ∧
    castLit (catStrings [['%', 'c']]).flatten [()] = some [(.long, ())] ∧
    ∃ ps : Parts, ps.raw = ['%', 'c'] ∧ ps.Clean ∧ ¬Correct [ps] := by
  let ps : Parts := ⟨⟨[], by simp⟩, [(charSpec, ⟨[], by simp⟩)]⟩
  have hraw : [['%', 'c']] = [ps].map Parts.raw := rfl
  have hclean : ∀ q ∈ [ps], q.Clean := by
    intro q hq
    obtain rfl := mem_singleton.mp hq
    refine ⟨clean_nil.1, fun p hp => ?_⟩
    obtain rfl := mem_singleton.mp hp
    exact clean_nil.1
  have hlit : [ps].flatMap (fun q => quote q.escaped.emitted) = [dquote, '%', 'l', 'c', dquote] :=
    rfl
  have hpieces : [ps].flatMap Parts.pieces = [.conv charSpec.toC] := by
    simp [ps, Parts.pieces, clean_nil.2]
  refine ⟨?_, ?_, ?_, rfl, ?_, ps, rfl, hclean ps (by simp), ?_⟩
  · exact (congrArg (fun ss => formatTypes ss.flatten) hraw).trans (formatTypes_raw [ps])
  · rw [hraw, formatLit_catStrings, hlit]
  · rw [← hlit, read_literal hclean, bind_some, pieces_literal hclean, hpieces]
  · rw [hraw, castLit_catStrings]
    rfl
  · rw [correct_iff hclean]
    intro h
    have hgood := h ps (by simp) charSpec (by simp [ps, Parts.specs])
    revert hgood
    simp [Spec.Good, charSpec, intConv, floatConv]

end Acton.Format
