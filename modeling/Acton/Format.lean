import Acton.ToMathlib.CFormat
import Acton.ToMathlib.Except

/-!
# Format strings

A format string literal is scanned three times: by the type checker, which finds the types of the
arguments (`formatTypes`), and by the code generator, which writes the format string for `printf`
(`formatLit`) and the arguments for it (`castLit`). The three scanners are separate functions in the
source, and they go through flags, width, precision, length modifier and conversion letter in the
same way. Here `format` is this common part, and each scanner is a `Visitor` that says what to do
with what is found.

A literal that the type checker accepts consists of text and conversion specifications
(`exists_parts`), and every scanner goes through these parts one by one (`format_parts`).
-/

namespace Acton.Format
open List
open CFormat (Stops forall_mem_of_all takeWhile_append_of_stops)

/-! ### Scanning -/

def isFlag (c : Char) : Bool := c ∈ ['#', '0', '-', ' ', '+']
def isDigit (c : Char) : Bool := c ∈ ['0', '1', '2', '3', '4', '5', '6', '7', '8', '9']
def isDigit1 (c : Char) : Bool := c ∈ ['1', '2', '3', '4', '5', '6', '7', '8', '9']
def isLength (c : Char) : Bool := c ∈ ['h', 'l', 'L']
def intConv : List Char := ['d', 'i', 'o', 'u', 'x', 'X', 'c']
def floatConv : List Char := ['e', 'E', 'f', 'F', 'g', 'G']
def strConv : List Char := ['r', 's', 'a']

/-- What a scanner does with the parts of a format string; the last argument is its result for the
rest. -/
structure Visitor (α : Type) where
  done : α
  text : Char → α → α
  /-- A percent sign, with the character after it. -/
  percent : Option Char → α → α
  flag : Char → α → α
  widthStar : α → α
  width : List Char → α → α
  dot : α → α
  precStar : α → α
  prec : List Char → α → α
  len : Char → α → α
  /-- A conversion letter, after a length modifier or not. -/
  conv : Bool → Char → α → α
  /-- The string ends before the conversion letter. -/
  noConv : α

/-- Passing digits makes the string shorter. -/
theorem rank_lt (n : Char) (s : List Char) {i j : ℕ} (hi : i < 7) :
    7 * (s.dropWhile isDigit).length + i < 7 * (n :: s).length + j := by
  have := (dropWhile_suffix isDigit (l := s)).length_le
  simp only [length_cons]
  omega

section Scanning
variable {α : Type} (V : Visitor α)

mutual
def format : List Char → α
  | [] => V.done
  | c :: s => if c = '%' then V.percent s.head? (flags s) else V.text c (format s)
termination_by s => 7 * s.length

def flags : List Char → α
  | [] => width []
  | f :: s => if isFlag f then V.flag f (flags s) else width (f :: s)
termination_by s => 7 * s.length + 6

def width : List Char → α
  | [] => dot []
  | n :: s =>
    if n = '*' then V.widthStar (dot s)
    else if isDigit1 n then V.width (n :: s.takeWhile isDigit) (dot (s.dropWhile isDigit))
    else dot (n :: s)
termination_by s => 7 * s.length + 5
decreasing_by all_goals first | exact rank_lt _ _ (by decide) | grind

def dot : List Char → α
  | [] => len []
  | c :: s => if c = '.' then V.dot (prec s) else len (c :: s)
termination_by s => 7 * s.length + 4

def prec : List Char → α
  | [] => len []
  | n :: s =>
    if n = '*' then V.precStar (len s)
    else if isDigit n then V.prec (n :: s.takeWhile isDigit) (len (s.dropWhile isDigit))
    else len (n :: s)
termination_by s => 7 * s.length + 3
decreasing_by all_goals first | exact rank_lt _ _ (by decide) | grind

def len : List Char → α
  | [] => conv false []
  | l :: s => if isLength l then V.len l (conv true s) else conv false (l :: s)
termination_by s => 7 * s.length + 2

def conv (b : Bool) : List Char → α
  | [] => V.noConv
  | t :: s => V.conv b t (format s)
termination_by s => 7 * s.length + 1
end
end Scanning

/-! ### The type checker -/

inductive ArgType
  | int | float | str
  deriving DecidableEq, Repr

inductive FormatError
  | mappingKey
  | badConversionCharacter (c : Char)
  | badConversionString
  deriving DecidableEq, Repr

/-- The types of the arguments that a format string takes. -/
def typesVisitor : Visitor (Except FormatError (List ArgType)) where
  done := .ok []
  text _ r := r
  percent c r := if c = some '(' then .error .mappingKey else r
  flag _ r := r
  widthStar r := (.int :: ·) <$> r
  width _ r := r
  dot r := r
  precStar r := (.int :: ·) <$> r
  prec _ r := r
  len _ r := r
  conv _ t r :=
    if t ∈ intConv then (.int :: ·) <$> r
    else if t ∈ floatConv then (.float :: ·) <$> r
    else if t ∈ strConv then (.str :: ·) <$> r
    else if t = '%' then r
    else .error (.badConversionCharacter t)
  noConv := .error .badConversionString

def formatTypes (s : List Char) : Except FormatError (List ArgType) := format typesVisitor s

/-! ### The code generator -/

/-- The format string for `printf`. Length modifiers become `l`, and integer conversions always
get one. -/
def litVisitor : Visitor (Option (List Char)) where
  done := some []
  text c r := r.map (c :: ·)
  percent _ r := r.map ('%' :: ·)
  flag f r := r.map (f :: ·)
  widthStar r := r.map ('*' :: ·)
  width ds r := r.map (ds ++ ·)
  dot r := r.map ('.' :: ·)
  precStar r := r.map ('*' :: ·)
  prec ds r := r.map (ds ++ ·)
  len _ r := r.map ('l' :: ·)
  conv b t r := if b = false ∧ t ∈ intConv then r.map ('l' :: t :: ·) else r.map (t :: ·)
  noConv := none

def formatLit (s : List Char) : Option (List Char) := format litVisitor s

/-- Pass the next argument on, with a C type. -/
def passNext {E : Type} (t : CFormat.CType) (r : List E → Option (List (CFormat.CType × E))) :
    List E → Option (List (CFormat.CType × E))
  | e :: p => (r p).map ((t, e) :: ·)
  | [] => none

/-- The arguments for `printf` with their C types. An `int` that gives a width or a precision is
cast to `int`; others are passed as they come from `fromB_int`, as `int64_t`. -/
def castVisitor (E : Type) : Visitor (List E → Option (List (CFormat.CType × E))) where
  done _ := some []
  text _ r := r
  percent _ r := r
  flag _ r := r
  widthStar r := passNext .int r
  width _ r := r
  dot r := r
  precStar r := passNext .int r
  prec _ r := r
  len _ r := r
  conv _ t r :=
    if t ∈ intConv then passNext .long r
    else if t ∈ floatConv then passNext .double r
    else if t ∈ strConv then passNext .charPtr r
    else if t = '%' then r
    else fun _ => none
  noConv _ := none

def castLit {E : Type} (s : List Char) (p : List E) : Option (List (CFormat.CType × E)) :=
  format (castVisitor E) s p

/-! ### The parts of a format string -/

inductive Field
  | star
  | digits (ds : List Char)
  deriving DecidableEq

def Field.raw : Field → List Char
  | .star => ['*']
  | .digits ds => ds

/-- A conversion specification without its letter. -/
structure Head where
  flags : List Char
  width : Field
  prec : Option Field
  len : Option Char
  flags_ok : ∀ c ∈ flags, isFlag c
  width_ok : ∀ ds, width = .digits ds → (∀ d ∈ ds, isDigit d) ∧ ∀ d ∈ ds.head?, isDigit1 d
  prec_ok : ∀ ds, prec = some (.digits ds) → ∀ d ∈ ds, isDigit d
  len_ok : ∀ l ∈ len, isLength l

/-- The letters that the type checker accepts. -/
def convs : List Char := intConv ++ floatConv ++ strConv ++ ['%']

structure Spec extends Head where
  conv : Char
  conv_ok : conv ∈ convs

def rawPrec (p : Option Field) : List Char := p.elim [] fun f => '.' :: f.raw

def Head.raw (hd : Head) : List Char :=
  hd.flags ++ (hd.width.raw ++ (rawPrec hd.prec ++ hd.len.toList))

def Spec.raw (sp : Spec) : List Char := sp.toHead.raw ++ [sp.conv]
abbrev Text := { r : List Char // '%' ∉ r }

/-- A format string: the text before the first specification, and each specification with the text
after it. -/
structure Parts where
  first : Text
  rest : List (Spec × Text)

def Parts.raw (ps : Parts) : List Char :=
  ps.first ++ ps.rest.flatMap fun p => '%' :: (p.1.raw ++ p.2)

def Parts.specs (ps : Parts) : List Spec := ps.rest.map Prod.fst

namespace Visitor
variable {α : Type} (V : Visitor α)

def widthField : Field → α → α
  | .star, a => V.widthStar a
  | .digits ds, a => if ds = [] then a else V.width ds a

def precField : Field → α → α
  | .star, a => V.precStar a
  | .digits ds, a => if ds = [] then a else V.prec ds a

def precPart (p : Option Field) (a : α) : α := p.elim a fun f => V.dot (V.precField f a)
def lenPart (l : Option Char) (a : α) : α := l.elim a fun c => V.len c a

/-- What a scanner does with the parts before the letter. -/
def head (hd : Head) (a : α) : α :=
  hd.flags.foldr V.flag (V.widthField hd.width (V.precPart hd.prec (V.lenPart hd.len a)))

def spec (sp : Spec) (a : α) : α :=
  V.percent sp.raw.head? (V.head sp.toHead (V.conv sp.len.isSome sp.conv a))

def parts (ps : Parts) (a : α) : α :=
  ps.first.1.foldr V.text (ps.rest.foldr (fun p a => V.spec p.1 (p.2.1.foldr V.text a)) a)

end Visitor

/-! ### Every scanner goes through the parts -/

variable {c : Char}
section Parts
variable {α : Type} (V : Visitor α) {s : List Char}

lemma flags_append {fs : List Char} (hfs : ∀ f ∈ fs, isFlag f) (hs : Stops isFlag s) :
    flags V (fs ++ s) = fs.foldr V.flag (width V s) := by
  induction fs with
  | nil =>
    cases s with
    | nil => rw [nil_append, flags, foldr_nil]
    | cons c s =>
      have hc : isFlag c = false := hs c rfl
      rw [nil_append, flags, hc, if_neg (by decide), foldr_nil]
  | cons f fs ih =>
    rw [cons_append, flags, if_pos (hfs f (by simp)), ih fun x hx => hfs x (by simp [hx]),
      foldr_cons]

lemma isDigit_of_isDigit1 (hc : isDigit1 c) : isDigit c := by
  simp only [isDigit, isDigit1] at hc ⊢
  grind

lemma ne_star_of_isDigit (hc : isDigit c) : c ≠ '*' := by
  rintro rfl
  revert hc
  decide

/-- The width and the precision are scanned in one way; `p` tells how their digits start. -/
def scanField (p : Char → Bool) (field : Field → α → α) (k : List Char → α) : List Char → α
  | [] => k []
  | n :: s =>
    if n = '*' then field .star (k s)
    else if p n then field (.digits (n :: s.takeWhile isDigit)) (k (s.dropWhile isDigit))
    else k (n :: s)

lemma width_eq (s : List Char) : width V s = scanField isDigit1 V.widthField (dot V) s := by
  cases s <;> rw [width] <;> simp [scanField, Visitor.widthField]

lemma prec_eq (s : List Char) : prec V s = scanField isDigit V.precField (len V) s := by
  cases s <;> rw [prec] <;> simp [scanField, Visitor.precField]

section
variable {p : Char → Bool} (hp : ∀ c, p c → isDigit c) {field : Field → α → α}
  (hfield : ∀ a, field (.digits []) a = a) (k : List Char → α)
include hp hfield

lemma scanField_append {w : Field} (hw : ∀ ds, w = .digits ds → (∀ d ∈ ds, isDigit d) ∧
    ∀ d ∈ ds.head?, p d) (hs : Stops isDigit s) (hstar : ∀ c ∈ s.head?, c ≠ '*') :
    scanField p field k (w.raw ++ s) = field w (k s) := by
  cases w with
  | star => simp [Field.raw, scanField]
  | digits ds =>
    obtain ⟨hds, hhead⟩ := hw ds rfl
    cases ds with
    | nil =>
      rw [hfield]
      cases s with
      | nil => rfl
      | cons c s =>
        have hc : ¬ p c := fun h => by simpa [hs c rfl] using hp c h
        simp [Field.raw, scanField, hstar c rfl, hc]
    | cons d ds =>
      have hd : p d := hhead d rfl
      have hds' : ∀ x ∈ ds, isDigit x := fun x hx => hds x (by simp [hx])
      obtain ⟨htake, hdrop⟩ := takeWhile_append_of_stops hds' hs
      simp [Field.raw, scanField, hd, htake, hdrop, ne_star_of_isDigit (hp d hd)]

lemma exists_scanField (s : List Char) : ∃ (w : Field) (rest : List Char), s = w.raw ++ rest ∧
      scanField p field k s = field w (k rest) ∧
      ∀ ds, w = .digits ds → (∀ d ∈ ds, isDigit d) ∧ ∀ d ∈ ds.head?, p d := by
  fun_cases scanField p field k s
  · exact ⟨.digits [], [], rfl, (hfield _).symm, by simp⟩
  · rename_i s
    exact ⟨.star, s, rfl, rfl, by simp⟩
  · rename_i n s hn hd
    refine ⟨.digits (n :: s.takeWhile isDigit), s.dropWhile isDigit, ?_, rfl, ?_⟩
    · simp [Field.raw]
    · rintro ds ⟨⟩
      have hall : ∀ d ∈ s.takeWhile isDigit, isDigit d := fun d hd => mem_takeWhile_imp hd
      simpa [hd] using ⟨hp n hd, hall⟩
  · rename_i n s hn hd
    exact ⟨.digits [], n :: s, rfl, (hfield _).symm, by simp⟩

end

lemma len_append {l : Option Char} (hl : ∀ c ∈ l, isLength c) (hs : Stops isLength s) :
    len V (l.toList ++ s) = V.lenPart l (conv V l.isSome s) := by
  cases l with
  | none =>
    cases s with
    | nil => simp [len, Visitor.lenPart]
    | cons c s =>
      have hc : isLength c = false := hs c rfl
      simp [len, Visitor.lenPart, hc]
  | some c => simp [len, Visitor.lenPart, hl c rfl]

/-- The characters that can stand after a width. -/
def follow : List Char := ['.', 'h', 'l', 'L'] ++ convs

lemma of_mem_follow : ∀ c ∈ follow, isFlag c = false ∧ isDigit c = false ∧ c ≠ '*' :=
  forall_mem_of_all (by decide)

lemma isLength_eq_false_of_mem_convs : ∀ c ∈ convs, isLength c = false :=
  forall_mem_of_all (by decide)

lemma ne_dot_of_mem_convs : ∀ c ∈ convs, c ≠ '.' := forall_mem_of_all (by decide)

lemma follow_of_len {l : Option Char} {t : Char} (hl : ∀ c ∈ l, isLength c) (ht : t ∈ convs) :
    ∀ c ∈ (l.toList ++ t :: s).head?, c ∈ follow ∧ c ≠ '.' := by
  intro c hc
  cases l with
  | none =>
    obtain rfl : t = c := by simpa using hc
    exact ⟨by simp [follow, ht], ne_dot_of_mem_convs t ht⟩
  | some d =>
    obtain rfl : d = c := by simpa using hc
    have hd : d ∈ ['h', 'l', 'L'] := by simpa [isLength] using hl d rfl
    have hlength : ∀ x ∈ ['h', 'l', 'L'], x ∈ follow ∧ x ≠ '.' := forall_mem_of_all (by decide)
    exact hlength d hd

lemma dot_append {p : Option Field} (hp : ∀ ds, p = some (.digits ds) → ∀ d ∈ ds, isDigit d)
    (hs : ∀ c ∈ s.head?, c ∈ follow ∧ c ≠ '.') :
    dot V (rawPrec p ++ s) = V.precPart p (len V s) := by
  cases p with
  | none =>
    cases s with
    | nil => simp [rawPrec, dot, Visitor.precPart]
    | cons c s => simp [rawPrec, dot, Visitor.precPart, (hs c rfl).2]
  | some f =>
    have hf : ∀ ds, f = .digits ds → ∀ d ∈ ds, isDigit d := fun ds h => hp ds (by rw [h])
    have hprec : prec V (f.raw ++ s) = V.precField f (len V s) := by
      rw [prec_eq]
      exact scanField_append (fun _ => id) (fun _ => rfl) _
        (fun ds h => ⟨hf ds h, fun d hd => hf ds h d (mem_of_mem_head? hd)⟩)
        (fun c hc => (of_mem_follow c (hs c hc).1).2.1)
        fun c hc => (of_mem_follow c (hs c hc).1).2.2
    simp [rawPrec, dot, Visitor.precPart, hprec]

lemma follow_of_prec {p : Option Field} (hs : ∀ c ∈ s.head?, c ∈ follow) :
    ∀ c ∈ (rawPrec p ++ s).head?, c ∈ follow := by
  cases p with
  | none => simpa [rawPrec] using hs
  | some f =>
    rintro c hc
    obtain rfl : '.' = c := by simpa [rawPrec] using hc
    decide

/-- A scanner that meets a specification finds its parts. -/
theorem flags_raw (sp : Spec) :
    flags V (sp.raw ++ s) = V.head sp.toHead (V.conv sp.len.isSome sp.conv (format V s)) := by
  have hlen := follow_of_len (s := s) sp.len_ok sp.conv_ok
  have hprec := follow_of_prec (p := sp.prec) fun c hc => (hlen c hc).1
  have hwidth : Stops isFlag (sp.width.raw ++
      (rawPrec sp.prec ++ (sp.len.toList ++ sp.conv :: s))) := by
    intro c hc
    cases hw : sp.width with
    | star =>
      obtain rfl : '*' = c := by simpa [hw, Field.raw] using hc
      decide
    | digits ds =>
      rw [hw, Field.raw] at hc
      cases ds with
      | nil => exact (of_mem_follow c (hprec c hc)).1
      | cons d ds =>
        obtain rfl : d = c := by simpa using hc
        have hd : d ∈ ['1', '2', '3', '4', '5', '6', '7', '8', '9'] := by
          simpa [isDigit1] using (sp.width_ok _ hw).2 d rfl
        have hdigits : ∀ x ∈ ['1', '2', '3', '4', '5', '6', '7', '8', '9'], isFlag x = false :=
          forall_mem_of_all (by decide)
        exact hdigits d hd
  rw [Spec.raw, Head.raw]
  simp only [append_assoc, cons_append, nil_append]
  rw [flags_append V sp.flags_ok hwidth, width_eq,
    scanField_append (fun _ => isDigit_of_isDigit1) (fun _ => rfl) _ sp.width_ok
      (fun c hc => (of_mem_follow c (hprec c hc)).2.1)
      fun c hc => (of_mem_follow c (hprec c hc)).2.2,
    dot_append V sp.prec_ok hlen, len_append V sp.len_ok]
  · rw [conv, Visitor.head]
  · intro c hc
    obtain rfl : sp.conv = c := by simpa using hc
    exact isLength_eq_false_of_mem_convs _ sp.conv_ok

lemma format_text {r : List Char} (hr : '%' ∉ r) :
    format V (r ++ s) = r.foldr V.text (format V s) := by
  induction r with
  | nil => rfl
  | cons c r ih =>
    obtain ⟨hc, hr⟩ : '%' ≠ c ∧ '%' ∉ r := by simpa using hr
    rw [cons_append, format, if_neg hc.symm, ih hr, foldr_cons]

lemma format_spec (sp : Spec) : format V ('%' :: (sp.raw ++ s)) = V.spec sp (format V s) := by
  have hhead : (sp.raw ++ s).head? = sp.raw.head? := by
    cases h : sp.raw with
    | nil => simp [Spec.raw] at h
    | cons c r => rfl
  rw [format, if_pos rfl, flags_raw, hhead, Visitor.spec]

/-- Every scanner goes through the parts of a format string in order. -/
theorem format_parts (ps : Parts) : format V (ps.raw ++ s) = V.parts ps (format V s) := by
  obtain ⟨first, rest⟩ := ps
  rw [Parts.raw, append_assoc, format_text V first.2, Visitor.parts]
  congr 1
  induction rest with
  | nil => rfl
  | cons p rest ih =>
    rw [flatMap_cons, append_assoc, cons_append, append_assoc, format_spec,
      format_text V p.2.2, ih, foldr_cons]

end Parts

/-! ### What the type checker accepts has parts -/

section Accepted
variable {α : Type} (V : Visitor α)
section
variable (s : List Char)

lemma flags_eq : flags V s = (s.takeWhile isFlag).foldr V.flag (width V (s.dropWhile isFlag)) := by
  induction s with
  | nil => rw [flags, takeWhile_nil, dropWhile_nil, foldr_nil]
  | cons c s ih =>
    rw [flags]
    split_ifs with hc
    · simp [hc, ih]
    · simp [hc]

lemma exists_dot : ∃ (p : Option Field) (rest : List Char), s = rawPrec p ++ rest ∧
      dot V s = V.precPart p (len V rest) ∧
      ∀ ds, p = some (.digits ds) → ∀ d ∈ ds, isDigit d := by
  fun_cases dot V s
  · exact ⟨none, [], rfl, rfl, by simp⟩
  · rename_i s
    obtain ⟨w, rest, hs, hprec, hw⟩ :=
      @exists_scanField _ isDigit (fun _ => id) V.precField (fun _ => rfl) (len V) s
    refine ⟨some w, rest, ?_, ?_, ?_⟩
    · rw [hs]
      rfl
    · rw [prec_eq, hprec]
      rfl
    · rintro ds ⟨⟩
      exact (hw ds rfl).1
  · rename_i c s hc
    exact ⟨none, c :: s, rfl, rfl, by simp⟩

lemma exists_len : ∃ (l : Option Char) (rest : List Char), s = l.toList ++ rest ∧
      len V s = V.lenPart l (conv V l.isSome rest) ∧ ∀ c ∈ l, isLength c := by
  fun_cases len V s
  · exact ⟨none, [], rfl, rfl, by simp⟩
  · rename_i c s hc
    exact ⟨some c, s, rfl, rfl, by simpa using hc⟩
  · rename_i c s hc
    exact ⟨none, c :: s, rfl, rfl, by simp⟩

/-- After a percent sign there is always something that can stand before a letter. -/
theorem exists_head : ∃ (hd : Head) (rest : List Char), s = hd.raw ++ rest ∧
      flags V s = V.head hd (conv V hd.len.isSome rest) := by
  obtain ⟨w, s1, hs1, hwidth, hw⟩ := @exists_scanField _ isDigit1
    (fun _ => isDigit_of_isDigit1) V.widthField (fun _ => rfl) (dot V) (s.dropWhile isFlag)
  obtain ⟨p, s2, hs2, hdot, hp⟩ := exists_dot V s1
  obtain ⟨l, s3, hs3, hlen, hl⟩ := exists_len V s2
  refine ⟨⟨s.takeWhile isFlag, w, p, l, fun c hc => mem_takeWhile_imp hc, hw, hp, hl⟩, s3,
    ?_, ?_⟩
  · rw [Head.raw, append_assoc, append_assoc, append_assoc, ← hs3, ← hs2, ← hs1,
      takeWhile_append_dropWhile]
  · rw [flags_eq, width_eq, hwidth, hdot, hlen, Visitor.head]

end
end Accepted

/-! ### The types of the arguments -/

def Field.types : Field → List ArgType
  | .star => [.int]
  | .digits _ => []

def Head.types (hd : Head) : List ArgType := hd.width.types ++ hd.prec.elim [] Field.types

def convTypes (t : Char) : List ArgType :=
  if t ∈ intConv then [.int]
  else if t ∈ floatConv then [.float]
  else if t ∈ strConv then [.str]
  else []

/-- The arguments for one specification: first those for its width and precision. -/
def Spec.types (sp : Spec) : List ArgType := sp.toHead.types ++ convTypes sp.conv

lemma head_typesVisitor (hd : Head) (r : Except FormatError (List ArgType)) :
    typesVisitor.head hd r = (hd.types ++ ·) <$> r := by
  have hflags (fs : List Char) (a) : fs.foldr typesVisitor.flag a = a := foldr_fixed fs
  have hlen : typesVisitor.lenPart hd.len r = r := by
    cases h : hd.len <;> rfl
  rw [Visitor.head, hflags, hlen]
  cases r <;> rcases hw : hd.width with _ | ds <;> rcases hp : hd.prec with _ | _ | ds' <;>
    simp [Head.types, hw, hp, Visitor.widthField, Visitor.precPart, Visitor.precField, Field.types,
      typesVisitor, Functor.map, Except.map]

lemma conv_typesVisitor {b : Bool} {t : Char} (ht : t ∈ convs)
    (r : Except FormatError (List ArgType)) :
    typesVisitor.conv b t r = (convTypes t ++ ·) <$> r := by
  have hpercent : t ∉ intConv → t ∉ floatConv → t ∉ strConv → t = '%' := by
    simp only [convs, mem_append, mem_singleton] at ht
    tauto
  simp only [typesVisitor, convTypes]
  split_ifs with h1 h2 h3 h4
  · rfl
  · rfl
  · rfl
  · cases r <;> rfl
  · exact absurd (hpercent h1 h2 h3) h4

/-- The characters that specifications are made of. -/
def specChars : List Char :=
  ['#', '0', '-', ' ', '+', '1', '2', '3', '4', '5', '6', '7', '8', '9', '*', '.', 'h', 'l', 'L'] ++
    convs

lemma Field.mem_specChars {f : Field} (hf : ∀ ds, f = .digits ds → ∀ d ∈ ds, isDigit d)
    (hc : c ∈ f.raw) : c ∈ specChars := by
  cases f with
  | star =>
    obtain rfl : c = '*' := by simpa [Field.raw] using hc
    decide
  | digits ds =>
    have hd : isDigit c := hf ds rfl c hc
    simp only [isDigit, decide_eq_true_eq] at hd
    have hall : ∀ x ∈ ['0', '1', '2', '3', '4', '5', '6', '7', '8', '9'], x ∈ specChars :=
      forall_mem_of_all (by decide)
    exact hall c hd

lemma Head.mem_specChars {hd : Head} (hc : c ∈ hd.raw) : c ∈ specChars := by
  simp only [Head.raw, mem_append, Option.mem_toList] at hc
  obtain hc | hc | hc | hc := hc
  · have hflag := hd.flags_ok c hc
    simp only [isFlag, decide_eq_true_eq] at hflag
    have hall : ∀ x ∈ ['#', '0', '-', ' ', '+'], x ∈ specChars := forall_mem_of_all (by decide)
    exact hall c hflag
  · exact Field.mem_specChars (fun ds h => (hd.width_ok ds h).1) hc
  · cases hp : hd.prec with
    | none => simp [hp, rawPrec] at hc
    | some f =>
      simp only [hp, rawPrec, Option.elim_some, mem_cons] at hc
      obtain rfl | hc := hc
      · decide
      · exact Field.mem_specChars (fun ds h => hd.prec_ok ds (by rw [hp, h])) hc
  · have hlen := hd.len_ok c hc
    simp only [isLength, decide_eq_true_eq] at hlen
    have hall : ∀ x ∈ ['h', 'l', 'L'], x ∈ specChars := forall_mem_of_all (by decide)
    exact hall c hlen

lemma Spec.mem_specChars {sp : Spec} (hc : c ∈ sp.raw) : c ∈ specChars := by
  rw [Spec.raw, mem_append, mem_singleton] at hc
  obtain hc | rfl := hc
  · exact Head.mem_specChars hc
  · exact mem_append_right _ sp.conv_ok

lemma spec_typesVisitor (sp : Spec) (r : Except FormatError (List ArgType)) :
    typesVisitor.spec sp r = (sp.types ++ ·) <$> r := by
  have hkey : ¬sp.raw.head? = some '(' := fun h =>
    absurd (Spec.mem_specChars (mem_of_mem_head? h)) (by decide)
  rw [Visitor.spec, head_typesVisitor, conv_typesVisitor sp.conv_ok]
  cases r <;> simp [typesVisitor, hkey, Spec.types]

/-- After a percent sign that the type checker accepts there is a specification, and it accepts the
rest. -/
theorem exists_spec {s : List Char} {ts : List ArgType} (h : flags typesVisitor s = .ok ts) :
    ∃ (sp : Spec) (rest : List Char) (ts' : List ArgType),
      s = sp.raw ++ rest ∧ formatTypes rest = .ok ts' := by
  obtain ⟨hd, rest, rfl, hflags⟩ := exists_head typesVisitor s
  rw [hflags, head_typesVisitor] at h
  cases hconv : conv typesVisitor hd.len.isSome rest with
  | error e =>
    rw [hconv] at h
    cases h
  | ok ts' =>
    cases rest with
    | nil => cases hconv.symm.trans (by rw [conv])
    | cons t rest =>
      rw [conv] at hconv
      have ht : t ∈ convs := by
        by_contra ht
        simp only [convs, mem_append, mem_singleton, not_or] at ht
        obtain ⟨⟨⟨h1, h2⟩, h3⟩, h4⟩ := ht
        simp [typesVisitor, h1, h2, h3, h4] at hconv
      rw [conv_typesVisitor ht] at hconv
      cases hrest : format typesVisitor rest with
      | error e =>
        rw [hrest] at hconv
        cases hconv
      | ok ts'' => exact ⟨⟨hd, t, ht⟩, rest, ts'', by simp [Spec.raw], hrest⟩

/-- A literal that the type checker accepts is made of text and specifications. -/
theorem exists_parts {s : List Char} {ts : List ArgType} (h : formatTypes s = .ok ts) :
    ∃ ps : Parts, ps.raw = s := by
  induction hn : s.length using Nat.strong_induction_on generalizing s ts with
  | _ n ih =>
  cases s with
  | nil => exact ⟨⟨⟨[], by simp⟩, []⟩, rfl⟩
  | cons c s =>
    rw [formatTypes, format] at h
    split_ifs at h with hc
    · have hflags : flags typesVisitor s = .ok ts := by
        by_cases hkey : s.head? = some '('
        · simp [typesVisitor, hkey] at h
        · simpa [typesVisitor, hkey] using h
      obtain ⟨sp, rest, ts', rfl, hrest⟩ := exists_spec hflags
      obtain ⟨ps, rfl⟩ := ih _ (by simp only [← hn, length_cons, length_append]; omega)
        hrest rfl
      exact ⟨⟨⟨[], by simp⟩, (sp, ps.first) :: ps.rest⟩, by simp [Parts.raw, hc]⟩
    · obtain ⟨ps, rfl⟩ := ih _ (by simp [← hn]) (show formatTypes s = .ok ts from h) rfl
      exact ⟨⟨⟨c :: ps.first, by simpa using ⟨Ne.symm hc, ps.first.2⟩⟩, ps.rest⟩,
        by simp [Parts.raw]⟩

end Acton.Format
