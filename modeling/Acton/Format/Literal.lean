import Acton.Format.Correctness

/-!
# The text of string literals

The parser gives the text of a string literal as characters and escape sequences (`Atom`). A
backslash at the end of a line continues the literal on the next line and gives nothing (`Item`).
Later passes see only the characters that the rest is written with (`rawText`). A C compiler reads
them as they were meant, if no hexadecimal escape sequence stands before a hexadecimal digit: in C
such a sequence takes all digits that follow, and in Acton only two (`read_rawText`). In the same
way an octal escape sequence with less than three digits takes a digit from the next line.

The parser prevents this by splitting the text at such places (`hexSplitString`), in literals
without embedded expressions. It finds out first whether there are any hexadecimal escape sequences
(`hasActualHexEscapes`), and when that check succeeds all places are found
(`exists_hexSplitString`).
-/

namespace Acton.Format
open List Option
open CFormat (CChar backslash dquote newline read isHex isOct value Stops forall_mem_of_all
  universal octDigits simpleEscape octEscape uniEscape hexEscape digitVal)

/-! ### Characters and escape sequences -/

def singleChars : List Char := [Char.ofNat 39, dquote, backslash, 'a', 'b', 'f', 'n', 'r', 't', 'v']

inductive Atom
  | char (c : Char) (h : c ≠ backslash ∧ c ≠ newline)
  | single (c : Char) (h : c ∈ singleChars)
  | hex (a b : Char) (h : isHex a ∧ isHex b)
  | oct (ds : List Char) (h : (∀ d ∈ ds, isOct d) ∧ 1 ≤ ds.length ∧ ds.length ≤ 3)
  | univ1 (ds : List Char) (h : (∀ d ∈ ds, isHex d) ∧ ds.length = 4)
  | univ2 (ds : List Char) (h : (∀ d ∈ ds, isHex d) ∧ ds.length = 8)

namespace Atom

def raw : Atom → List Char
  | char c _ => [c]
  | single c _ => [backslash, c]
  | hex a b _ => [backslash, 'x', a, b]
  | oct ds _ => backslash :: ds
  | univ1 ds _ => backslash :: 'u' :: ds
  | univ2 ds _ => backslash :: 'U' :: ds

/-- The character that is meant. -/
def denotes : Atom → Char
  | char c _ => c
  | single c _ => (simpleEscape c).getD c
  | hex a b _ => Char.ofNat (value 16 [a, b])
  | oct ds _ => Char.ofNat (value 8 ds)
  | univ1 ds _ => Char.ofNat (value 16 ds)
  | univ2 ds _ => Char.ofNat (value 16 ds)

/-- The element of a C string that is meant: hexadecimal and octal escape sequences give a byte. -/
def element : Atom → CChar
  | char c _ => .char c
  | single c _ => .char ((simpleEscape c).getD c)
  | hex a b _ => .ofByte (value 16 [a, b])
  | oct ds _ => .ofByte (value 8 ds)
  | univ1 ds _ => .char (Char.ofNat (value 16 ds))
  | univ2 ds _ => .char (Char.ofNat (value 16 ds))

/-- C allows the escape sequence: an octal one is a byte, and a universal character name denotes a
character that may be named so. -/
def Allowed : Atom → Prop
  | oct ds _ => value 8 ds < 256
  | univ1 ds _ => (universal (value 16 ds)).isSome
  | univ2 ds _ => (universal (value 16 ds)).isSome
  | _ => True

/-- C reads the character that is meant. By hexadecimal and octal escape sequences only ASCII
characters can be given, and universal character names are restricted. -/
def Readable : Atom → Prop
  | char _ _ => True
  | single _ _ => True
  | hex a b _ => value 16 [a, b] < 128
  | oct ds _ => value 8 ds < 128
  | univ1 ds _ => universal (value 16 ds) = some (.char (Char.ofNat (value 16 ds)))
  | univ2 ds _ => universal (value 16 ds) = some (.char (Char.ofNat (value 16 ds)))

/-- An octal escape sequence takes as many digits as it can. -/
def OctStops (s : List Char) : Atom → Prop
  | oct ds _ => ds.length < 3 → Stops isOct s
  | _ => True

/-- A hexadecimal escape sequence is not followed by a digit. -/
def HexStops (s : List Char) : Atom → Prop
  | hex _ _ _ => Stops isHex s
  | _ => True

/-- What the normalizer makes of it. -/
def escaped : Atom → List Char
  | char c _ => mark c
  | a => a.raw

end Atom

/-- A part of the text of a literal as it stands in the source. -/
inductive Item
  | atom (a : Atom)
  /-- A backslash at the end of a line. -/
  | newlineEscape

/-- The characters and escape sequences that the parser makes of it. -/
def Item.atom? : Item → Option Atom
  | atom a => some a
  | newlineEscape => none

def atoms (is : List Item) : List Atom := is.filterMap Item.atom?

def rawText (as : List Atom) : List Char := as.flatMap Atom.raw

/-- No octal escape sequence could take another digit. The parser reads them greedily, so this
holds within a line of the source. -/
def Lexed : List Atom → Prop
  | [] => True
  | a :: as => a.OctStops (rawText as) ∧ Lexed as

/-- No hexadecimal escape sequence is followed by a digit. -/
def HexFree : List Atom → Prop
  | [] => True
  | a :: as => a.HexStops (rawText as) ∧ HexFree as

lemma rawText_append (as bs : List Atom) : rawText (as ++ bs) = rawText as ++ rawText bs :=
  flatMap_append

lemma lexed_of_append {as bs : List Atom} (h : Lexed (as ++ bs)) : Lexed as ∧ Lexed bs := by
  induction as with
  | nil => exact ⟨trivial, h⟩
  | cons a as ih =>
    obtain ⟨ha, h⟩ := h
    refine ⟨⟨?_, (ih h).1⟩, (ih h).2⟩
    cases a with
    | oct ds hds =>
      intro hlt c hc
      have hhead : c ∈ (rawText (as ++ bs)).head? := by
        rw [rawText_append, head?_append, hc]
        rfl
      exact ha hlt c hhead
    | _ => trivial

lemma lexed_append {as bs : List Atom} (has : Lexed as) (hbs : Lexed bs)
    (hlast : ∀ ds h, as.getLast? ≠ some (.oct ds h)) : Lexed (as ++ bs) := by
  induction as with
  | nil => exact hbs
  | cons a as ih =>
    obtain ⟨ha, has⟩ := has
    refine ⟨?_, ?_⟩
    · cases a with
      | oct ds hds =>
        cases as with
        | nil => exact absurd rfl (hlast ds hds)
        | cons a' as =>
          -- what follows is the start of the next escape sequence
          intro hlt c hc
          refine ha hlt c ?_
          change c ∈ (rawText (a' :: (as ++ bs))).head? at hc
          rw [rawText, flatMap_cons, head?_append] at hc
          rw [rawText, flatMap_cons, head?_append]
          cases hraw : a'.raw with
          | nil => cases a' <;> simp [Atom.raw] at hraw
          | cons x r => simpa [hraw] using hc
      | _ => trivial
    · cases as with
      | nil => exact hbs
      | cons a' as => exact ih has fun ds h => by simpa using hlast ds h

/-! ### What C reads -/

variable {as : List Atom} {ds : List Char} {c : Char} {a b : Char}
section Read
variable {s : List Char}

lemma escape_cons_of_ne (hb : c ≠ backslash) : escape (c :: s) = mark c ++ escape s := by
  cases s with
  | nil => simp [escape]
  | cons d s => simp [escape, hb]

lemma plain_of_isHex (hc : isHex c) : c ≠ dquote ∧ c ≠ backslash := by
  constructor <;> (rintro rfl; revert hc; decide)

lemma isHex_of_isOct (hc : isOct c) : isHex c := by
  by_contra h
  rw [CFormat.isOct_eq_false (by simpa using h)] at hc
  cases hc

/-- The pair of a backslash and a character is kept, and digits after it. -/
theorem escape_backslash (y : Char) (ds : List Char) (hds : ∀ d ∈ ds, isHex d) :
    escape (backslash :: y :: (ds ++ s)) = backslash :: y :: (ds ++ escape s) := by
  rw [escape, if_pos rfl, escape_append_of_plain fun d hd => plain_of_isHex (hds d hd)]

lemma escape_atom (a : Atom) : escape (a.raw ++ s) = a.escaped ++ escape s := by
  cases a with
  | char c h => exact escape_cons_of_ne h.1
  | single c h => exact escape_backslash c [] (by simp)
  | hex a b h => exact escape_backslash 'x' [a, b] (by simpa using h)
  | oct ds h =>
    cases ds with
    | nil => simp at h
    | cons d ds => exact escape_backslash d ds fun x hx => isHex_of_isOct (h.1 x (by simp [hx]))
  | univ1 ds h => exact escape_backslash 'u' ds h.1
  | univ2 ds h => exact escape_backslash 'U' ds h.1

/-- The normalizer does not change what an escape sequence stands before. -/
theorem stops_escape {p : Char → Bool} (hq : p dquote = false) (hb : p backslash = false)
    (hs : Stops p s) (t : List Char) : Stops p (escape s ++ dquote :: t) := by
  intro c hc
  cases s with
  | nil =>
    obtain rfl : dquote = c := by simpa [escape] using hc
    exact hq
  | cons d s =>
    have hd : p d = false := hs d rfl
    by_cases hdb : d = backslash
    · have hhead : (escape (d :: s)).head? = some d := by
        cases s <;> simp [escape, mark, hdb, show backslash ≠ dquote by decide]
      rw [head?_append, hhead] at hc
      obtain rfl : d = c := by simpa using hc
      exact hd
    · rw [escape_cons_of_ne hdb, mark] at hc
      split_ifs at hc
      · obtain rfl : backslash = c := by simpa using hc
        exact hb
      · obtain rfl : d = c := by simpa using hc
        exact hd

lemma escape_single : ∀ c ∈ singleChars, c ≠ 'x' ∧ c ≠ 'u' ∧ c ≠ 'U' ∧ isOct c = false ∧
    (simpleEscape c).isSome :=
  forall_mem_of_all (by decide)

lemma digitVal_lt (hc : isHex c) : digitVal c < 16 := by
  simp only [isHex, Char.isDigit, Bool.or_eq_true, Bool.and_eq_true, decide_eq_true_eq,
    UInt32.le_iff_toNat_le, Char.le_def] at hc
  simp only [digitVal, Char.isDigit, Bool.and_eq_true, decide_eq_true_eq,
    UInt32.le_iff_toNat_le, Char.le_def, Char.toNat]
  simp only [UInt32.reduceToNat, Char.reduceVal] at hc ⊢
  split_ifs <;> omega

lemma value_two_lt (ha : isHex a) (hb : isHex b) : value 16 [a, b] < 256 := by
  have hav := digitVal_lt ha
  have hbv := digitVal_lt hb
  simp only [value, foldl_cons, foldl_nil]
  omega

lemma hexEscape_two (ha : isHex a) (hb : isHex b) (hs : Stops isHex s) :
    hexEscape (a :: b :: s) = some (.ofByte (value 16 [a, b]), s) := by
  have hab : ∀ d ∈ [a, b], isHex d := by simp [ha, hb]
  have hlt := value_two_lt ha hb
  obtain ⟨htake, hdrop⟩ := CFormat.takeWhile_append_of_stops hab hs
  rw [cons_append, cons_append, nil_append] at htake hdrop
  rw [hexEscape, htake, hdrop, if_neg (by simp; omega)]

lemma octDigits_append (hds : ∀ d ∈ ds, isOct d) (n : ℕ) (hs : 0 < n → Stops isOct s) :
    octDigits (ds.length + n) (ds ++ s) = ds := by
  induction ds with
  | nil =>
    cases n with
    | zero => simp [octDigits]
    | succ n =>
      cases s with
      | nil => simp [octDigits]
      | cons c s =>
        have hc : isOct c = false := hs (Nat.succ_pos n) c rfl
        simp [octDigits, hc]
  | cons d ds ih =>
    have hd : isOct d := hds d (by simp)
    rw [length_cons, Nat.add_right_comm, cons_append, octDigits, if_pos hd,
      ih fun x hx => hds x (by simp [hx])]

lemma octEscape_digits (hds : ∀ d ∈ ds, isOct d) (hlen : ds.length ≤ 3) (hv : value 8 ds < 256)
    (hs : ds.length < 3 → Stops isOct s) :
    octEscape (ds ++ s) = some (.ofByte (value 8 ds), s) := by
  have hdigits : octDigits 3 (ds ++ s) = ds := by
    have h := octDigits_append hds (3 - ds.length) fun h => hs (by omega)
    rwa [Nat.add_sub_cancel' hlen] at h
  rw [octEscape, hdigits, if_neg (by omega), drop_left]

lemma universal_eq {n : ℕ} (h : (universal n).isSome) :
    universal n = some (.char (Char.ofNat n)) := by
  unfold universal at h ⊢
  split_ifs at h ⊢
  · rfl
  · cases h

lemma uniEscape_digits (hds : ∀ d ∈ ds, isHex d) (hv : (universal (value 16 ds)).isSome) :
    uniEscape ds.length (ds ++ s) = some (.char (Char.ofNat (value 16 ds)), s) := by
  rw [uniEscape, take_left, drop_left, if_pos ⟨rfl, all_eq_true.mpr hds⟩, universal_eq hv]
  rfl

lemma read_of_escape {t : List Char} {v : CChar} (h : CFormat.escape t = some (v, s)) :
    read true (backslash :: t) = (read true s).map (v :: ·) := by
  rw [CFormat.read_backslash, h]
  rfl

lemma escape_oct {d : Char} (hd : isOct d) (s : List Char) :
    CFormat.escape (d :: s) = octEscape (d :: s) := by
  have hne : d ≠ 'x' ∧ d ≠ 'u' ∧ d ≠ 'U' := by
    refine ⟨?_, ?_, ?_⟩ <;> (rintro rfl; revert hd; decide)
  rw [CFormat.escape, if_neg hne.1, if_neg hne.2.1, if_neg hne.2.2, if_pos hd]

/-- C reads a single character or escape sequence as it is meant. -/
theorem read_element {a : Atom} (ha : a.Allowed) (hoct : a.OctStops s) (hhex : a.HexStops s) :
    read true (a.escaped ++ s) = (read true s).map (a.element :: ·) := by
  cases a with
  | char c h =>
    by_cases hq : c = dquote
    · subst hq
      exact read_of_escape rfl
    · rw [Atom.escaped, mark, if_neg hq]
      exact CFormat.read_char hq h.2 h.1
  | single c h =>
    obtain ⟨hx, hu, hU, ho, hsome⟩ := escape_single c h
    obtain ⟨c', hc'⟩ := isSome_iff_exists.mp hsome
    refine read_of_escape ?_
    change CFormat.escape (c :: s) = _
    rw [CFormat.escape, if_neg hx, if_neg hu, if_neg hU, if_neg (by simp [ho]), Atom.element, hc']
    rfl
  | hex a b h =>
    exact read_of_escape (hexEscape_two h.1 h.2 hhex)
  | oct ds h =>
    have hdigits := octEscape_digits h.1 h.2.2 ha hoct
    cases ds with
    | nil => simp at h
    | cons d ds =>
      refine read_of_escape ?_
      change CFormat.escape (d :: (ds ++ s)) = _
      rw [escape_oct (h.1 d (by simp)), ← cons_append, hdigits]
      rfl
  | univ1 ds h | univ2 ds h =>
    have hdigits := uniEscape_digits (s := s) h.1 ha
    rw [h.2] at hdigits
    exact read_of_escape hdigits

lemma Atom.Readable.allowed {a : Atom} (h : a.Readable) : a.Allowed := by
  cases a with
  | oct ds hds => exact lt_trans (show value 8 ds < 128 from h) (by decide)
  | univ1 ds hds | univ2 ds hds => exact isSome_iff_exists.mpr ⟨_, h⟩
  | _ => trivial

lemma Atom.Readable.element_eq {a : Atom} (h : a.Readable) : a.element = .char a.denotes := by
  cases a with
  | hex a b hab | oct ds hds => exact if_pos h
  | _ => rfl

lemma read_elements (hallow : ∀ a ∈ as, a.Allowed) (hlex : Lexed as) (hfree : HexFree as)
    (s : List Char) :
    read true (escape (rawText as) ++ dquote :: s) =
      (read false s).map ((as.map Atom.element) ++ ·) := by
  induction as with
  | nil => simp [rawText, escape]
  | cons a as ih =>
    obtain ⟨hoct, hlex⟩ := hlex
    obtain ⟨hhex, hfree⟩ := hfree
    have hoct' : a.OctStops (escape (rawText as) ++ dquote :: s) := by
      cases a with
      | oct ds h => exact fun hlt => stops_escape (by decide) (by decide) (hoct hlt) s
      | _ => trivial
    have hhex' : a.HexStops (escape (rawText as) ++ dquote :: s) := by
      cases a with
      | hex a b h => exact stops_escape (by decide) (by decide) hhex s
      | _ => trivial
    rw [rawText, flatMap_cons, escape_atom, append_assoc, ← rawText,
      read_element (hallow a (by simp)) hoct' hhex',
      ih (fun b hb => hallow b (by simp [hb])) hlex hfree, Option.map_map]
    rfl

lemma read_rawText (hread : ∀ a ∈ as, a.Readable) (hlex : Lexed as) (hfree : HexFree as)
    (s : List Char) :
    read true (escape (rawText as) ++ dquote :: s) =
      (read false s).map ((as.map fun a => .char a.denotes) ++ ·) := by
  rw [read_elements (fun a ha => (hread a ha).allowed) hlex hfree,
    map_congr_left fun a ha => (hread a ha).element_eq]

end Read

/-! ### Splitting at hexadecimal escape sequences -/

/-- Is there a hexadecimal escape sequence? An escaped backslash is skipped only when an `x` follows
it. -/
def hasActualHexEscapes : List Char → Bool
  | [] => false
  | c :: s =>
    if c = backslash ∧ s.take 2 = [backslash, 'x'] then hasActualHexEscapes (s.drop 2)
    else match s with
      | x :: a :: b :: rest =>
        if c = backslash ∧ x = 'x' then
          if isHex a ∧ isHex b then true else hasActualHexEscapes rest
        else hasActualHexEscapes (x :: a :: b :: rest)
      | s => hasActualHexEscapes s
termination_by s => s.length
decreasing_by all_goals grind

/-- The chunks and their characters are collected in reverse order. -/
def process : List Char → List Char → List (List Char) → List (List Char)
  | [], acc, chunks => acc :: chunks
  | c :: s, acc, chunks =>
    match s with
    | x :: a :: b :: rest =>
      if c = backslash ∧ x = 'x' then
        if isHex a ∧ isHex b ∧ rest.head?.any isHex then
          process rest [] ((b :: a :: x :: c :: acc) :: chunks)
        else if isHex a ∧ isHex b then process rest (b :: a :: x :: c :: acc) chunks
        else process (a :: b :: rest) (x :: c :: acc) chunks
      else process (x :: a :: b :: rest) (c :: acc) chunks
    | s => process s (c :: acc) chunks

def hexSplitString (s : List Char) : List (List Char) :=
  if s = [] then [[]]
  else if hasActualHexEscapes s then
    ((process s [] []).map List.reverse).reverse.filter (· ≠ [])
  else [s]

section Process
variable {s acc : List Char} {chunks : List (List Char)}

lemma process_of_ne (hc : c ≠ backslash ∨ ∀ a b rest, s ≠ 'x' :: a :: b :: rest) :
    process (c :: s) acc chunks = process s (c :: acc) chunks := by
  match s with
  | x :: a :: b :: rest =>
    have hx : ¬(c = backslash ∧ x = 'x') := by
      rintro ⟨rfl, rfl⟩
      simp at hc
    rw [process, if_neg hx]
  | [] => rfl
  | [x] => rfl
  | [x, a] => rfl

lemma process_plain (hds : ∀ d ∈ ds, d ≠ backslash) :
    process (ds ++ s) acc chunks = process s (ds.reverse ++ acc) chunks := by
  induction ds generalizing acc with
  | nil => rfl
  | cons d ds ih =>
    rw [cons_append, process_of_ne (.inl (hds d (by simp))),
      ih fun x hx => hds x (by simp [hx])]
    simp

lemma process_backslash {y : Char} (hy : y ≠ 'x') (hds : ∀ d ∈ y :: ds, d ≠ backslash) :
    process (backslash :: y :: ds ++ s) acc chunks =
      process s ((backslash :: y :: ds).reverse ++ acc) chunks := by
  rw [cons_append, process_of_ne (.inr (by simp [hy])), process_plain hds]
  simp

lemma process_hex (ha : isHex a) (hb : isHex b) :
    process (backslash :: 'x' :: a :: b :: s) acc chunks =
      if s.head?.any isHex then process s [] ((b :: a :: 'x' :: backslash :: acc) :: chunks)
      else process s (b :: a :: 'x' :: backslash :: acc) chunks := by
  rw [process, if_pos ⟨rfl, rfl⟩]
  simp [ha, hb]

lemma process_not_hex (hab : ¬(isHex a ∧ isHex b)) :
    process (backslash :: 'x' :: a :: b :: s) acc chunks =
      process (a :: b :: s) ('x' :: backslash :: acc) chunks := by
  rw [process, if_pos ⟨rfl, rfl⟩, if_neg fun h => hab ⟨h.1, h.2.1⟩, if_neg hab]

end Process

/-- No hexadecimal escape sequence is followed by a digit, also at the end before the text `t`. -/
def HexFreeTo (t : List Char) : List Atom → Prop
  | [] => True
  | a :: as => a.HexStops (rawText as ++ t) ∧ HexFreeTo t as

lemma Atom.HexStops.of_append {a : Atom} {s t : List Char} (h : a.HexStops (s ++ t)) :
    a.HexStops s := by
  cases a with
  | hex a b hab =>
    intro c hc
    exact h c (by rw [head?_append, hc]; rfl)
  | _ => trivial

lemma HexFreeTo.of_append {s t : List Char} (h : HexFreeTo (s ++ t) as) : HexFreeTo s as := by
  induction as with
  | nil => trivial
  | cons a as ih =>
    refine ⟨Atom.HexStops.of_append (t := t) ?_, ih h.2⟩
    rw [append_assoc]
    exact h.1

lemma HexFreeTo.hexFree {t : List Char} (h : HexFreeTo t as) : HexFree as := by
  induction as with
  | nil => trivial
  | cons a as ih => exact ⟨h.1.of_append, ih h.2⟩

lemma hexFreeTo_append {as bs : List Atom} {t : List Char} :
    HexFreeTo t (as ++ bs) ↔ HexFreeTo (rawText bs ++ t) as ∧ HexFreeTo t bs := by
  induction as with
  | nil => simp [HexFreeTo]
  | cons a as ih => simp [HexFreeTo, ih, rawText_append, and_assoc]

/-- A character other than a backslash stands for itself. -/
theorem exists_char {s : List Char} (h : rawText as = c :: s) (hc : c ≠ backslash) :
    ∃ hc' as', as = .char c hc' :: as' ∧ rawText as' = s := by
  cases as with
  | nil => simp [rawText] at h
  | cons a as =>
    cases a with
    | char d hd =>
      simp only [rawText, flatMap_cons, Atom.raw, cons_append, nil_append, List.cons.injEq] at h
      obtain ⟨rfl, h⟩ := h
      exact ⟨hd, as, rfl, h⟩
    | _ =>
      simp only [rawText, flatMap_cons, Atom.raw, cons_append, List.cons.injEq] at h
      exact absurd h.1.symm hc

/-- The chunks that are found so far, those that will be found, and the text in them. -/
def Splits (as bs : List Atom) (acc : List Char) (chunks : List (List Char)) : Prop :=
  ∃ ass : List (List Atom), ((process (rawText as) acc chunks).map List.reverse).reverse =
      (chunks.map List.reverse).reverse ++ ass.map rawText ∧
    ass.flatten = bs ++ as ∧ (∀ cs ∈ ass, HexFree cs) ∧
    ((∀ cs ∈ ass, Lexed cs) → Lexed ass.flatten)

section Splits
variable {as bs : List Atom} {acc acc' : List Char} {chunks : List (List Char)}

/-- The characters of `ms` go to the current chunk. -/
theorem Splits.of_collect (ms : List Atom)
    (hstep : process (rawText (ms ++ as)) acc chunks = process (rawText as) acc' chunks)
    (h : Splits as (bs ++ ms) acc' chunks) : Splits (ms ++ as) bs acc chunks := by
  obtain ⟨ass, hprocess, hflat, hfree, hlex⟩ := h
  exact ⟨ass, by rw [hstep, hprocess], by rw [hflat, append_assoc], hfree, hlex⟩

/-- The current chunk ends after `ms`. -/
theorem Splits.of_split (ms : List Atom)
    (hstep : process (rawText (ms ++ as)) acc chunks = process (rawText as) [] (acc' :: chunks))
    (hacc : acc'.reverse = rawText (bs ++ ms)) (hms : HexFree (bs ++ ms))
    (hlast : ∀ ds h, (bs ++ ms).getLast? ≠ some (.oct ds h))
    (h : Splits as [] [] (acc' :: chunks)) : Splits (ms ++ as) bs acc chunks := by
  obtain ⟨ass, hprocess, hflat, hfree, hlex⟩ := h
  refine ⟨(bs ++ ms) :: ass, ?_, ?_, ?_, ?_⟩
  · rw [hstep, hprocess, map_cons, map_cons, reverse_cons, hacc, append_assoc]
    rfl
  · rw [flatten_cons, hflat, nil_append, append_assoc]
  · intro cs hcs
    obtain rfl | hcs := mem_cons.mp hcs
    · exact hms
    · exact hfree cs hcs
  · intro hall
    obtain ⟨hfirst, hall⟩ := forall_mem_cons.mp hall
    exact lexed_append hfirst (hlex hall) hlast

/-- What is known about the recursive calls. -/
def SplitsAfter (as : List Atom) : Prop :=
  ∀ {bs : List Atom} {acc : List Char} {chunks : List (List Char)},
    acc.reverse = rawText bs → HexFreeTo (rawText as) bs → Splits as bs acc chunks

section
variable (h : SplitsAfter as) (ms : List Atom) (hacc : acc.reverse = rawText bs)
  (hfree : HexFreeTo (rawText (ms ++ as)) bs)
include h ms hacc hfree

lemma SplitsAfter.collect (hms : HexFreeTo (rawText as) ms)
    (hstep : process (rawText ms ++ rawText as) acc chunks =
      process (rawText as) ((rawText ms).reverse ++ acc) chunks) :
    Splits (ms ++ as) bs acc chunks := by
  rw [rawText_append] at hfree
  refine Splits.of_collect ms (by rw [rawText_append, hstep]) (h ?_ ?_)
  · rw [reverse_append, reverse_reverse, hacc, rawText_append]
  · exact hexFreeTo_append.mpr ⟨hfree, hms⟩

lemma SplitsAfter.split (hms : HexFreeTo [] ms) (hne : ms ≠ [])
    (hlast : ∀ ds h, ms.getLast? ≠ some (.oct ds h))
    (hstep : process (rawText ms ++ rawText as) acc chunks =
      process (rawText as) [] (((rawText ms).reverse ++ acc) :: chunks)) :
    Splits (ms ++ as) bs acc chunks := by
  rw [rawText_append] at hfree
  have hfree' : HexFreeTo [] (bs ++ ms) :=
    hexFreeTo_append.mpr ⟨by rw [append_nil]; exact hfree.of_append, hms⟩
  refine Splits.of_split ms (by rw [rawText_append, hstep]) ?_ hfree'.hexFree ?_ (h rfl trivial)
  · rw [reverse_append, reverse_reverse, hacc, rawText_append]
  · rwa [getLast?_append_of_ne_nil _ hne]

end

/-- A hexadecimal escape sequence, or the same characters after an escaped backslash. -/
theorem SplitsAfter.hex (h : SplitsAfter as) (ms : List Atom) (ha : isHex a) (hb : isHex b)
    (pre : List Char) (hms : rawText ms = pre ++ [backslash, 'x', a, b])
    (hacc : acc.reverse = rawText bs) (hfree : HexFreeTo (rawText (ms ++ as)) bs)
    (hhex : ∀ t, Stops isHex t → HexFreeTo t ms) (hne : ms ≠ [])
    (hlast : ∀ ds h, ms.getLast? ≠ some (.oct ds h))
    (hpre : process (rawText ms ++ rawText as) acc chunks =
      process (backslash :: 'x' :: a :: b :: rawText as) (pre.reverse ++ acc) chunks) :
    Splits (ms ++ as) bs acc chunks := by
  have hrev : (rawText ms).reverse ++ acc = b :: a :: 'x' :: backslash :: (pre.reverse ++ acc) := by
    simp [hms]
  rw [process_hex ha hb, ← hrev] at hpre
  by_cases hhead : (rawText as).head?.any isHex
  · rw [if_pos hhead] at hpre
    exact h.split ms hacc hfree (hhex [] (by simp [Stops])) hne hlast hpre
  · rw [if_neg hhead] at hpre
    refine h.collect ms hacc hfree (hhex _ fun c hc => ?_) hpre
    rw [mem_def.mp hc] at hhead
    simpa using hhead

lemma SplitsAfter.backslash (hall : ∀ as', as'.length ≤ as.length → SplitsAfter as')
    {hb : backslash ∈ singleChars} (hacc : acc.reverse = rawText bs)
    (hfree : HexFreeTo (rawText (.single backslash hb :: as)) bs) :
    Splits (.single backslash hb :: as) bs acc chunks := by
  have hfirst : ∀ s, process (CFormat.backslash :: CFormat.backslash :: s) acc chunks =
      process (CFormat.backslash :: s) (CFormat.backslash :: acc) chunks := fun s =>
    process_of_ne (.inr fun a b rest h => absurd (List.cons.inj h).1 (by decide))
  by_cases hr : ∃ p q rest, rawText as = 'x' :: p :: q :: rest
  · obtain ⟨p, q, rest, hr⟩ := hr
    obtain ⟨hx, as1, rfl, hr1⟩ := exists_char hr (by decide)
    by_cases hpq : isHex p ∧ isHex q
    · obtain ⟨hp, as2, rfl, hr2⟩ := exists_char hr1 (plain_of_isHex hpq.1).2
      obtain ⟨hq, as3, rfl, -⟩ := exists_char hr2 (plain_of_isHex hpq.2).2
      exact SplitsAfter.hex (hall as3 (by simp only [length_cons]; omega))
        [.single _ hb, .char 'x' hx, .char p hp, .char q hq] hpq.1 hpq.2 [CFormat.backslash]
        rfl hacc hfree (fun t _ => ⟨trivial, trivial, trivial, trivial, trivial⟩) (by simp)
        (by simp)
        (hfirst _)
    · refine SplitsAfter.collect (hall as1 (by simp)) [.single _ hb, .char 'x' hx] hacc hfree
        ⟨trivial, trivial, trivial⟩ ?_
      rw [hr1]
      exact (hfirst _).trans (process_not_hex hpq)
  · refine SplitsAfter.collect (hall as le_rfl) [.single _ hb] hacc hfree ⟨trivial, trivial⟩ ?_
    refine (hfirst _).trans (process_of_ne (.inr fun a b rest h => hr ⟨a, b, rest, h⟩))

lemma splitsAfter (as : List Atom) : SplitsAfter as := by
  induction hn : as.length using Nat.strong_induction_on generalizing as with
  | _ n ih =>
  intro bs acc chunks hacc hfree
  cases as with
  | nil =>
    refine ⟨[bs], ?_, by simp, ?_, by simp⟩
    · simp [rawText, process, hacc]
    · simpa using hfree.hexFree
  | cons a as =>
    have hrest : SplitsAfter as := ih as.length (by simp [← hn]) as rfl
    cases a with
    | char c h =>
      exact hrest.collect [.char c h] hacc hfree ⟨trivial, trivial⟩ (process_of_ne (.inl h.1))
    | oct ds h =>
      refine hrest.collect [.oct ds h] hacc hfree ⟨trivial, trivial⟩ ?_
      cases ds with
      | nil => simp at h
      | cons d ds =>
        simp only [rawText, flatMap_cons, flatMap_nil, append_nil, Atom.raw]
        refine process_backslash ?_ ?_
        · rintro rfl
          exact absurd (h.1 'x' (by simp)) (by decide)
        · exact fun x hx => (plain_of_isHex (isHex_of_isOct (h.1 x hx))).2
    | univ1 ds h =>
      refine hrest.collect [.univ1 ds h] hacc hfree ⟨trivial, trivial⟩ ?_
      simp only [rawText, flatMap_cons, flatMap_nil, append_nil, Atom.raw]
      refine process_backslash (by decide) fun x hx => ?_
      obtain rfl | hx := mem_cons.mp hx
      · decide
      · exact (plain_of_isHex (h.1 x hx)).2
    | univ2 ds h =>
      refine hrest.collect [.univ2 ds h] hacc hfree ⟨trivial, trivial⟩ ?_
      simp only [rawText, flatMap_cons, flatMap_nil, append_nil, Atom.raw]
      refine process_backslash (by decide) fun x hx => ?_
      obtain rfl | hx := mem_cons.mp hx
      · decide
      · exact (plain_of_isHex (h.1 x hx)).2
    | hex a b h =>
      refine SplitsAfter.hex hrest [.hex a b h] h.1 h.2 [] rfl hacc hfree ?_ (by simp) (by simp) rfl
      exact fun t ht => ⟨ht, trivial⟩
    | single c h =>
      by_cases hc : c = backslash
      · subst hc
        refine SplitsAfter.backslash (fun as' hle => ih as'.length ?_ as' rfl) hacc hfree
        rw [← hn, length_cons]
        omega
      · refine hrest.collect [.single c h] hacc hfree ⟨trivial, trivial⟩ ?_
        exact process_backslash (escape_single c h).1 (by simpa using hc)

end Splits

lemma Atom.raw_ne_nil (a : Atom) : a.raw ≠ [] := by
  cases a <;> simp [Atom.raw]

lemma rawText_eq_nil (h : rawText as = []) : as = [] := by
  cases as with
  | nil => rfl
  | cons a as =>
    rw [rawText, flatMap_cons, append_eq_nil_iff] at h
    exact absurd h.1 a.raw_ne_nil

/-- If the check succeeds, the text is split in such a way that no hexadecimal escape sequence is
followed by a digit. -/
theorem exists_hexSplitString (h : hasActualHexEscapes (rawText as)) :
    ∃ ass : List (List Atom), hexSplitString (rawText as) = ass.map rawText ∧ ass.flatten = as ∧
      (∀ cs ∈ ass, HexFree cs) ∧ ((∀ cs ∈ ass, Lexed cs) → Lexed as) := by
  have hne : rawText as ≠ [] := by
    intro hnil
    rw [hnil, hasActualHexEscapes] at h
    cases h
  have hsplits : Splits as [] [] [] := splitsAfter as rfl trivial
  obtain ⟨ass, hprocess, hflat, hfree, hlex⟩ := hsplits
  refine ⟨ass.filter (rawText · ≠ []), ?_, ?_, fun cs hcs => hfree cs (mem_of_mem_filter hcs), ?_⟩
  · rw [hexSplitString, if_neg hne, if_pos h, hprocess, map_nil, reverse_nil,
      nil_append, List.filter_map]
    rfl
  · rw [← nil_append as, ← hflat]
    clear hprocess hflat hfree hlex h hne
    induction ass with
    | nil => rfl
    | cons cs ass ih =>
      by_cases hcs : rawText cs = []
      · rw [filter_cons_of_neg (by simpa using hcs), ih, rawText_eq_nil hcs]
        rfl
      · rw [filter_cons_of_pos (by simpa using hcs), flatten_cons, ih, flatten_cons]
  · intro hall
    rw [hflat] at hlex
    refine hlex fun cs hcs => ?_
    by_cases hraw : rawText cs = []
    · rw [rawText_eq_nil hraw]
      trivial
    · exact hall cs (mem_filter.mpr ⟨hcs, by simpa using hraw⟩)

end Acton.Format
