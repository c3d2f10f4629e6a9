import Mathlib.Tactic
import Mathlib.Data.List.TakeWhile

/-!
# String literals of C and the format strings of `printf`

`read` is how a C compiler reads adjacent string literals: escape sequences are replaced, where a
hexadecimal one takes all the digits that follow. `pieces` is how `printf` reads a format string: a
null character ends it, and a percent sign starts a conversion specification. `Spec.args` are the
types of the arguments that a specification takes, if the standard defines it.

Of the rules for single conversions only those about the arguments are here. Signed and unsigned
types of one size are not told apart.

* `read_append`: a literal is read from left to right, up to a place where no escape sequence goes
  on.
* `spec_raw`: a well-formed specification is read back.
* `pieces_text`: text without percent signs and null characters stands for itself.
-/

namespace CFormat
open List Option

lemma forall_mem_of_all {α : Type} {p : α → Prop} [DecidablePred p] {l : List α}
    (h : (l.all fun a => decide (p a)) = true) : ∀ a ∈ l, p a :=
  fun a ha => of_decide_eq_true (all_eq_true.mp h a ha)

/-! ### String literals -/

/-- An element of a string: a character, or a byte that is given by its number and is no ASCII
character. -/
inductive CChar
  | char (c : Char)
  | byte (n : ℕ)
  deriving DecidableEq, Repr

def backslash : Char := Char.ofNat 92
def dquote : Char := Char.ofNat 34
def newline : Char := Char.ofNat 10
def CChar.ofByte (n : ℕ) : CChar := if n < 128 then .char (Char.ofNat n) else .byte n
def isOct (c : Char) : Bool := '0' ≤ c && c ≤ '7'
def isHex (c : Char) : Bool := c.isDigit || ('a' ≤ c && c ≤ 'f') || ('A' ≤ c && c ≤ 'F')

def digitVal (c : Char) : ℕ :=
  if c.isDigit then c.toNat - 48 else if c ≤ 'F' then c.toNat - 55 else c.toNat - 87

def value (base : ℕ) (ds : List Char) : ℕ := ds.foldl (fun v d => v * base + digitVal d) 0

def simpleEscape (c : Char) : Option Char :=
  if c = 'a' then some (Char.ofNat 7)
  else if c = 'b' then some (Char.ofNat 8)
  else if c = 't' then some (Char.ofNat 9)
  else if c = 'n' then some newline
  else if c = 'v' then some (Char.ofNat 11)
  else if c = 'f' then some (Char.ofNat 12)
  else if c = 'r' then some (Char.ofNat 13)
  else if c = backslash ∨ c = dquote ∨ c = Char.ofNat 39 ∨ c = '?' then some c
  else none

/-- Universal character names below `00A0` are not allowed, with three exceptions. -/
def universal (n : ℕ) : Option CChar :=
  if n.isValidChar ∧ (160 ≤ n ∨ n = 36 ∨ n = 64 ∨ n = 96) then some (.char (Char.ofNat n)) else none

/-- Digits of an octal escape sequence, at most `n`. -/
def octDigits : ℕ → List Char → List Char
  | n + 1, c :: s => if isOct c then c :: octDigits n s else []
  | _, _ => []

def octEscape (s : List Char) : Option (CChar × List Char) :=
  if 256 ≤ value 8 (octDigits 3 s) then none
  else some (.ofByte (value 8 (octDigits 3 s)), s.drop (octDigits 3 s).length)

def hexEscape (s : List Char) : Option (CChar × List Char) :=
  if s.takeWhile isHex = [] ∨ 256 ≤ value 16 (s.takeWhile isHex) then none
  else some (.ofByte (value 16 (s.takeWhile isHex)), s.dropWhile isHex)

/-- A universal character name of `n` digits. -/
def uniEscape (n : ℕ) (s : List Char) : Option (CChar × List Char) :=
  if (s.take n).length = n ∧ (s.take n).all isHex then
    (universal (value 16 (s.take n))).map (·, s.drop n)
  else none

/-- What stands after a backslash: the element that it denotes, and the rest. -/
def escape : List Char → Option (CChar × List Char)
  | [] => none
  | c :: s =>
    if c = 'x' then hexEscape s
    else if c = 'u' then uniEscape 4 s
    else if c = 'U' then uniEscape 8 s
    else if isOct c then octEscape (c :: s)
    else (simpleEscape c).map fun c' => (.char c', s)

/-! An escape sequence ends at the latest at a character that is no digit. -/

section Stop
variable {c : Char} {r s : List Char}

lemma takeWhile_append_stop {p : Char → Bool} (hc : p c = false) :
    (r ++ c :: s).takeWhile p = r.takeWhile p := by
  induction r with
  | nil => simp [hc]
  | cons a r ih => simp [takeWhile_cons, ih]

lemma dropWhile_append_stop {p : Char → Bool} (hc : p c = false) :
    (r ++ c :: s).dropWhile p = r.dropWhile p ++ c :: s := by
  induction r with
  | nil => simp [hc]
  | cons a r ih =>
    cases ha : p a <;> simp [ha, ih]

lemma isOct_eq_false (hc : isHex c = false) : isOct c = false := by
  have hdigit : c.isDigit = false := by
    simp only [isHex, Bool.or_eq_false_iff] at hc
    exact hc.1.1
  by_contra h
  simp only [isOct, Bool.not_eq_false, Bool.and_eq_true, decide_eq_true_eq] at h
  simp only [Char.isDigit, Bool.and_eq_false_iff, decide_eq_false_iff_not] at hdigit
  have h1 : '0'.val ≤ c.val := h.1
  have h2 : c.val ≤ '7'.val := h.2
  rcases hdigit with hlt | hlt
  · exact hlt h1
  · exact hlt (UInt32.le_trans h2 (by decide))

lemma octDigits_append_stop {n : ℕ} (hc : isOct c = false) :
    octDigits n (r ++ c :: s) = octDigits n r := by
  induction r generalizing n with
  | nil => cases n <;> simp [octDigits, hc]
  | cons a r ih => cases n <;> simp [octDigits, ih]

lemma length_octDigits_le (n : ℕ) (r : List Char) : (octDigits n r).length ≤ r.length := by
  induction r generalizing n with
  | nil => cases n <;> simp [octDigits]
  | cons a r ih =>
    cases n with
    | zero => simp [octDigits]
    | succ n =>
      unfold octDigits
      split_ifs
      · simpa using ih n
      · simp

/-- What an escape sequence denotes does not depend on what follows the next character that is no
digit. -/
theorem octEscape_append (hc : isHex c = false) :
    octEscape (r ++ c :: s) = (octEscape r).map fun p => (p.1, p.2 ++ c :: s) := by
  unfold octEscape
  rw [octDigits_append_stop (isOct_eq_false hc)]
  split_ifs
  · rfl
  · rw [drop_append_of_le_length (length_octDigits_le _ _)]
    rfl

lemma hexEscape_append (hc : isHex c = false) :
    hexEscape (r ++ c :: s) = (hexEscape r).map fun p => (p.1, p.2 ++ c :: s) := by
  unfold hexEscape
  rw [takeWhile_append_stop hc, dropWhile_append_stop hc]
  split_ifs <;> rfl

lemma uniEscape_append {n : ℕ} (hc : isHex c = false) :
    uniEscape n (r ++ c :: s) = (uniEscape n r).map fun p => (p.1, p.2 ++ c :: s) := by
  unfold uniEscape
  by_cases hn : n ≤ r.length
  · rw [take_append_of_le_length hn, drop_append_of_le_length hn]
    split_ifs
    · cases universal (value 16 (r.take n)) <;> rfl
    · rfl
  · -- the stop is among the `n` characters, and there are not enough of them without it
    rw [if_neg, if_neg]
    · rfl
    · rintro ⟨hlen, -⟩
      rw [length_take] at hlen
      omega
    · rintro ⟨-, hall⟩
      have hmem : c ∈ (r ++ c :: s).take n := by
        rw [take_append, take_of_length_le (by omega)]
        obtain ⟨k, hk⟩ : ∃ k, n - r.length = k + 1 := ⟨n - r.length - 1, by omega⟩
        rw [hk]
        simp
      rw [all_eq_true.mp hall c hmem] at hc
      cases hc

lemma escape_append (hr : r ≠ []) (hc : isHex c = false) :
    escape (r ++ c :: s) = (escape r).map fun p => (p.1, p.2 ++ c :: s) := by
  obtain ⟨a, r, rfl⟩ := exists_cons_of_ne_nil hr
  rw [cons_append, escape, escape, ← cons_append, octEscape_append hc,
    hexEscape_append hc, uniEscape_append hc, uniEscape_append hc]
  split_ifs <;> try rfl
  cases simpleEscape a <;> rfl

end Stop

lemma length_le_of_uniEscape {n : ℕ} {s rest : List Char} {v : CChar}
    (h : uniEscape n s = some (v, rest)) : rest.length ≤ s.length := by
  unfold uniEscape at h
  split_ifs at h
  obtain ⟨a, -, ha⟩ := map_eq_some_iff.mp h
  obtain ⟨-, rfl⟩ := Prod.mk.inj ha
  exact (drop_suffix n s).length_le

lemma length_lt_of_escape {s rest : List Char} {v : CChar} (h : escape s = some (v, rest)) :
    rest.length < s.length := by
  cases s with
  | nil => cases h
  | cons c s =>
    rw [escape] at h
    split_ifs at h with hx hu hU hoct
    · unfold hexEscape at h
      split_ifs at h
      obtain ⟨-, rfl⟩ := Prod.mk.inj (some.inj h)
      exact Nat.lt_succ_of_le (dropWhile_suffix _).length_le
    · exact Nat.lt_succ_of_le (length_le_of_uniEscape h)
    · exact Nat.lt_succ_of_le (length_le_of_uniEscape h)
    · unfold octEscape at h
      split_ifs at h
      obtain ⟨-, rfl⟩ := Prod.mk.inj (some.inj h)
      have : 0 < (octDigits 3 (c :: s)).length := length_pos_of_ne_nil (by simp [octDigits, hoct])
      simp only [length_drop, length_cons]
      omega
    · obtain ⟨a, -, ha⟩ := map_eq_some_iff.mp h
      obtain ⟨-, rfl⟩ := Prod.mk.inj ha
      exact Nat.lt_succ_self _

/-- Adjacent string literals, read from the inside or the outside of one. -/
def read (inside : Bool) (s : List Char) : Option (List CChar) :=
  match inside, s with
  | false, [] => some []
  | true, [] => none
  | false, c :: s => if c = dquote then read true s else none
  | true, c :: s =>
    if c = dquote then read false s
    else if c = newline then none
    else if c = backslash then
      match _h : escape s with
      | none => none
      | some (v, rest) => (read true rest).map (v :: ·)
    else (read true s).map (.char c :: ·)
termination_by s.length
decreasing_by
  all_goals simp_wf
  have := length_lt_of_escape _h
  omega

/-- What a literal with the text `s` denotes. -/
def literal (s : List Char) : Option (List CChar) := read false (dquote :: (s ++ [dquote]))

/-! ### Reading from left to right -/

section Read
variable {c : Char} {r s : List Char} {v : List CChar}

@[simp]
lemma read_false_nil : read false [] = some [] := by rw [read]

@[simp]
lemma read_true_nil : read true [] = none := by rw [read]

lemma read_false_cons : read false (c :: s) = if c = dquote then read true s else none := by
  rw [read]

@[simp]
lemma read_dquote : read true (dquote :: s) = read false s := by
  rw [read, if_pos rfl]

lemma read_backslash :
    read true (backslash :: s) = (escape s).bind fun p => (read true p.2).map (p.1 :: ·) := by
  rw [read, if_neg (by decide), if_neg (by decide), if_pos rfl]
  split
  · rename_i h
    rw [h]
    rfl
  · rename_i h
    rw [h]
    rfl

lemma read_char (hq : c ≠ dquote) (hn : c ≠ newline) (hb : c ≠ backslash) :
    read true (c :: s) = (read true s).map (.char c :: ·) := by
  rw [read, if_neg hq, if_neg hn, if_neg hb]

/-- A literal is read from left to right: what is read up to a quotation mark is read in the same
way before any character that is no digit. -/
theorem read_append {b : Bool} (h : read b (r ++ [dquote]) = some v) (hc : isHex c = false) :
    read b (r ++ c :: s) = (read true (c :: s)).map (v ++ ·) := by
  induction hlen : r.length using Nat.strong_induction_on generalizing b r v with
  | _ n ih =>
  have hq : isHex dquote = false := by decide
  cases r with
  | nil =>
    cases b with
    | false => simp [read_false_cons] at h
    | true =>
      obtain rfl : v = [] := by simpa using h.symm
      simp
  | cons a r =>
    have hlt : r.length < n := by simp [← hlen]
    cases b with
    | false =>
      rw [cons_append, read_false_cons] at h ⊢
      split_ifs at h ⊢ with ha
      exact ih _ hlt h rfl
    | true =>
      rw [cons_append] at h ⊢
      by_cases ha : a = dquote
      · subst ha
        rw [read_dquote] at h ⊢
        exact ih _ hlt h rfl
      by_cases hb : a = backslash
      · subst hb
        rw [read_backslash] at h ⊢
        cases r with
        | nil =>
          -- the backslash would take the quotation mark, and the literal would not end
          have : escape [dquote] = some (.char dquote, []) := by decide
          simp [this] at h
        | cons a' r' =>
          rw [escape_append (by simp) hq] at h
          rw [escape_append (by simp) hc]
          cases he : escape (a' :: r') with
          | none => simp [he] at h
          | some p =>
            obtain ⟨x, rest⟩ := p
            simp only [he, map_some, bind_some, map_eq_some_iff] at h ⊢
            obtain ⟨v', hv', rfl⟩ := h
            have hrest := length_lt_of_escape he
            rw [ih rest.length (by omega) hv' rfl, Option.map_map]
            rfl
      · by_cases hn : a = newline
        · subst hn
          rw [read, if_neg (by decide), if_pos rfl] at h
          cases h
        · rw [read_char ha hn hb] at h ⊢
          obtain ⟨v', hv', rfl⟩ := map_eq_some_iff.mp h
          rw [ih _ hlt hv' rfl, Option.map_map]
          rfl

/-- Characters that need no escaping stand for themselves. -/
theorem read_map_char {t : List Char} (ht : ∀ a ∈ t, a ≠ dquote ∧ a ≠ newline ∧ a ≠ backslash) :
    read true (t ++ s) = (read true s).map (t.map .char ++ ·) := by
  induction t with
  | nil => simp
  | cons a t ih =>
    obtain ⟨hq, hn, hb⟩ := ht a (by simp)
    rw [cons_append, read_char hq hn hb, ih fun x hx => ht x (by simp [hx]), Option.map_map]
    rfl

end Read

/-! ### Format strings -/

/-- The types of arguments. -/
inductive CType
  | int | long | longLong | intmax | size | ptrdiff
  | double | longDouble
  | wint | charPtr | wcharPtr | voidPtr | intPtr
  deriving DecidableEq, Repr

inductive Len
  | none | hh | h | l | ll | j | z | t | L
  deriving DecidableEq, Repr

/-- A field width or a precision: given by an argument, or by digits. -/
inductive Field
  | star
  | digits (ds : List CChar)
  deriving DecidableEq, Repr

structure Spec where
  flags : List CChar
  width : Field
  prec : Option Field
  len : Len
  conv : Char
  deriving DecidableEq, Repr

def isFlag : CChar → Bool
  | .char c => c ∈ ['#', '0', '-', ' ', '+']
  | .byte _ => false

def isDigit : CChar → Bool
  | .char c => c ∈ ['0', '1', '2', '3', '4', '5', '6', '7', '8', '9']
  | .byte _ => false

def field : List CChar → Field × List CChar
  | .char '*' :: s => (.star, s)
  | s => (.digits (s.takeWhile isDigit), s.dropWhile isDigit)

def precision : List CChar → Option Field × List CChar
  | .char '.' :: s => ((field s).1, (field s).2)
  | s => (none, s)

def length : List CChar → Len × List CChar
  | .char 'h' :: .char 'h' :: s => (.hh, s)
  | .char 'h' :: s => (.h, s)
  | .char 'l' :: .char 'l' :: s => (.ll, s)
  | .char 'l' :: s => (.l, s)
  | .char 'j' :: s => (.j, s)
  | .char 'z' :: s => (.z, s)
  | .char 't' :: s => (.t, s)
  | .char 'L' :: s => (.L, s)
  | s => (.none, s)

/-- The specification after a percent sign, and the rest. -/
def spec (s : List CChar) : Option (Spec × List CChar) :=
  let width := field (s.dropWhile isFlag)
  let prec := precision width.2
  let len := length prec.2
  match len.2 with
  | .char c :: rest => some (⟨s.takeWhile isFlag, width.1, prec.1, len.1, c⟩, rest)
  | _ => none

/-- The argument of an integer conversion. -/
def intType : Len → Option CType
  | .none | .hh | .h => some .int
  | .l => some .long
  | .ll => some .longLong
  | .j => some .intmax
  | .z => some .size
  | .t => some .ptrdiff
  | .L => none

/-- The argument that is converted, where the standard defines the conversion. -/
def convType (len : Len) (c : Char) : Option CType :=
  if c ∈ ['d', 'i', 'o', 'u', 'x', 'X'] then intType len
  else if c ∈ ['f', 'F', 'e', 'E', 'g', 'G', 'a', 'A'] then
    if len = .none ∨ len = .l then some .double else if len = .L then some .longDouble else none
  else if c = 'c' then if len = .none then some .int else if len = .l then some .wint else none
  else if c = 's' then
    if len = .none then some .charPtr else if len = .l then some .wcharPtr else none
  else if c = 'p' then if len = .none then some .voidPtr else none
  else if c = 'n' then if len = .none then some .intPtr else none
  else none

def Field.args : Field → List CType
  | .star => [.int]
  | .digits _ => []

/-- A percent sign with nothing else. -/
def Spec.Bare (sp : Spec) : Prop :=
  sp.flags = [] ∧ sp.width = .digits [] ∧ sp.prec = none ∧ sp.len = .none

instance (sp : Spec) : Decidable sp.Bare := by
  unfold Spec.Bare
  infer_instance

/-- The types of all arguments that a specification takes, in order. -/
def Spec.args (sp : Spec) : Option (List CType) :=
  if sp.conv = '%' then if sp.Bare then some [] else none
  else (convType sp.len sp.conv).map fun t =>
    sp.width.args ++ (sp.prec.elim [] Field.args ++ [t])

inductive Piece
  | text (c : CChar)
  | conv (sp : Spec)
  deriving DecidableEq, Repr

lemma length_field_le (s : List CChar) : (field s).2.length ≤ s.length := by
  unfold field
  split
  · simp
  · exact (dropWhile_suffix _).length_le

lemma length_precision_le (s : List CChar) : (precision s).2.length ≤ s.length := by
  unfold precision
  split
  · exact (length_field_le _).trans (Nat.le_succ _)
  · exact le_rfl

lemma length_length_le (s : List CChar) : (length s).2.length ≤ s.length := by
  unfold length
  split <;> simp only [length_cons] <;> omega

lemma length_lt_of_spec {s rest : List CChar} {sp : Spec} (h : spec s = some (sp, rest)) :
    rest.length < s.length := by
  have hflags : (s.dropWhile isFlag).length ≤ s.length := (dropWhile_suffix _).length_le
  have hfield := length_field_le (s.dropWhile isFlag)
  have hprec := length_precision_le (field (s.dropWhile isFlag)).2
  have hlen := length_length_le (precision (field (s.dropWhile isFlag)).2).2
  simp only [spec] at h
  split at h
  · rename_i c rest' heq
    obtain ⟨-, rfl⟩ := Prod.mk.inj (some.inj h)
    rw [heq, length_cons] at hlen
    omega
  · cases h

/-! ### Specifications are read back -/

/-- The string does not start with an element in `p`. -/
def Stops {α : Type} (p : α → Bool) (s : List α) : Prop := ∀ c ∈ s.head?, p c = false

lemma takeWhile_append_of_stops {α : Type} {p : α → Bool} {ds s : List α} (hds : ∀ d ∈ ds, p d)
    (hs : Stops p s) : (ds ++ s).takeWhile p = ds ∧ (ds ++ s).dropWhile p = s := by
  rw [takeWhile_append_of_pos hds, dropWhile_append_of_pos hds]
  cases s with
  | nil => simp
  | cons c s =>
    have hc : p c = false := hs c rfl
    simp [hc]

def Field.raw : Field → List CChar
  | .star => [.char '*']
  | .digits ds => ds

def Len.raw : Len → List CChar
  | .none => []
  | .hh => [.char 'h', .char 'h']
  | .h => [.char 'h']
  | .l => [.char 'l']
  | .ll => [.char 'l', .char 'l']
  | .j => [.char 'j']
  | .z => [.char 'z']
  | .t => [.char 't']
  | .L => [.char 'L']

def rawPrec (p : Option Field) : List CChar := p.elim [] fun f => .char '.' :: f.raw

def Spec.raw (sp : Spec) : List CChar :=
  sp.flags ++ (sp.width.raw ++ (rawPrec sp.prec ++ (sp.len.raw ++ [.char sp.conv])))

/-- Characters that are part of a specification before its letter. -/
def reserved : List Char :=
  ['#', '0', '-', ' ', '+', '1', '2', '3', '4', '5', '6', '7', '8', '9', '*', '.',
    'h', 'l', 'j', 'z', 't', 'L']

structure Spec.Ok (sp : Spec) : Prop where
  flags : ∀ c ∈ sp.flags, isFlag c
  width : ∀ ds, sp.width = .digits ds → (∀ d ∈ ds, isDigit d) ∧ ∀ d ∈ ds.head?, d ≠ .char '0'
  prec : ∀ ds, sp.prec = some (.digits ds) → ∀ d ∈ ds, isDigit d
  conv : sp.conv ∉ reserved

section Raw
variable {s : List CChar}

lemma field_append {f : Field} (hf : ∀ ds, f = .digits ds → ∀ d ∈ ds, isDigit d)
    (hs : Stops isDigit s) (hstar : ∀ c ∈ s.head?, c ≠ .char '*') :
    field (f.raw ++ s) = (f, s) := by
  cases f with
  | star => rfl
  | digits ds =>
    obtain ⟨htake, hdrop⟩ := takeWhile_append_of_stops (hf ds rfl) hs
    have hne : ∀ t, ds ++ s ≠ .char '*' :: t := by
      intro t ht
      cases ds with
      | nil => exact hstar (.char '*') (by rw [show s = _ from ht]; rfl) rfl
      | cons d ds =>
        obtain ⟨rfl, -⟩ := cons.inj ht
        exact absurd (hf _ rfl (.char '*') (by simp)) (by decide)
    rw [Field.raw, field, htake, hdrop]
    exact hne

lemma precision_append {p : Option Field}
    (hp : ∀ ds, p = some (.digits ds) → ∀ d ∈ ds, isDigit d) (hs : Stops isDigit s)
    (hstar : ∀ c ∈ s.head?, c ≠ .char '*') (hdot : ∀ c ∈ s.head?, c ≠ .char '.') :
    precision (rawPrec p ++ s) = (p, s) := by
  cases p with
  | none =>
    rw [rawPrec, elim_none, nil_append, precision]
    rintro t rfl
    exact hdot _ rfl rfl
  | some f =>
    have hf : field (f.raw ++ s) = (f, s) := field_append (fun ds h => hp ds (by rw [h])) hs hstar
    rw [rawPrec, elim_some, cons_append, precision, hf]

lemma length_append {c : Char} (hc : c ∉ reserved) (len : Len) :
    length (len.raw ++ .char c :: s) = (len, .char c :: s) := by
  simp only [reserved, mem_cons, not_mem_nil, or_false, not_or] at hc
  cases len <;> simp [length, Len.raw, hc]

/-- Neither a flag nor a part of a field. -/
def Ends (c : CChar) : Prop := isFlag c = false ∧ isDigit c = false ∧ c ≠ .char '*'

lemma ends_of_not_mem_reserved {c : Char} (hc : c ∉ reserved) : Ends (.char c) := by
  simp only [reserved, mem_cons, not_mem_nil, or_false, not_or] at hc
  refine ⟨?_, ?_, ?_⟩
  · simp [isFlag, hc]
  · simp [isDigit, hc]
  · simp [hc]

lemma ends_of_len {c : Char} (hc : c ∉ reserved) (len : Len) :
    ∀ a ∈ (len.raw ++ .char c :: s).head?, Ends a ∧ a ≠ .char '.' := by
  intro a ha
  cases len
  case none =>
    obtain rfl : .char c = a := by simpa [Len.raw] using ha
    refine ⟨ends_of_not_mem_reserved hc, ?_⟩
    rintro ⟨⟩
    exact hc (by decide)
  all_goals
    simp only [Len.raw, cons_append, head?_cons, mem_def, some.injEq] at ha
    subst ha
    exact ⟨⟨by decide, by decide, by decide⟩, by decide⟩

lemma ends_of_prec {p : Option Field} (hs : ∀ a ∈ s.head?, Ends a) :
    ∀ a ∈ (rawPrec p ++ s).head?, Ends a := by
  cases p with
  | none => exact hs
  | some f =>
    intro a ha
    obtain rfl : .char '.' = a := by simpa [rawPrec] using ha
    exact ⟨by decide, by decide, by decide⟩

lemma isFlag_of_isDigit {c : CChar} (hc : isDigit c) (h0 : c ≠ .char '0') : isFlag c = false := by
  cases c with
  | byte n => rfl
  | char c =>
    simp only [isDigit, decide_eq_true_eq] at hc
    have hdigits : ∀ d ∈ ['0', '1', '2', '3', '4', '5', '6', '7', '8', '9'], d ≠ '0' →
        isFlag (.char d) = false := forall_mem_of_all (by decide)
    exact hdigits c hc fun h => h0 (by rw [h])

lemma spec_raw {sp : Spec} (h : sp.Ok) : spec (sp.raw ++ s) = some (sp, s) := by
  have hlen := ends_of_len (s := s) h.conv sp.len
  have hprec := ends_of_prec (p := sp.prec) fun a ha => (hlen a ha).1
  have hwidth : Stops isFlag (sp.width.raw ++
      (rawPrec sp.prec ++ (sp.len.raw ++ .char sp.conv :: s))) := by
    intro a ha
    cases hw : sp.width with
    | star =>
      obtain rfl : .char '*' = a := by simpa [hw, Field.raw] using ha
      decide
    | digits ds =>
      rw [hw, Field.raw] at ha
      cases ds with
      | nil => exact (hprec a ha).1
      | cons d ds =>
        obtain rfl : d = a := by simpa using ha
        have hd : isDigit d := (h.width _ hw).1 d (by simp)
        have h0 : d ≠ .char '0' := (h.width _ hw).2 d rfl
        exact isFlag_of_isDigit hd h0
  obtain ⟨htake, hdrop⟩ := takeWhile_append_of_stops h.flags hwidth
  have hfield := field_append (fun ds hd => (h.width ds hd).1)
    (fun a ha => (hprec a ha).2.1) fun a ha => (hprec a ha).2.2
  have hprecision := precision_append h.prec (fun a ha => (hlen a ha).1.2.1)
    (fun a ha => (hlen a ha).1.2.2) fun a ha => (hlen a ha).2
  rw [Spec.raw]
  simp only [append_assoc, cons_append, nil_append]
  simp only [spec, htake, hdrop, hfield, hprecision, length_append h.conv]

end Raw

/-! ### The pieces of a format string -/

/-- A format string as text and conversion specifications. -/
def pieces : List CChar → Option (List Piece)
  | [] => some []
  | c :: s =>
    if c = .char (Char.ofNat 0) then some []
    else if c = .char '%' then
      match _h : spec s with
      | none => none
      | some (sp, rest) => (pieces rest).map (.conv sp :: ·)
    else (pieces s).map (.text c :: ·)
termination_by s => s.length
decreasing_by
  all_goals simp_wf
  have := length_lt_of_spec _h
  omega

section Pieces
variable {c : CChar} {s : List CChar}

@[simp]
lemma pieces_nil : pieces [] = some [] := by rw [pieces]

lemma pieces_percent :
    pieces (.char '%' :: s) = (spec s).bind fun p => (pieces p.2).map (.conv p.1 :: ·) := by
  rw [pieces, if_neg (by decide), if_pos rfl]
  split
  · rename_i h
    rw [h]
    rfl
  · rename_i h
    rw [h]
    rfl

/-- Text without null characters and percent signs stands for itself. -/
theorem pieces_text {t : List CChar} (ht : ∀ a ∈ t, a ≠ .char (Char.ofNat 0) ∧ a ≠ .char '%') :
    pieces (t ++ s) = (pieces s).map (t.map .text ++ ·) := by
  induction t with
  | nil => simp
  | cons a t ih =>
    obtain ⟨h0, hp⟩ := ht a (by simp)
    rw [cons_append, pieces, if_neg h0, if_neg hp, ih fun x hx => ht x (by simp [hx]),
      Option.map_map]
    rfl

end Pieces

/-! ### Output -/

/-- The specification `%s`. -/
def stringSpec : Spec := ⟨[], .digits [], none, .none, 's'⟩

/-- The elements of a string up to the null character. -/
def cString (s : List CChar) : List CChar := s.takeWhile (· ≠ .char (Char.ofNat 0))

/-- What is written when all arguments are strings, for format strings with no other conversions
than `%s` and `%%`. -/
def output : List Piece → List (List CChar) → Option (List CChar)
  | [], _ => some []
  | .text c :: qs, ss => (output qs ss).map (c :: ·)
  | .conv sp :: qs, ss =>
    if sp.conv = '%' ∧ sp.Bare then (output qs ss).map (.char '%' :: ·)
    else if sp = stringSpec then
      match ss with
      | [] => none
      | s :: ss => (output qs ss).map (cString s ++ ·)
    else none

lemma output_text {t : List CChar} {qs : List Piece} {ss : List (List CChar)} :
    output (t.map .text ++ qs) ss = (output qs ss).map (t ++ ·) := by
  induction t with
  | nil => simp
  | cons c t ih =>
    rw [map_cons, cons_append, output, ih, Option.map_map]
    rfl

lemma cString_eq_self {s : List CChar} (hs : ∀ a ∈ s, a ≠ .char (Char.ofNat 0)) : cString s = s :=
  takeWhile_eq_self_iff.mpr (by simpa using hs)

end CFormat
