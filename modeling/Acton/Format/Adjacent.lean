import Acton.Format.Interpolation

/-!
# Adjacent string literals

The parser splits the text of a literal where C would read a digit after a hexadecimal escape
sequence as a part of it. For several literals next to each other it puts the pieces together again
(`concatStringLiterals`), and the text of one literal may then change the meaning of the escape
sequence at the end of the literal before.

C reads from a text at most as many elements as are meant, and exactly as many only if no escape
sequence takes a digit from its neighbours (`length_le_of_read`). So the emitted C literals denote
what is meant exactly if there is no such place (`denotes_iff`).
-/

namespace Acton.Format
open List Option
open CFormat (CChar backslash dquote newline read isHex isOct Stops octDigits uniEscape universal
  read_false_cons)

/-! ## Digits after an escape sequence -/

section Absorb
variable {as : List Atom} {s t : List Char}

/-- Digits in the emitted text are characters that stand for themselves. -/
theorem exists_of_digits {ds : List Char} (hds : ∀ d ∈ ds, isHex d)
    (h : escape (rawText as) ++ dquote :: s = ds ++ t) :
    ∃ bs as', as = bs ++ as' ∧ bs.length = ds.length ∧ t = escape (rawText as') ++ dquote :: s := by
  induction ds generalizing as with
  | nil => exact ⟨[], as, rfl, rfl, h.symm⟩
  | cons d ds ih =>
    have hd : isHex d := hds d (by simp)
    obtain ⟨hq, hb⟩ := plain_of_isHex hd
    cases as with
    | nil =>
      rw [rawText, flatMap_nil, escape, nil_append, cons_append] at h
      exact absurd (List.cons.inj h).1.symm hq
    | cons a as =>
      rw [rawText, flatMap_cons, escape_atom, ← rawText, append_assoc] at h
      -- an escape sequence starts with a backslash, and so does a quotation mark
      cases a with
      | char c hc =>
        rw [Atom.escaped, mark] at h
        split_ifs at h
        · exact absurd (List.cons.inj h).1.symm hb
        · obtain ⟨-, h⟩ := List.cons.inj h
          obtain ⟨bs, as', rfl, hlen, ht⟩ := ih (fun x hx => hds x (by simp [hx])) h
          exact ⟨.char c hc :: bs, as', rfl, by simp [hlen], ht⟩
      | _ => exact absurd (List.cons.inj h).1.symm hb

/-- If no digit follows in the emitted text, none follows in the text itself. -/
theorem stops_rawText {p : Char → Bool} (hp : ∀ c, p c → isHex c)
    (h : Stops p (escape (rawText as) ++ dquote :: s)) : Stops p (rawText as) := by
  intro c hc
  by_contra hpc
  rw [Bool.not_eq_false] at hpc
  obtain ⟨hq, hb⟩ := plain_of_isHex (hp c hpc)
  obtain ⟨r, hr⟩ : ∃ r, rawText as = c :: r := by
    cases hraw : rawText as with
    | nil => simp [hraw] at hc
    | cons d r => exact ⟨r, by simpa [hraw] using hc⟩
  have hhead : c ∈ (escape (rawText as) ++ dquote :: s).head? := by
    rw [hr, escape_cons hq hb]
    rfl
  rw [h c hhead] at hpc
  cases hpc

lemma stops_of_takeWhile_eq_nil {α : Type} {p : α → Bool} {r : List α}
    (h : r.takeWhile p = []) : Stops p r := by
  intro c hc
  cases r with
  | nil => simp at hc
  | cons d r =>
    obtain rfl : d = c := by simpa using hc
    by_contra hd
    rw [takeWhile_cons, if_pos (by simpa using hd)] at h
    cases h

lemma octDigits_append_digits {ds : List Char} (hds : ∀ d ∈ ds, isOct d) (n : ℕ) :
    octDigits (ds.length + n) (ds ++ s) = ds ++ octDigits n s := by
  induction ds with
  | nil => simp
  | cons d ds ih =>
    rw [length_cons, Nat.add_right_comm, cons_append, octDigits,
      if_pos (hds d (by simp)), ih fun x hx => hds x (by simp [hx]), cons_append]

lemma octDigits_spec (n : ℕ) (s : List Char) : s = octDigits n s ++ s.drop (octDigits n s).length ∧
      (∀ d ∈ octDigits n s, isOct d) ∧
      (0 < n → octDigits n s = [] → Stops isOct s) := by
  induction s generalizing n with
  | nil => cases n <;> simp [octDigits, Stops]
  | cons c s ih =>
    cases n with
    | zero => simp [octDigits]
    | succ n =>
      obtain ⟨hsplit, hall, -⟩ := ih n
      rw [octDigits]
      split_ifs with hc
      · exact ⟨by simpa using hsplit, by simpa [hc] using hall, by simp⟩
      · exact ⟨by simp, by simp, fun _ _ d hd => by simpa [← (by simpa using hd : c = d)] using hc⟩

end Absorb

/-- No escape sequence takes a digit from its neighbours, and C allows all of them. -/
structure Separated (as : List Atom) : Prop where
  lexed : Lexed as
  hexFree : HexFree as
  allowed : ∀ a ∈ as, a.Allowed

lemma Separated.cons {a : Atom} {as : List Atom} (h : Separated as)
    (hoct : a.OctStops (rawText as)) (hhex : a.HexStops (rawText as)) (ha : a.Allowed) :
    Separated (a :: as) :=
  ⟨⟨hoct, h.lexed⟩, ⟨hhex, h.hexFree⟩, forall_mem_cons.mpr ⟨ha, h.allowed⟩⟩

/-- C reads at most the elements that are meant, and all of them only if they are separated. -/
def ReadsAtMost (as : List Atom) (s : List Char) : Prop :=
  ∀ v, read true (escape (rawText as) ++ dquote :: s) = some v →
    ∃ v₁ v₂, v = v₁ ++ v₂ ∧ read false s = some v₂ ∧ v₁.length ≤ as.length ∧
      (v₁.length = as.length → Separated as)

section Read
variable {a : Atom} {as : List Atom} {s : List Char}

lemma escape_rawText_cons : escape (rawText (a :: as)) = a.escaped ++ escape (rawText as) := by
  rw [rawText, flatMap_cons, escape_atom, ← rawText]

/-- A character for which nothing can go wrong. -/
theorem ReadsAtMost.char (h : ReadsAtMost as s) (hoct : ∀ t, a.OctStops t)
    (hhex : ∀ t, a.HexStops t) (ha : a.Allowed) : ReadsAtMost (a :: as) s := by
  intro w hw
  rw [escape_rawText_cons, append_assoc, read_element ha (hoct _) (hhex _)] at hw
  obtain ⟨u, hu, rfl⟩ := map_eq_some_iff.mp hw
  obtain ⟨v1, v2, rfl, hv2, hle, heq⟩ := h u hu
  refine ⟨a.element :: v1, v2, rfl, hv2, by simpa using hle, fun hlen => ?_⟩
  exact (heq (by simpa using hlen)).cons (hoct _) (hhex _) ha

/-- An escape sequence that takes the digits `ds` of what follows. -/
theorem ReadsAtMost.escape {r t : List Char} (ds : List Char)
    (h : ∀ as', as'.length ≤ as.length → ReadsAtMost as' s) (hraw : a.escaped = backslash :: r)
    (hds : ∀ d ∈ ds, isHex d) (ht : escape (rawText as) ++ dquote :: s = ds ++ t)
    (hrest : ∀ v rest, CFormat.escape (r ++ (ds ++ t)) = some (v, rest) →
      rest = t ∧ (ds = [] → a.OctStops (rawText as) ∧ a.HexStops (rawText as) ∧ a.Allowed)) :
    ReadsAtMost (a :: as) s := by
  intro w hw
  rw [escape_rawText_cons, append_assoc, ht, hraw, cons_append, CFormat.read_backslash] at hw
  obtain ⟨⟨v, rest⟩, hesc, hmap⟩ := bind_eq_some_iff.mp hw
  obtain ⟨u, hu, rfl⟩ := map_eq_some_iff.mp hmap
  obtain ⟨rfl, hsep⟩ := hrest v rest hesc
  obtain ⟨bs, as', rfl, hlen, rfl⟩ := exists_of_digits hds ht
  obtain ⟨v1, v2, rfl, hv2, hle, heq⟩ := h as' (by simp) u hu
  refine ⟨v :: v1, v2, rfl, hv2, by simp; omega, fun hlen' => ?_⟩
  have hbs : bs = [] := by
    refine eq_nil_of_length_eq_zero ?_
    simp only [length_cons, length_append] at hlen'
    omega
  subst hbs
  obtain ⟨hoct, hhex, ha⟩ := hsep (eq_nil_of_length_eq_zero hlen.symm)
  exact (heq (by simpa using hlen')).cons hoct hhex ha

/-- Universal character names have a fixed number of digits. -/
theorem uniEscape_eq_some {ds t rest : List Char} {v : CChar}
    (h : uniEscape ds.length (ds ++ t) = some (v, rest)) :
    rest = t ∧ (universal (CFormat.value 16 ds)).isSome := by
  rw [uniEscape, take_left, drop_left] at h
  split_ifs at h
  obtain ⟨u, hu, heq⟩ := map_eq_some_iff.mp h
  exact ⟨(Prod.mk.inj heq).2.symm, by rw [hu]; rfl⟩

lemma readsAtMost (as : List Atom) (s : List Char) : ReadsAtMost as s := by
  induction hn : as.length using Nat.strong_induction_on generalizing as with
  | _ n ih =>
  cases as with
  | nil =>
    intro v hv
    refine ⟨[], v, rfl, ?_, le_rfl, fun _ => ⟨trivial, trivial, by simp⟩⟩
    simpa [rawText, Format.escape] using hv
  | cons a as =>
    have hrest : ∀ as', as'.length ≤ as.length → ReadsAtMost as' s := by
      intro as' hle
      exact ih as'.length (by rw [← hn, length_cons]; omega) as' rfl
    cases a with
    | char c h
    | single c h => exact (hrest as le_rfl).char (fun _ => trivial) (fun _ => trivial) trivial
    | hex a b h =>
      have hab : ∀ d ∈ [a, b], isHex d := by simpa using h
      refine ReadsAtMost.escape (r := ['x', a, b]) _ hrest rfl
        (fun d hd => mem_takeWhile_imp hd) takeWhile_append_dropWhile.symm ?_
      rw [takeWhile_append_dropWhile]
      intro v rest hesc
      change CFormat.hexEscape ([a, b] ++ _) = _ at hesc
      rw [CFormat.hexEscape, takeWhile_append_of_pos hab, dropWhile_append_of_pos hab] at hesc
      split_ifs at hesc
      refine ⟨(Prod.mk.inj (Option.some.inj hesc)).2.symm, fun hnil => ⟨trivial, ?_, trivial⟩⟩
      exact stops_rawText (fun _ => id) (stops_of_takeWhile_eq_nil hnil)
    | oct ds h =>
      obtain ⟨hsplit, hoct, hstop⟩ :=
        octDigits_spec (3 - ds.length) (Format.escape (rawText as) ++ dquote :: s)
      refine ReadsAtMost.escape (r := ds) _ hrest rfl (fun d hd => isHex_of_isOct (hoct d hd))
        hsplit ?_
      rw [← hsplit]
      intro v rest hesc
      have hdigits := octDigits_append_digits (s := Format.escape (rawText as) ++ dquote :: s) h.1
        (3 - ds.length)
      rw [Nat.add_sub_cancel' h.2.2] at hdigits
      have hescape : CFormat.octEscape (ds ++ (Format.escape (rawText as) ++ dquote :: s)) =
          some (v, rest) := by
        cases ds with
        | nil => simp at h
        | cons d ds => rwa [cons_append, escape_oct (h.1 d (by simp))] at hesc
      rw [CFormat.octEscape, hdigits, length_append, drop_append] at hescape
      split_ifs at hescape with hlt
      refine ⟨?_, fun hnil => ⟨fun hlt' => ?_, trivial, ?_⟩⟩
      · rw [← (Prod.mk.inj (Option.some.inj hescape)).2]
        simp
      · exact stops_rawText (fun _ => isHex_of_isOct) (hstop (by omega) hnil)
      · rw [hnil, append_nil] at hlt
        exact not_le.mp hlt
    | univ1 ds h =>
      refine ReadsAtMost.escape (r := 'u' :: ds) [] hrest rfl (by simp) rfl ?_
      intro v rest hesc
      change uniEscape 4 (ds ++ _) = _ at hesc
      rw [← h.2] at hesc
      exact ⟨(uniEscape_eq_some hesc).1, fun _ => ⟨trivial, trivial, (uniEscape_eq_some hesc).2⟩⟩
    | univ2 ds h =>
      refine ReadsAtMost.escape (r := 'U' :: ds) [] hrest rfl (by simp) rfl ?_
      intro v rest hesc
      change uniEscape 8 (ds ++ _) = _ at hesc
      rw [← h.2] at hesc
      exact ⟨(uniEscape_eq_some hesc).1, fun _ => ⟨trivial, trivial, (uniEscape_eq_some hesc).2⟩⟩

/-- The C literals of several texts. -/
theorem length_le_of_read {ass : List (List Atom)} {v : List CChar}
    (h : read false (catStrings (ass.map rawText)).flatten = some v) :
    v.length ≤ ass.flatten.length ∧ (v.length = ass.flatten.length → ∀ as ∈ ass, Separated as) := by
  induction ass generalizing v with
  | nil =>
    obtain rfl : [] = v := by simpa [catStrings] using h
    simp
  | cons as ass ih =>
    rw [map_cons, flatten_catStrings_cons, read_false_cons, if_pos rfl] at h
    obtain ⟨v1, v2, rfl, hv2, hle1, heq1⟩ := readsAtMost as _ v h
    obtain ⟨hle2, heq2⟩ := ih hv2
    rw [length_append, flatten_cons, length_append]
    refine ⟨by omega, fun heq => forall_mem_cons.mpr ⟨heq1 (by omega), heq2 (by omega)⟩⟩

lemma read_separated {ass : List (List Atom)} (h : ∀ as ∈ ass, Separated as) :
    read false (catStrings (ass.map rawText)).flatten = some (ass.flatten.map Atom.element) := by
  induction ass with
  | nil => simp [catStrings]
  | cons as ass ih =>
    obtain ⟨has, hass⟩ := forall_mem_cons.mp h
    rw [map_cons, flatten_catStrings_cons, read_false_cons, if_pos rfl,
      read_elements has.allowed has.lexed has.hexFree, ih hass]
    simp

end Read

/-! ## Literals -/

/-- A string literal without embedded expressions, as the parser reads it. -/
structure Literal where
  items : List Item
  /-- Larger numbers are an error. -/
  bytes : ∀ ds h, Atom.oct ds h ∈ Format.atoms items → CFormat.value 8 ds < 256

namespace Literal

def atoms (l : Literal) : List Atom := Format.atoms l.items

def text (l : Literal) : List Char := rawText l.atoms

/-- The strings that the parser makes of the literal alone. -/
def strings (l : Literal) : List (List Char) := hexSplitString l.text

end Literal

/-- The strings for one or more adjacent literals. -/
def concatStringLiterals : List (List (List Char)) → List (List Char)
  | [single] => single
  | multiple => [(multiple.map List.flatten).flatten]

/-- The C literals in the generated code. -/
def emitted (ls : List Literal) : List (List Char) :=
  catStrings (concatStringLiterals (ls.map Literal.strings))

/-- The elements that are meant. -/
def elements (ls : List Literal) : List CChar := (ls.flatMap Literal.atoms).map Atom.element

/-- A universal character name is one that C allows. -/
def Atom.NameAllowed : Atom → Prop
  | univ1 ds _ => (universal (CFormat.value 16 ds)).isSome
  | univ2 ds _ => (universal (CFormat.value 16 ds)).isSome
  | _ => True

/-- No escape sequence is put before a digit that it would take. A single literal is split after
hexadecimal escape sequences, if the parser finds out that it has any. -/
def Apart : List Literal → Prop
  | [l] => Lexed l.atoms ∧ (HexFree l.atoms ∨ hasActualHexEscapes l.text)
  | ls => Lexed (ls.flatMap Literal.atoms) ∧ HexFree (ls.flatMap Literal.atoms)

lemma Literal.allowed_iff (l : Literal) :
    (∀ a ∈ l.atoms, a.Allowed) ↔ ∀ a ∈ l.atoms, a.NameAllowed := by
  refine forall₂_congr fun a ha => ?_
  cases a with
  | oct ds h => exact iff_of_true (l.bytes ds h ha) trivial
  | _ => exact Iff.rfl

lemma allowed_iff (ls : List Literal) :
    (∀ a ∈ ls.flatMap Literal.atoms, a.Allowed) ↔ ∀ l ∈ ls, ∀ a ∈ l.atoms, a.NameAllowed := by
  simp only [mem_flatMap, forall_exists_index, and_imp]
  rw [forall_comm]
  refine forall_congr' fun l => ?_
  rw [forall_comm]
  exact forall_congr' fun _ => l.allowed_iff

lemma Literal.flatten_strings (l : Literal) : l.strings.flatten = l.text := by
  rw [strings]
  by_cases h : hasActualHexEscapes l.text
  · obtain ⟨ass, hsplit, hflat, -, -⟩ := exists_hexSplitString h
    rw [text, hsplit, ← hflat]
    clear hsplit hflat
    induction ass with
    | nil => rfl
    | cons as ass ih => rw [map_cons, flatten_cons, ih, flatten_cons, rawText_append]
  · rw [hexSplitString, if_neg h]
    split_ifs with hnil
    · simp [hnil]
    · simp

lemma flatten_map_strings (ls : List Literal) :
    ((ls.map Literal.strings).map List.flatten).flatten = rawText (ls.flatMap Literal.atoms) := by
  induction ls with
  | nil => rfl
  | cons l ls ih =>
    rw [map_cons, map_cons, flatten_cons, ih, l.flatten_strings, flatMap_cons,
      rawText_append, Literal.text]

/-- The texts that are emitted as C literals of their own. -/
theorem exists_emitted (ls : List Literal) : ∃ ass : List (List Atom),
    emitted ls = catStrings (ass.map rawText) ∧ ass.flatten = ls.flatMap Literal.atoms ∧
      ((∀ as ∈ ass, Lexed as ∧ HexFree as) ↔ Apart ls) := by
  match ls with
  | [l] =>
    by_cases h : HexFree l.atoms ∨ hasActualHexEscapes l.text
    · obtain ⟨ass, hsplit, hflat, hfree, hlex⟩ := exists_split h
      refine ⟨ass, congrArg catStrings hsplit, by simpa using hflat, ?_⟩
      constructor
      · exact fun hall => ⟨hlex fun as has => (hall as has).1, h⟩
      · rintro ⟨hlexed, -⟩ as has
        exact ⟨lexed_of_mem_flatten (hflat ▸ hlexed) as has, hfree as has⟩
    · have hsplit : hexSplitString l.text = [l.text] := by
        rw [hexSplitString, if_neg fun hhas => h (.inr hhas)]
        split_ifs with hnil
        · rw [hnil]
        · rfl
      refine ⟨[l.atoms], congrArg catStrings hsplit, by simp, iff_of_false ?_ fun h' => h h'.2⟩
      intro hall
      exact h (.inl (hall l.atoms (by simp)).2)
  | [] => exact ⟨[[]], rfl, rfl, by simp [Apart]⟩
  | l :: l' :: ls =>
    refine ⟨[(l :: l' :: ls).flatMap Literal.atoms], ?_, by simp, by simp [Apart]⟩
    rw [map_singleton, ← flatten_map_strings]
    rfl

/-- The C literals denote the elements that are meant, exactly if no escape sequence is put before
a digit that it would take, and C allows all universal character names. -/
theorem denotes_iff (ls : List Literal) : read false (emitted ls).flatten = some (elements ls) ↔
      Apart ls ∧ ∀ l ∈ ls, ∀ a ∈ l.atoms, a.NameAllowed := by
  obtain ⟨ass, hemit, hflat, hapart⟩ := exists_emitted ls
  rw [hemit, elements, ← hflat, ← hapart, ← allowed_iff, ← hflat]
  constructor
  · intro hread
    have hsep : ∀ as ∈ ass, Separated as := (length_le_of_read hread).2 (length_map _)
    refine ⟨fun as has => ⟨(hsep as has).lexed, (hsep as has).hexFree⟩, fun a ha => ?_⟩
    obtain ⟨as, has, ha⟩ := mem_flatten.mp ha
    exact (hsep as has).allowed a ha
  · rintro ⟨hall, hallow⟩
    refine read_separated fun as has => ⟨(hall as has).1, (hall as has).2, fun a ha => ?_⟩
    exact hallow a (mem_flatten.mpr ⟨as, has, ha⟩)

/-- The literals `"\x01"` and `"a"`. -/
def hexThenDigit : List Literal :=
  [⟨[.atom (.hex '0' '1' (by decide))], by simp [atoms, Item.atom?]⟩,
    ⟨[.atom (.char 'a' (by decide))], by simp [atoms, Item.atom?]⟩]

/-- Together they are emitted as `"\x01a"`, which is the one character U+001A. -/
theorem denotes_hexThenDigit :
    (emitted hexThenDigit).flatten = dquote :: backslash :: ['x', '0', '1', 'a', dquote] ∧
      elements hexThenDigit = [.char (Char.ofNat 1), .char 'a'] ∧
      read false (emitted hexThenDigit).flatten = some [.char (Char.ofNat 26)] := by
  have hemit : (emitted hexThenDigit).flatten =
      dquote :: backslash :: ['x', '0', '1', 'a', dquote] := by
    change (catStrings [((hexThenDigit.map Literal.strings).map List.flatten).flatten]).flatten = _
    rw [flatten_map_strings]
    decide
  have hescape : CFormat.escape ['x', '0', '1', 'a', dquote] =
      some (.char (Char.ofNat 26), [dquote]) := by decide
  refine ⟨hemit, by decide, ?_⟩
  rw [hemit, read_false_cons, if_pos rfl, CFormat.read_backslash, hescape]
  simp

end Acton.Format
