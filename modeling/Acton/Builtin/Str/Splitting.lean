import Acton.Builtin.Str.Searching
import Mathlib.Data.List.DropRight

/-!
# Stripping and splitting strings

The other operations on the strings of texts: construction, `+` and `join`, the strips and `split`.
A strip from the right that removes every character leaves the first one in the buffer
(`rstrip_of_forall_mem`).
-/

namespace Acton.Builtin
open Utf8 List

/-! ### Construction -/

/-- A byte of the encoding is zero only in the character zero. -/
theorem ne_zero_of_mem_encodeChar {c : Char} (hc : c ≠ '\x00') {x : UInt8}
    (hx : x ∈ String.utf8EncodeChar c) : x ≠ 0 := by
  obtain ⟨b, t, h, ht, -⟩ := exists_lead c
  have hlead := lead_ne_zero hc
  rw [lead, h, headD_cons] at hlead
  rw [h] at hx
  rcases mem_cons.mp hx with rfl | hx
  · exact hlead
  · rintro rfl
    exact absurd (ht 0 hx) (by simp [isCont_iff])

/-- A C string ends at its first character zero. -/
theorem takeWhile_encode (cs : List Char) :
    (encode cs).takeWhile (fun b => b ≠ 0) = encode (cs.takeWhile fun c => c ≠ '\x00') := by
  induction cs with
  | nil => rfl
  | cons c cs ih =>
    by_cases hc : c = '\x00'
    · subst hc
      rfl
    · have hbytes : ∀ x ∈ String.utf8EncodeChar c, (fun b : UInt8 => decide (b ≠ 0)) x = true :=
        fun x hx => decide_eq_true (ne_zero_of_mem_encodeChar hc hx)
      rw [encode_cons, takeWhile_append_of_pos hbytes, ih, takeWhile_cons,
        if_pos (decide_eq_true hc), encode_cons]

lemma pos_eq_length_of_ascii {cs : List Char} (h : ∀ b ∈ encode cs, b < 0x80) :
    pos cs = cs.length := by
  induction cs with
  | nil => rfl
  | cons c cs ih =>
    have hrest := ih fun b hb => h b (by simp [hb])
    obtain ⟨b, t, hc, -, hrange⟩ := exists_lead c
    have hb := UInt8.lt_iff_toNat_lt.mp (h b (by simp [hc]))
    simp only [UInt8.reduceToNat] at hb
    have hone : pos [c] = 1 := by
      rw [pos_singleton, hc, length_cons]
      omega
    rw [← singleton_append, pos_append, hone, hrest]
    simp [add_comm]

/-- A decoder for UTF-8 by which `utf8proc` can be replaced, and the space. -/
def exampleLib : Utf8proc where
  iterate p := (p.toByteArray.utf8DecodeChar? 0).map fun c => ((c.utf8Size : ℤ), c)
  isspace c := c = ' '

lemma decodes_exampleLib : exampleLib.Decodes where
  encode c z := by
    simp only [exampleLib]
    rw [toByteArray_append, ByteArray.utf8DecodeChar?_utf8EncodeChar_append]
    rfl
  invalid p h := by simp [exampleLib, h]

section Decodes
variable {lib : Utf8proc} (hlib : lib.Decodes)
include hlib

lemma iterate_encodeChar (c : Char) (z : List UInt8) :
    lib.iterate (String.utf8EncodeChar c ++ z) = some (pos [c], c) := by
  rw [hlib.encode, pos_singleton, String.length_utf8EncodeChar]

/-- The loop counts the characters of the rest `b`. -/
theorem toStrLoop_encode {cs a b : List Char} {fuel : ℕ} (h : cs = a ++ b)
    (hfuel : b.length ≤ fuel) :
    toStrLoop lib (encode cs) fuel (encode b) a.length (pos a) = .ok (ofChars cs) := by
  induction b generalizing a fuel with
  | nil =>
    rw [encode_nil, toStrLoop]
    rw [append_nil] at h
    subst h
    exact newStr_eq rfl rfl (bytesAt_encode_self cs)
  | cons c b ih =>
    obtain ⟨fuel, rfl⟩ : ∃ n, fuel = n + 1 := Nat.exists_eq_add_of_le' (by simp at hfuel; omega)
    obtain ⟨x, t, hc, -⟩ := exists_lead c
    have hiter := iterate_encodeChar hlib c (encode b)
    have hnext := @ih (a ++ [c]) fuel (by simp [h]) (by simpa using hfuel)
    have hdrop : (x :: (t ++ encode b)).drop (pos [c]).toNat = encode b := by
      rw [pos_singleton, Int.toNat_natCast, hc, ← cons_append, drop_left]
    rw [hc, cons_append] at hiter
    rw [encode_cons, hc, cons_append, toStrLoop, hiter]
    simp only [hdrop, ← pos_append]
    simpa using hnext

/-- Valid UTF-8 is the string of its text up to the first zero. -/
theorem toStr_encode (cs : List Char) :
    toStr lib (encode cs) = .ok (ofChars (cs.takeWhile fun c => c ≠ '\x00')) := by
  rw [toStr, takeWhile_encode]
  generalize cs.takeWhile (fun c => c ≠ '\x00') = ds
  split
  · rename_i hascii
    have hlen := @pos_eq_length_of_ascii ds (by simpa using hascii)
    exact newStr_eq hlen rfl rfl
  · refine toStrLoop_encode hlib (a := []) rfl ?_
    exact Nat.le_of_lt_succ (length_lt_length_encode ds)

end Decodes

lemma add_ofChars (cs ds : List Char) :
    add (ofChars cs) (ofChars ds) = .ok (ofChars (cs ++ ds)) := by
  refine newStr_eq ?_ ?_ ?_
  · simp
  · simp [pos_append]
  · simp [bytesAt_encode_self]

/-- The text that `join` makes. -/
def joined (ss : List Char) : List (List Char) → List Char
  | [] => []
  | nxt :: rest => nxt ++ rest.flatMap fun nxt => ss ++ nxt

/-- Both lengths of the joined strings add up. -/
theorem sum_map_add_mul {m : List Char → ℤ} (hnil : m [] = 0)
    (happ : ∀ a b, m (a ++ b) = m a + m b) (ss : List Char) (ws : List (List Char)) :
    (ws.map m).sum + ws.length * m ss = m (ws.flatMap fun w => ss ++ w) := by
  induction ws with
  | nil => simp [hnil]
  | cons w ws ih =>
    rw [flatMap_cons, happ, happ, ← ih, map_cons, sum_cons, length_cons]
    push_cast
    ring

lemma join_ofChars (ss : List Char) (ws : List (List Char)) :
    join (ofChars ss) (ws.map ofChars) = .ok (ofChars (joined ss ws)) := by
  cases ws with
  | nil => exact newStr_eq (by simp [joined]) (by simp [joined]) rfl
  | cons w ws =>
    have hseps : (if 1 < ((w :: ws).map ofChars).length then
        (((w :: ws).map ofChars).length : ℤ) - 1 else 0) = ws.length := by
      simp only [length_map, length_cons]
      split <;> omega
    have hchars := sum_map_add_mul (m := fun w => (w.length : ℤ)) rfl (by simp) ss ws
    have hbytes := sum_map_add_mul pos_nil pos_append ss ws
    rw [join.eq_def]
    simp only [hseps]
    refine newStr_eq ?_ ?_ ?_
    · rw [joined, length_append, Nat.cast_add, ← hchars]
      simp [Function.comp_def, add_assoc]
    · rw [joined, pos_append, ← hbytes]
      simp [Function.comp_def, add_assoc]
    · simp only [map_cons, flatMap_map, str_ofChars, nbytes_ofChars, bytesAt_encode_self,
        joined, encode_append]
      simp only [encode, flatMap_assoc, flatMap_append]

lemma mem_of_mem_joined {ss : List Char} {ws : List (List Char)} {c : Char}
    (h : c ∈ joined ss ws) : c ∈ ss ∨ ∃ w ∈ ws, c ∈ w := by
  cases ws with
  | nil => simp [joined] at h
  | cons w ws =>
    simp only [joined, mem_append, mem_flatMap] at h
    obtain h | ⟨v, hv, h | h⟩ := h
    · exact .inr ⟨w, by simp, h⟩
    · exact .inl h
    · exact .inr ⟨v, by simp [hv], h⟩

/-! ### Stripping -/

section Strip
variable {cs ds : List Char}

/-- The bytes of a character at the place of another one. -/
theorem bytesAt_eq_encodeChar_iff (a : List Char) (c : Char) (d : List Char) (x : Char) :
    bytesAt (encode (a ++ c :: d)) (pos a) (pos [x]) = encode [x] ↔ c = x := by
  constructor
  · intro h
    rw [pos_singleton, pos, bytesAt_natCast, encode_append, drop_left, encode_cons,
      encode_cons, encode_nil, append_nil] at h
    have := take_append_drop (String.utf8EncodeChar x).length
      (String.utf8EncodeChar c ++ encode d ++ List.replicate (String.utf8EncodeChar x).length 0)
    rw [h, append_assoc] at this
    exact (encodeChar_append_inj this).1.symm
  · rintro rfl
    simpa using bytesAt_encode a [c] d

lemma containsChar_iff (a : List Char) (c : Char) (d e1 : List Char) {e2 : List Char}
    (he : ∀ x ∈ e2, ¬ Misread x) :
    containsChar (encode (a ++ c :: d)) (pos a) (encode (e1 ++ e2)) e2.length (pos e1) = true ↔
      c ∈ e2 := by
  induction e2 generalizing e1 with
  | nil => simp [containsChar]
  | cons x e2 ih =>
    have hx := byteLength2_pos (a := e1) (d := e2) (he x (by simp))
    have hbytes : bytesAt (encode (e1 ++ x :: e2)) (pos e1) (pos [x]) = encode [x] :=
      (bytesAt_eq_encodeChar_iff e1 x e2 x).mpr rfl
    have hrest := ih (e1 ++ [x]) fun y hy => he y (by simp [hy])
    rw [append_assoc, singleton_append, pos_append] at hrest
    rw [length_cons, containsChar, hx, mem_cons]
    split
    · rename_i heq
      rw [equalBytes, decide_eq_true_iff, hbytes, bytesAt_eq_encodeChar_iff] at heq
      simp [heq]
    · rename_i hne
      rw [equalBytes, decide_eq_true_iff, hbytes, bytesAt_eq_encodeChar_iff] at hne
      rw [hrest]
      simp [hne]

lemma lstripLoop_pos (hcs : ∀ c ∈ cs, ¬ Misread c) (hds : ∀ c ∈ ds, ¬ Misread c) {a b : List Char}
    (h : cs = a ++ b) :
    lstripLoop (ofChars cs) (ofChars ds) b.length a.length (pos a) =
      (((a ++ b.takeWhile (· ∈ ds)).length : ℤ), pos (a ++ b.takeWhile (· ∈ ds))) := by
  induction b generalizing a with
  | nil => simp [lstripLoop]
  | cons c b ih =>
    have hc := containsChar_iff a c b [] hds
    rw [nil_append, pos_nil, ← h] at hc
    have hlen := byteLength2_pos (a := a) (d := b) (hcs c (by simp [h]))
    rw [← h] at hlen
    have hnext := ih (a := a ++ [c]) (by simp [h])
    rw [length_cons, lstripLoop, takeWhile_cons]
    simp only [str_ofChars, nchars_ofChars, Int.toNat_natCast, hlen, hc]
    split
    · rename_i hmem
      rw [← pos_append]
      simpa [hmem] using hnext
    · rename_i hmem
      simp [hmem]

lemma lstrip_ofChars (hcs : ∀ c ∈ cs, ¬ Misread c) (hds : ∀ c ∈ ds, ¬ Misread c)
    {o : Option Str} (ho : o.getD whitespaceStr = ofChars ds) :
    lstrip (ofChars cs) o = .ok (ofChars (cs.dropWhile (· ∈ ds))) := by
  rw [lstrip]
  split
  · rename_i hzero
    have hnil : cs = [] := by simpa using hzero
    subst hnil
    rfl
  · have hloop := lstripLoop_pos (a := []) hcs hds rfl
    have hsplit := takeWhile_append_dropWhile (p := (· ∈ ds)) (l := cs)
    rw [nil_append, pos_nil, length_nil, Nat.cast_zero] at hloop
    rw [ho, nchars_ofChars, Int.toNat_natCast, hloop]
    generalize cs.takeWhile (· ∈ ds) = a at *
    generalize cs.dropWhile (· ∈ ds) = b at *
    subst hsplit
    refine newStr_eq ?_ ?_ ?_
    · simp
    · rw [nbytes_ofChars, pos_append]
      omega
    · rw [nbytes_ofChars, pos_append, add_sub_cancel_left]
      simpa using bytesAt_encode a b []

lemma skipChars_neg_one (a : List Char) (c : Char) (d : List Char) :
    skipChars (encode (a ++ c :: d)) (pos (a ++ [c])) (-1) false = pos a := by
  have := skipBack_pos (a := a) (b := [c]) (d := d)
  rw [append_assoc, singleton_append, length_singleton] at this
  simpa [skipChars] using this

lemma skipChars_one {a : List Char} {c : Char} {d : List Char} (hc : ¬ Misread c) :
    skipChars (encode (a ++ c :: d)) (pos a) 1 false = pos (a ++ [c]) := by
  have := skipForward_pos (a := a) (b := [c]) (d := d) (by simpa using hc)
  rw [append_assoc, singleton_append, length_singleton] at this
  simpa [skipChars] using this

/-- The loop stops at the last character that is not stripped, if there is one. -/
theorem rstripLoop_pos (hds : ∀ c ∈ ds, ¬ Misread c) {a b : List Char} (h : cs = a ++ b) :
    (∀ c ∈ a, c ∈ ds) ∧
        rstripLoop (ofChars cs) (ofChars ds) a.length b.length (pos a) = ((cs.length : ℤ), 0) ∨
      ∃ x c y, a = x ++ c :: y ∧ c ∉ ds ∧ (∀ d ∈ y, d ∈ ds) ∧
        rstripLoop (ofChars cs) (ofChars ds) a.length b.length (pos a) =
          (((y ++ b).length : ℤ), pos x) := by
  induction a using List.reverseRecOn generalizing b with
  | nil => exact .inl ⟨by simp, by simp [rstripLoop, h]⟩
  | append_singleton a c ih =>
    have hcs : cs = a ++ c :: b := by simp [h]
    have hc := containsChar_iff a c b [] hds
    rw [nil_append, pos_nil] at hc
    have hstep : rstripLoop (ofChars cs) (ofChars ds) (a ++ [c]).length b.length (pos (a ++ [c])) =
        if c ∈ ds then rstripLoop (ofChars cs) (ofChars ds) a.length (c :: b).length (pos a)
        else ((b.length : ℤ), pos a) := by
      rw [length_append, length_singleton, rstripLoop, hcs]
      simp only [str_ofChars, nchars_ofChars, Int.toNat_natCast, skipChars_neg_one, hc]
      simp
    rw [hstep]
    by_cases hmem : c ∈ ds
    · rw [if_pos hmem]
      obtain ⟨hall, hres⟩ | ⟨x, c', y, rfl, hc', hy, hres⟩ := ih hcs
      · exact .inl ⟨by simpa [hmem, or_imp, forall_and] using hall, hres⟩
      · exact .inr ⟨x, c', y ++ [c], by simp, hc', by simpa [hmem, or_imp, forall_and] using hy,
          by simpa using hres⟩
    · rw [if_neg hmem]
      exact .inr ⟨a, c, [], rfl, hmem, by simp, rfl⟩

variable {o : Option Str}

/-- A right strip that removes everything keeps the bytes of the first character. -/
theorem rstrip_of_forall_mem {c : Char} (hc : ¬ Misread c) (hds : ∀ c ∈ ds, ¬ Misread c)
    (ho : o.getD whitespaceStr = ofChars ds) (hall : ∀ x ∈ c :: cs, x ∈ ds) :
    rstrip (ofChars (c :: cs)) o = .ok ⟨0, pos [c], encode [c]⟩ := by
  have hloop : rstripLoop (ofChars (c :: cs)) (ofChars ds) (c :: cs).length 0 (pos (c :: cs)) =
      (((c :: cs).length : ℤ), 0) := by
    obtain ⟨-, hres⟩ | ⟨x, c', y, heq, hc', -, -⟩ :=
      rstripLoop_pos (b := []) hds (append_nil (c :: cs)).symm
    · exact hres
    · exact absurd (hall c' (by simp [heq])) hc'
  have hskip := skipChars_one (a := []) (d := cs) hc
  have hbytes := bytesAt_encode [] [c] cs
  rw [nil_append, pos_nil] at hskip
  rw [nil_append, singleton_append, pos_nil] at hbytes
  have hlen : (ofChars (c :: cs)).nchars ≠ 0 := by
    rw [nchars_ofChars, length_cons]
    omega
  rw [rstrip, if_neg hlen, ho, nchars_ofChars, nbytes_ofChars, Int.toNat_natCast, hloop]
  simp only [str_ofChars, hskip, nil_append, hbytes, sub_self]
  rw [newStr, if_pos ⟨pos_nonneg _, rfl⟩]

/-- A right strip that leaves something is the text up to there. -/
theorem rstrip_of_exists (hcs : ∀ c ∈ cs, ¬ Misread c) (hds : ∀ c ∈ ds, ¬ Misread c)
    (ho : o.getD whitespaceStr = ofChars ds) (hex : cs = [] ∨ ∃ c ∈ cs, c ∉ ds) :
    rstrip (ofChars cs) o = .ok (ofChars (cs.rdropWhile (· ∈ ds))) := by
  obtain rfl | ⟨e, he, hne⟩ := hex
  · rfl
  obtain ⟨hall, -⟩ | ⟨x, c, y, heq, hc, hy, hres⟩ :=
    rstripLoop_pos (b := []) hds (append_nil cs).symm
  · exact absurd (hall e he) hne
  have hdrop : cs.rdropWhile (· ∈ ds) = x ++ [c] := by
    rw [rdropWhile, heq, reverse_append, reverse_cons, append_assoc,
      dropWhile_append_of_pos (by simpa using hy)]
    simp [hc]
  have hskip := skipChars_one (a := x) (d := y) (hcs c (by simp [heq]))
  have hbytes := bytesAt_encode [] (x ++ [c]) y
  rw [hdrop, rstrip, if_neg (by simp [ne_nil_of_mem he]), ho, nchars_ofChars, nbytes_ofChars,
    Int.toNat_natCast]
  rw [length_nil, Nat.cast_zero, append_nil] at hres
  rw [hres]
  simp only [str_ofChars]
  rw [heq, hskip]
  refine newStr_eq ?_ rfl ?_
  · simp
    omega
  · simpa using hbytes

end Strip

/-! ### Splitting -/

section Split
variable {cs ds : List Char}

lemma drop_pos (a b : List Char) : (encode (a ++ b)).drop (pos a).toNat = encode b := by
  simp [pos]

lemma newStr_word (a w b : List Char) : newStr w.length (pos (a ++ w) - pos a)
        (bytesAt (encode (a ++ w ++ b)) (pos a) (pos (a ++ w) - pos a)) = .ok (ofChars w) := by
  have hlen : pos (a ++ w) - pos a = pos w := by rw [pos_append]; omega
  rw [hlen]
  exact newStr_eq rfl rfl (bytesAt_encode a w b)

/-- Every string of `res` is a text with characters of `cs`. -/
def TextsOf (cs : List Char) (res : List Str) : Prop :=
  ∀ r ∈ res, ∃ w, r = ofChars w ∧ ∀ c ∈ w, c ∈ cs

lemma TextsOf.concat {res : List Str} (h : TextsOf cs res) {w : List Char}
    (hw : ∀ c ∈ w, c ∈ cs) : TextsOf cs (res ++ [ofChars w]) := by
  intro r hr
  rcases mem_append.mp hr with hr | hr
  · exact h r hr
  · exact ⟨w, mem_singleton.mp hr, hw⟩

/-- The words that the loop cuts out. The text is `a ++ w ++ b` with the current word `w` and the
rest `b`. -/
theorem splitSpaceLoop_pos {lib : Utf8proc} (hlib : lib.Decodes) (maxsplit : ℤ)
    {a w b : List Char} {q : Option ℤ}
    {wordlength : ℤ} {res : List Str} (h : cs = a ++ w ++ b) (hres : TextsOf cs res)
    (hq : q = none ∧ w = [] ∨ q = some (pos a) ∧ wordlength = w.length) :
    ∃ res', splitSpaceLoop lib (ofChars cs) maxsplit b.length (pos (a ++ w)) q wordlength res =
      .ok res' ∧ TextsOf cs res' := by
  have hw : ∀ c ∈ w, c ∈ cs := by simp +contextual [h]
  induction b generalizing a w q wordlength res with
  | nil =>
    obtain ⟨rfl, -⟩ | ⟨rfl, rfl⟩ := hq
    · exact ⟨res, rfl, hres⟩
    · refine ⟨res ++ [ofChars w], ?_, hres.concat hw⟩
      rw [length_nil, splitSpaceLoop, str_ofChars, h, newStr_word]
      rfl
  | cons c b ih =>
    have hcs : cs = a ++ (w ++ [c]) ++ b := by simp [h]
    have hchar : lib.iterate ((encode cs).drop (pos (a ++ w)).toNat) = some (pos [c], c) := by
      rw [h, drop_pos, encode_cons, iterate_encodeChar hlib]
    have hnext : pos (a ++ w) + pos [c] = pos (a ++ (w ++ [c])) := by
      simp only [pos_append]
      omega
    rw [length_cons, splitSpaceLoop, str_ofChars, hchar]
    simp only
    obtain ⟨rfl, rfl⟩ | ⟨rfl, rfl⟩ := hq
    · rw [append_nil] at h hnext ⊢
      cases lib.isspace c with
      | true =>
        simp only
        rw [hnext, nil_append, ← append_nil (a ++ [c])]
        exact ih (by simp [h]) hres (.inl ⟨rfl, rfl⟩) (by simp)
      | false =>
        simp only
        split
        · -- the last word is the rest of the text
          refine ⟨res ++ [ofChars (c :: b)], ?_, hres.concat (by simp +contextual [h])⟩
          have hword := newStr_word a (c :: b) []
          rw [append_nil, ← h, length_cons, Nat.cast_add, Nat.cast_one] at hword
          rw [nbytes_ofChars, hword]
          rfl
        · rw [hnext, nil_append]
          exact ih (by simp [h]) hres (.inr ⟨rfl, rfl⟩) (by simp [h])
    · cases lib.isspace c with
      | true =>
        simp only
        rw [show bytesAt (encode cs) = bytesAt (encode (a ++ w ++ c :: b)) by rw [h], newStr_word]
        rw [hnext, ← append_nil (a ++ (w ++ [c]))]
        exact ih (by simp [h]) (hres.concat hw) (.inl ⟨rfl, rfl⟩) (by simp)
      | false =>
        simp only
        rw [hnext]
        refine ih hcs hres (.inr ⟨rfl, by simp⟩) fun x hx => ?_
        rw [hcs]
        exact mem_append_left _ (mem_append_right _ hx)

/-- The pieces between the separators. A round takes at least the separator away. -/
theorem splitSepLoop_ofChars (hds : ds ≠ []) (maxsplit : ℤ) {fuel : ℕ} {rs : List Char}
    {ssep : Option Str} {res : List Str} (hcs : ∀ c ∈ cs, ¬ Misread c) (hrs : ∀ c ∈ rs, c ∈ cs)
    (hres : TextsOf cs res) (hfuel : rs.length ≤ fuel)
    (hssep : ssep = none → rs ≠ [] ∧ (res.length : ℤ) < maxsplit) :
    ∃ res', splitSepLoop (ofChars ds) maxsplit fuel (ofChars rs) ssep res = .ok res' ∧
      TextsOf cs res' := by
  induction fuel generalizing rs ssep res with
  | zero =>
    obtain rfl : rs = [] := by simpa using hfuel
    obtain ⟨t, rfl⟩ : ∃ t, ssep = some t := by
      cases ssep with
      | none => exact absurd rfl (hssep rfl).1
      | some t => exact ⟨t, rfl⟩
    unfold splitSepLoop
    simp only [nchars_ofChars, length_nil, Nat.cast_zero, lt_self_iff_false, false_and, if_false]
    split
    · exact ⟨_, rfl, hres.concat (by simp)⟩
    · exact ⟨_, rfl, hres⟩
  | succ fuel ih =>
    unfold splitSepLoop
    split
    · -- one more round
      obtain ⟨hpart, -⟩ | ⟨x, y, rfl, hpart, -⟩ :=
        partition_ofChars (fun c hc => hcs c (hrs c hc)) ds
      · rw [hpart]
        exact @ih [] _ _ (by simp) (hres.concat hrs) (by simp) (by simp)
      · rw [hpart]
        have hlen : 0 < ds.length := length_pos_iff.mpr hds
        refine ih (fun c hc => hrs c (by simp [hc]))
          (hres.concat fun c hc => hrs c (by simp [hc])) ?_ (by simp)
        simp only [length_append] at hfuel
        omega
    · rename_i hstop
      cases ssep with
      | none =>
        obtain ⟨hne, hlt⟩ := hssep rfl
        have hpos : 0 < rs.length := length_pos_iff.mpr hne
        exact absurd ⟨by simpa using hpos, hlt⟩ hstop
      | some t =>
        simp only
        split
        · exact ⟨_, rfl, hres.concat hrs⟩
        · exact ⟨_, rfl, hres⟩

section Character
variable {c : Char}

lemma splitOn_of_notMem {rs : List Char} (h : c ∉ rs) : rs.splitOn c = [rs] := by
  have : ([c].intercalate [rs]).splitOn c = [rs] :=
    splitOn_intercalate c (by simpa using h) (by simp)
  simpa using this

/-- The loop of `split` at a single character. -/
theorem splitSepLoop_character (hcs : ∀ x ∈ cs, ¬ Misread x) {maxsplit : ℤ} {fuel : ℕ}
    {rs : List Char} {ssep : Option Str} {res : List Str} (hrs : ∀ x ∈ rs, x ∈ cs)
    (hfuel : rs.length ≤ fuel) (hssep : ssep = some (ofChars [c]) ∨ ssep = none ∧ rs ≠ [])
    (hmax : (res.length : ℤ) + (rs.splitOn c).length ≤ maxsplit) :
    splitSepLoop (ofChars [c]) maxsplit fuel (ofChars rs) ssep res =
      .ok (res ++ (rs.splitOn c).map ofChars) := by
  induction fuel generalizing rs ssep res with
  | zero =>
    obtain rfl : rs = [] := by simpa using hfuel
    obtain rfl : ssep = some (ofChars [c]) := by simpa using hssep
    unfold splitSepLoop
    simp
    rfl
  | succ fuel ih =>
    by_cases hnil : rs = []
    · subst hnil
      obtain rfl : ssep = some (ofChars [c]) := by simpa using hssep
      unfold splitSepLoop
      simp
      rfl
    have hpos : 0 < rs.length := length_pos_iff.mpr hnil
    have hparts : 0 < (rs.splitOn c).length := length_pos_iff.mpr (splitOn_ne_nil c rs)
    unfold splitSepLoop
    rw [if_pos ⟨by simpa using hpos, by omega⟩]
    obtain ⟨hpart, hnone⟩ | ⟨x, y, rfl, hpart, hfirst⟩ :=
      partition_ofChars (fun x hx => hcs x (hrs x hx)) [c]
    · -- the separator does not occur
      have hnot : c ∉ rs := fun hmem => by
        obtain ⟨x, y, rfl⟩ := append_of_mem hmem
        exact hnone ⟨x, y, by simp⟩
      rw [hpart, splitOn_of_notMem hnot]
      show splitSepLoop (ofChars [c]) maxsplit fuel nullStr (some nullStr) (res ++ [ofChars rs]) = _
      unfold splitSepLoop
      simp [nullStr]
      rfl
    · have hnot : c ∉ x := by
        intro hmem
        obtain ⟨x', y', rfl⟩ := append_of_mem hmem
        have hle := hfirst x' (y' ++ [c] ++ y) (by simp)
        have hx : pos (x' ++ c :: y') = pos x' + pos [c] + pos y' := by
          rw [← pos_append, ← pos_append, append_assoc, singleton_append]
        have := one_le_pos_singleton c
        have := pos_nonneg y'
        omega
      have hsplit : (x ++ [c] ++ y).splitOn c = x :: y.splitOn c := by
        rw [append_assoc, singleton_append, splitOn_append_cons_self, splitOn_of_notMem hnot]
        rfl
      rw [hpart, hsplit]
      rw [hsplit] at hmax
      show splitSepLoop (ofChars [c]) maxsplit fuel (ofChars y) (some (ofChars [c]))
        (res ++ [ofChars x]) = _
      rw [ih (fun z hz => hrs z (by simp [hz])) (by simp at hfuel; omega) (.inl rfl)
        (by simp at hmax ⊢; omega)]
      simp

/-- `split` at a single character gives the parts between its occurrences. -/
theorem split_character (lib : Utf8proc) (hcs : ∀ x ∈ cs, ¬ Misread x) (hne : cs ≠ [])
    (hmax : ((cs.splitOn c).length : ℤ) ≤ intMax) :
    split lib (ofChars cs) (some (ofChars [c])) none = .ok ((cs.splitOn c).map ofChars) := by
  rw [split.eq_def]
  have hlen : cs.length ≠ 0 := by simpa using hne
  simp only [nchars_ofChars, length_singleton, Nat.cast_one, one_ne_zero, if_false,
    Nat.cast_eq_zero, hlen]
  exact splitSepLoop_character hcs (fun x hx => hx) (by simp) (.inr ⟨rfl, hne⟩)
    (by simpa using hmax)

end Character

/-- `split(sep, 0)` returns before the separator was looked for. -/
def SplitSafe (s : Str) (sep : Option Str) (maxsplit : Option ℤ) : Prop :=
  ∀ t, sep = some t → t.nchars ≠ 0 → s.nchars ≠ 0 → maxsplit ≠ some 0

lemma split_of_safe {lib : Utf8proc} (hlib : lib.Decodes) (hcs : ∀ c ∈ cs, ¬ Misread c) 
    {sep : Option Str} (hsep : ∀ t, sep = some t → ∃ ds, t = ofChars ds) {maxsplit : Option ℤ}
    (hsafe : SplitSafe (ofChars cs) sep maxsplit) :
    (∃ m, split lib (ofChars cs) sep maxsplit = .error (.valueError m)) ∨
      ∃ res, split lib (ofChars cs) sep maxsplit = .ok res ∧ TextsOf cs res := by
  have hnil : TextsOf cs [] := by simp [TextsOf]
  rw [split.eq_def]
  cases sep with
  | none =>
    exact .inr (@splitSpaceLoop_pos cs lib hlib _ [] [] cs none 0 [] rfl hnil (.inl ⟨rfl, rfl⟩))
  | some t =>
    obtain ⟨ds, rfl⟩ := hsep t rfl
    simp only
    split
    · exact .inl ⟨_, rfl⟩
    rename_i hds
    split
    · exact .inr ⟨[nullStr], rfl, hnil.concat (w := []) (by simp)⟩
    rename_i hne
    refine .inr (splitSepLoop_ofChars (by simpa using hds) _ hcs (fun c hc => hc) hnil (by simp)
      fun _ => ⟨by simpa using hne, ?_⟩)
    have hmax := hsafe _ rfl hds hne
    cases maxsplit with
    | none => decide
    | some n =>
      simp only [length_nil, Nat.cast_zero]
      split
      · decide
      · have : n ≠ 0 := fun h => hmax (by rw [h])
        omega

lemma split_of_not_safe (lib : Utf8proc) {sep : Option Str} {maxsplit : Option ℤ} {s : Str}
    (h : ¬ SplitSafe s sep maxsplit) : split lib s sep maxsplit = .error .undefined := by
  simp only [SplitSafe, not_forall, not_not] at h
  obtain ⟨t, rfl, ht, hs, rfl⟩ := h
  rw [split.eq_def]
  simp only [ht, hs, if_false, lt_self_iff_false]
  unfold splitSepLoop
  simp

end Split
end Acton.Builtin
