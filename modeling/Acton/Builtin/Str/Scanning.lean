import Acton.Builtin.Str
import Mathlib.Data.List.GetD

/-!
# Scanning strings

The scanners of `builtin/str.c` on the buffer of a text. Those that go by the first byte of a
character are right for texts without the characters whose length `byte_length2` gets wrong
(`Misread`): indexing, iteration and slices then find the characters of the text.
-/

namespace Acton.Builtin
open Utf8 List Int

/-- The string of a text. -/
def ofChars (cs : List Char) : Str := ⟨cs.length, (encode cs).length, encode cs⟩

/-- The characters whose length `byte_length2` gets wrong: they start with the byte `0x7f`, `0xdf`
or `0xef`, which the comparisons count with the next length. -/
def Misread (c : Char) : Prop :=
  c.toNat = 0x7f ∨ (0x7c0 ≤ c.toNat ∧ c.toNat ≤ 0x7ff) ∨ (0xf000 ≤ c.toNat ∧ c.toNat ≤ 0xffff)

instance (c : Char) : Decidable (Misread c) := inferInstanceAs (Decidable (_ ∨ _))

/-- A text that the scanners read as it is. A zero ends a C string. -/
def Readable (cs : List Char) : Prop := ∀ c ∈ cs, c ≠ '\x00' ∧ ¬ Misread c
instance (cs : List Char) : Decidable (Readable cs) := List.decidableBAll _ cs

/-! ### Bytes of a buffer -/

lemma byteAt_natCast (t : List UInt8) (k : ℕ) : byteAt t k = t.getD k 0 := by
  simp [byteAt]

lemma bytesAt_natCast (t : List UInt8) (p n : ℕ) :
    bytesAt t p n = (t.drop p ++ List.replicate n 0).take n := by
  rw [bytesAt, Int.toNat_natCast]
  refine ext_getElem (by simp) fun i hi _ => ?_
  simp only [length_map, length_range] at hi
  rw [getElem_map, getElem_range, getElem_take, ← Nat.cast_add, byteAt_natCast,
    getD_eq_getElem?_getD, getElem_append]
  split
  · rename_i h
    rw [length_drop] at h
    simp [getElem_drop, show p + i < t.length by omega]
  · rename_i h
    rw [length_drop] at h
    simp [show t.length ≤ p + i by omega]

lemma bytesAt_append (x y z : List UInt8) : bytesAt (x ++ (y ++ z)) x.length y.length = y := by
  rw [bytesAt_natCast, drop_left, append_assoc, take_left]

/-- The first byte of a character. -/
def lead (c : Char) : UInt8 := (String.utf8EncodeChar c).headD 0

/-- `byte_length2` is right for all other characters. -/
theorem byteLength2_lead_iff (c : Char) :
    byteLength2 (lead c) = (String.utf8EncodeChar c).length ↔ ¬ Misread c := by
  have hv : c.val.toNat = c.toNat := rfl
  rw [lead, byteLength2, Misread]
  fun_cases String.utf8EncodeChar c <;>
    simp only [headD_cons, length_cons, length_nil, UInt8.lt_iff_toNat_lt,
      UInt8.toNat_ofNat', UInt8.reduceToNat] <;>
    split_ifs <;> omega

/-! ### Positions -/

/-- The position after a text. -/
def pos (cs : List Char) : ℤ := (encode cs).length

@[simp]
lemma pos_nil : pos [] = 0 := rfl

@[simp]
lemma nchars_ofChars (cs : List Char) : (ofChars cs).nchars = cs.length := rfl

@[simp]
lemma nbytes_ofChars (cs : List Char) : (ofChars cs).nbytes = pos cs := rfl

@[simp]
lemma str_ofChars (cs : List Char) : (ofChars cs).str = encode cs := rfl

/-- What `memcpy` reads of a part of a text. -/
theorem bytesAt_encode (a b d : List Char) :
    bytesAt (encode (a ++ b ++ d)) (pos a) (pos b) = encode b := by
  rw [encode_append, encode_append, append_assoc]
  exact bytesAt_append _ _ _

lemma bytesAt_encode_self (cs : List Char) : bytesAt (encode cs) 0 (pos cs) = encode cs := by
  have := bytesAt_encode [] cs []
  rwa [nil_append, append_nil] at this

lemma pos_append (a b : List Char) : pos (a ++ b) = pos a + pos b := by
  simp [pos]

lemma pos_singleton (c : Char) : pos [c] = (String.utf8EncodeChar c).length := by
  simp [pos]

lemma pos_nonneg (cs : List Char) : 0 ≤ pos cs := Int.natCast_nonneg _

lemma one_le_pos_singleton (c : Char) : 1 ≤ pos [c] := by
  obtain ⟨b, t, hc, -⟩ := exists_lead c
  rw [pos_singleton, hc]
  simp

lemma length_le_pos (cs : List Char) : (cs.length : ℤ) ≤ pos cs := by
  induction cs with
  | nil => simp [pos]
  | cons c cs ih =>
    have hc := one_le_pos_singleton c
    rw [← singleton_append, pos_append, length_append, Nat.cast_add]
    simpa using Int.add_le_add hc ih

lemma isascii_ofChars (cs : List Char) : (ofChars cs).isascii = true ↔ (cs.length : ℤ) = pos cs :=
  decide_eq_true_iff

lemma length_eq_pos_of_append {a b : List Char} (h : ((a ++ b).length : ℤ) = pos (a ++ b)) :
    (a.length : ℤ) = pos a ∧ (b.length : ℤ) = pos b := by
  have ha := length_le_pos a
  have hb := length_le_pos b
  rw [pos_append, length_append, Nat.cast_add] at h
  omega

section At
variable {a b d : List Char} {c : Char}

lemma byteAt_pos (a : List Char) (c : Char) (d : List Char) :
    byteAt (encode (a ++ c :: d)) (pos a) = lead c := by
  obtain ⟨b, t, hc, -⟩ := exists_lead c
  rw [encode_append, encode_cons, pos, byteAt_natCast, lead, hc]
  simp

lemma byteLength2_pos (hc : ¬ Misread c) :
    (byteLength2 (byteAt (encode (a ++ c :: d)) (pos a)) : ℤ) = pos [c] := by
  rw [byteAt_pos, pos_singleton, (byteLength2_lead_iff c).mpr hc]

lemma skipForward_pos (hb : ∀ c ∈ b, ¬ Misread c) :
    skipForward (encode (a ++ b ++ d)) b.length (pos a) = pos (a ++ b) := by
  induction b generalizing a with
  | nil => simp [skipForward]
  | cons c b ih =>
    have hsplit : a ++ c :: b ++ d = a ++ c :: (b ++ d) := by simp
    rw [length_cons, skipForward, hsplit, byteLength2_pos (hb c (by simp)), ← pos_append,
      ← hsplit]
    have := ih (a := a ++ [c]) fun c hc => hb c (by simp [hc])
    simpa using this

/-- From every byte of a character, the scanner finds its first byte. -/
theorem charStart_pos {k fuel : ℕ} (hk : k < (String.utf8EncodeChar c).length) (hfuel : k ≤ fuel) :
    charStart (encode (a ++ c :: d)) fuel (pos a + k) = pos a := by
  induction k generalizing fuel with
  | zero =>
    obtain ⟨b, t, hc, -⟩ := exists_lead c
    have hlead : ¬ IsCont (byteAt (encode (a ++ c :: d)) (pos a)) := by
      rw [byteAt_pos, lead, hc]
      exact not_isCont_lead hc
    cases fuel with
    | zero => simp [charStart]
    | succ fuel => rw [charStart, Int.natCast_zero, Int.add_zero, if_neg hlead]
  | succ k ih =>
    obtain ⟨fuel, rfl⟩ := Nat.exists_eq_succ_of_ne_zero (show fuel ≠ 0 by omega)
    obtain ⟨b, t, hc, hcont, -⟩ := exists_lead c
    have htail : IsCont (byteAt (encode (a ++ c :: d)) (pos a + (k + 1 : ℕ))) := by
      rw [hc, length_cons] at hk
      have hget : byteAt (encode (a ++ c :: d)) (pos a + (k + 1 : ℕ)) = t[k] := by
        rw [pos, ← Nat.cast_add, byteAt_natCast, encode_append, encode_cons, hc,
          getD_append_right _ _ _ _ (by omega)]
        have hlt : k < t.length := by omega
        simp [getElem?_append_left hlt, hlt]
      rw [hget]
      exact hcont _ (getElem_mem _)
    rw [charStart, if_pos htail]
    rw [show pos a + ((k + 1 : ℕ) : ℤ) - 1 = pos a + k by omega]
    exact ih (by omega) (by omega)

lemma skipBack_pos : skipBack (encode (a ++ b ++ d)) b.length (pos (a ++ b)) = pos a := by
  induction b using List.reverseRecOn generalizing d with
  | nil => simp [skipBack]
  | append_singleton b c ih =>
    have hsplit : a ++ (b ++ [c]) ++ d = a ++ b ++ c :: d := by simp
    have hpos : pos (a ++ (b ++ [c])) - 1 =
        pos (a ++ b) + (((String.utf8EncodeChar c).length - 1 : ℕ) : ℤ) := by
      have := one_le_pos_singleton c
      rw [← append_assoc, pos_append, pos_singleton] at *
      omega
    have hlen := one_le_pos_singleton c
    have hle := pos_nonneg (a ++ b)
    rw [pos_singleton] at hlen
    rw [length_append, length_singleton, skipBack, hsplit, hpos,
      charStart_pos (by omega) (by omega)]
    exact ih

end At
section Text
variable {cs : List Char}

/-- Skipping characters, forward and back. Only the way forward goes by the first bytes. -/
theorem skipChars_take {i j : ℕ} (hcs : ∀ c ∈ (cs.drop i).take (j - i), ¬ Misread c)
    (hi : i ≤ cs.length) (hj : j ≤ cs.length) :
    skipChars (encode cs) (pos (cs.take i)) ((j : ℤ) - i) (ofChars cs).isascii =
      pos (cs.take j) := by
  rw [skipChars]
  split
  · rename_i hascii
    -- a position is the number of characters before it
    have hpos : ∀ k ≤ cs.length, pos (cs.take k) = k := by
      intro k hk
      rw [isascii_ofChars, ← take_append_drop k cs] at hascii
      rw [← (length_eq_pos_of_append hascii).1, length_take_of_le hk]
    rw [hpos i hi, hpos j hj]
    omega
  · split
    · rename_i hle
      obtain ⟨n, rfl⟩ := Nat.exists_eq_add_of_le (show i ≤ j by omega)
      have hsplit : cs.take i ++ (cs.drop i).take n = cs.take (i + n) := take_add.symm
      have := skipForward_pos (a := cs.take i) (b := (cs.drop i).take n) (d := cs.drop (i + n))
        (by rwa [Nat.add_sub_cancel_left] at hcs)
      rw [hsplit, take_append_drop, length_take_of_le (by rw [length_drop]; omega)]
        at this
      rw [show ((i + n : ℕ) : ℤ) - i = n by omega, Int.toNat_natCast, this]
    · rename_i hlt
      obtain ⟨n, rfl⟩ := Nat.exists_eq_add_of_le (show j ≤ i by omega)
      have hsplit : cs.take j ++ (cs.drop j).take n = cs.take (j + n) := take_add.symm
      have := skipBack_pos (a := cs.take j) (b := (cs.drop j).take n) (d := cs.drop (j + n))
      rw [hsplit, take_append_drop, length_take_of_le (by rw [length_drop]; omega)]
        at this
      rw [show -((j : ℤ) - (j + n : ℕ)) = n by omega, Int.toNat_natCast, this]

lemma newStr_ofChars (cs : List Char) : newStr cs.length (pos cs) (encode cs) = .ok (ofChars cs) :=
  if_pos ⟨length_le_pos cs, rfl⟩

lemma mkChar_pos {a d : List Char} {c : Char} (hc : ¬ Misread c) :
    mkChar (encode (a ++ c :: d)) (pos a) = .ok (ofChars [c]) := by
  have hbytes : bytesAt (encode (a ++ c :: d)) (pos a) (pos [c]) = encode [c] := by
    rw [encode_append, encode_cons, pos_singleton, encode_cons, encode_nil, append_nil]
    exact bytesAt_append _ _ _
  simp only [mkChar]
  rw [byteLength2_pos hc, hbytes]
  exact newStr_ofChars [c]

lemma take_append_getElem_cons {i : ℕ} (hi : i < cs.length) :
    cs.take i ++ cs[i] :: cs.drop (i + 1) = cs := by
  rw [← drop_eq_getElem_cons hi, take_append_drop]

lemma skipChars_zero {i : ℕ} (hcs : ∀ c ∈ cs.take i, ¬ Misread c) (hi : i ≤ cs.length) :
    skipChars (encode cs) 0 i (ofChars cs).isascii = pos (cs.take i) := by
  have := skipChars_take (i := 0) (by simpa using hcs) (Nat.zero_le _) hi
  rwa [take_zero, pos_nil, Int.natCast_zero, Int.sub_zero] at this

/-- Indexing finds the first byte of the character if the characters before it are read as they
are. -/
theorem getitem_eq_mkChar (i : ℕ) (hi : i < cs.length) (hcs : ∀ c ∈ cs.take i, ¬ Misread c) :
    getitem (ofChars cs) i = mkChar (encode cs) (pos (cs.take i)) := by
  have hindex : getIndex i (ofChars cs).nchars = .ok (i : ℤ) :=
    if_pos ⟨Int.natCast_nonneg i, Int.ofNat_lt.mpr hi⟩
  rw [getitem, hindex]
  exact congrArg (mkChar (encode cs)) (skipChars_zero hcs hi.le)

lemma getitem_ofChars (hcs : ∀ c ∈ cs, ¬ Misread c) (i : ℕ) (hi : i < cs.length) :
    getitem (ofChars cs) i = .ok (ofChars [cs[i]]) := by
  rw [getitem_eq_mkChar i hi fun c hc => hcs c (mem_of_mem_take hc)]
  have := mkChar_pos (a := cs.take i) (d := cs.drop (i + 1)) (hcs _ (getElem_mem hi))
  rwa [take_append_getElem_cons hi] at this

lemma lead_ne_zero {c : Char} (hc : c ≠ '\x00') : lead c ≠ 0 := by
  obtain ⟨b, t, h, -, hrange⟩ := exists_lead c
  rw [lead, h, headD_cons]
  rintro rfl
  refine hc (Char.toNat_inj.mp ?_)
  simp at hrange ⊢
  omega

/-- Iteration gives the characters up to a zero. -/
theorem iterLoop_pos {fuel : ℕ} {a b d : List Char} (hb : Readable b) (hfuel : b.length < fuel)
    (hend : byteAt (encode (a ++ b ++ d)) (pos (a ++ b)) = 0) :
    iterLoop (encode (a ++ b ++ d)) fuel (pos a) = .ok (b.map fun c => ofChars [c]) := by
  induction fuel generalizing a b with
  | zero => omega
  | succ fuel ih =>
    cases b with
    | nil =>
      rw [append_nil] at hend ⊢
      rw [iterLoop, if_neg (not_not.mpr hend)]
      rfl
    | cons c b =>
      obtain ⟨hc0, hc⟩ := hb c (by simp)
      have hsplit : a ++ c :: b = a ++ [c] ++ b := by simp
      have hcons : a ++ [c] ++ b ++ d = a ++ c :: (b ++ d) := by simp
      rw [hsplit] at hend ⊢
      have hrest := ih (fun c hc => hb c (by simp [hc])) (by simpa using hfuel) hend
      have hlead : byteAt (encode (a ++ c :: (b ++ d))) (pos a) ≠ 0 :=
        byteAt_pos a c (b ++ d) ▸ lead_ne_zero hc0
      rw [pos_append] at hrest
      rw [hcons] at hrest ⊢
      rw [iterLoop, if_pos hlead, mkChar_pos hc, byteLength2_pos hc, hrest]
      rfl

lemma length_lt_length_encode (cs : List Char) : cs.length < (encode cs).length + 1 := by
  have : (cs.length : ℤ) ≤ (encode cs).length := length_le_pos cs
  omega

lemma iterate_ofChars (hcs : Readable cs) :
    iterate (ofChars cs) = .ok (cs.map fun c => ofChars [c]) := by
  have hloop := iterLoop_pos (a := []) (d := []) hcs (length_lt_length_encode cs)
    (by simp [pos, byteAt_natCast])
  simpa [iterate, ofChars, pos] using hloop

/-! ### Slices -/

/-- The characters at `n` positions from `i` on. -/
def pick (cs : List Char) (step : ℤ) : ℕ → ℤ → List Char
  | 0, _ => []
  | n + 1, i => cs.getD i.toNat default :: pick cs step n (i + step)

lemma length_pick (cs : List Char) (step : ℤ) (n : ℕ) (i : ℤ) : (pick cs step n i).length = n := by
  induction n generalizing i with
  | zero => rfl
  | succ n ih => rw [pick, length_cons, ih]

/-- The positions of a slice are in the text. -/
def InText (cs : List Char) (step : ℤ) : ℕ → ℤ → Prop
  | 0, _ => True
  | n + 1, i => 0 ≤ i ∧ i < cs.length ∧ InText cs step n (i + step)

lemma mem_of_mem_pick {step : ℤ} {n : ℕ} {i : ℤ} (h : InText cs step n i) :
    ∀ c ∈ pick cs step n i, c ∈ cs := by
  induction n generalizing i with
  | zero => simp [pick]
  | succ n ih =>
    obtain ⟨h0, h1, h⟩ := h
    rw [pick, forall_mem_cons, getD_eq_getElem _ _ (by omega)]
    exact ⟨getElem_mem _, ih h⟩

lemma sliceLoop_take (hcs : ∀ c ∈ cs, ¬ Misread c) {step : ℤ} {n i : ℕ} (h : InText cs step n i) :
    sliceLoop (encode cs) (ofChars cs).isascii step n (pos (cs.take i)) =
      encode (pick cs step n i) := by
  induction n generalizing i with
  | zero => rfl
  | succ n ih =>
    obtain ⟨-, hi, h⟩ := h
    have hi : i < cs.length := by omega
    have hc : ¬ Misread cs[i] := hcs _ (getElem_mem hi)
    have hsplit := take_append_getElem_cons hi
    have hlen := byteLength2_pos (a := cs.take i) (d := cs.drop (i + 1)) hc
    have hbytes := bytesAt_append (encode (cs.take i)) (String.utf8EncodeChar cs[i])
      (encode (cs.drop (i + 1)))
    rw [← encode_cons, ← encode_append, hsplit] at hbytes
    rw [hsplit] at hlen
    have hnext : pos (cs.take i) + pos [cs[i]] = pos (cs.take (i + 1)) := by
      rw [← pos_append, take_append_getElem]
    rw [sliceLoop, pick, encode_cons, toNat_natCast, getD_eq_getElem _ _ hi, hlen, hnext]
    refine congrArg₂ _ (by rw [pos_singleton]; exact hbytes) ?_
    cases n with
    | zero => rfl
    | succ n =>
      obtain ⟨j, hj⟩ := eq_ofNat_of_zero_le h.1
      have hjlen : j ≤ cs.length := by have := h.2.1; omega
      rw [hj] at h ⊢
      have hmid : ∀ c ∈ (cs.drop (i + 1)).take (j - (i + 1)), ¬ Misread c := fun c hc =>
        hcs c (mem_of_mem_drop (mem_of_mem_take hc))
      rw [← ih h, ← skipChars_take hmid (show i + 1 ≤ cs.length by omega) hjlen,
        show (j : ℤ) - (i + 1 : ℕ) = step - 1 by omega]

end Text

/-- The number of steps of length `m` that are needed to cover the distance `d`. -/
def stepCount (d m : ℤ) : ℤ := d.tdiv m + (if d.tmod m ≠ 0 then 1 else 0)

lemma stepCount_neg (d m : ℤ) : stepCount (-d) (-m) = stepCount d m := by
  simp [stepCount, Int.neg_tdiv, Int.tdiv_neg, Int.neg_tmod, Int.tmod_neg]

/-- Before the last step, the distance is not covered. -/
theorem mul_lt_of_lt_stepCount {d m k : ℤ} (hd : 0 < d) (hm : 0 < m) (hk : k < stepCount d m) :
    k * m < d := by
  have hmod := tmod_nonneg m hd.le
  have heq := mul_tdiv_add_tmod d m
  rw [stepCount] at hk
  split at hk
  · have : k * m ≤ d.tdiv m * m := mul_le_mul_of_nonneg_right (by omega) hm.le
    rw [mul_comm m] at heq
    omega
  · have : (k + 1) * m ≤ d.tdiv m * m := mul_le_mul_of_nonneg_right (by omega) hm.le
    rw [mul_comm m] at heq
    rw [add_mul] at this
    omega

lemma stepCount_nonneg {d m : ℤ} (hd : 0 ≤ d) (hm : 0 ≤ m) : 0 ≤ stepCount d m := by
  have := Int.tdiv_nonneg hd hm
  rw [stepCount]
  split <;> omega

/-- The slices that take a character from the empty string. -/
def Slice.PastEmpty (slc : Slice) : Prop :=
  slc.step.getD 1 < 0 ∧ (∃ i, slc.start = some i ∧ i < 0) ∧ ∀ j, slc.stop = some j → 0 ≤ j

section Bounds
variable (len : ℕ) {step : ℤ}

lemma normalizeStart_nonneg (start : Option ℤ) (hstep : 0 < step) :
    0 ≤ normalizeStart start len step := by
  cases start <;> simp only [normalizeStart, normalizeBound] <;> split_ifs <;> omega

lemma normalizeStop_le (stop : Option ℤ) (hstep : 0 < step) :
    normalizeStop stop len step ≤ len := by
  cases stop <;> simp only [normalizeStop, normalizeBound] <;> split_ifs <;> omega

lemma le_normalizeStop (stop : Option ℤ) (hstep : step < 0) : -1 ≤ normalizeStop stop len step := by
  cases stop <;> simp only [normalizeStop, normalizeBound] <;> split_ifs <;> omega

/-- With a negative step the first position is in the text, unless the text is empty. -/
theorem normalizeStart_lt (start : Option ℤ) (hstep : step < 0) (hlen : len ≠ 0) :
    normalizeStart start len step < len := by
  cases start <;> simp only [normalizeStart, normalizeBound] <;> split_ifs <;> omega

lemma normalizeStart_le_normalizeStop_iff (slc : Slice) (hstep : slc.step.getD 1 < 0) :
    normalizeStart slc.start 0 (slc.step.getD 1) ≤ normalizeStop slc.stop 0 (slc.step.getD 1) ↔
      ¬ slc.PastEmpty := by
  obtain ⟨start, stop, step⟩ := slc
  simp only [Slice.PastEmpty, hstep, true_and]
  dsimp only at hstep ⊢
  cases start <;> cases stop <;> simp only [normalizeStart, normalizeStop, normalizeBound] <;>
    simp <;> split_ifs <;> omega

end Bounds

lemma normalizeSlice_spec {slc : Slice} {len : ℕ} {slen start step : ℤ}
    (h : normalizeSlice slc len = .ok (slen, start, step)) (hsafe : len = 0 → ¬ slc.PastEmpty) :
    0 ≤ slen ∧ ∀ k : ℤ, 0 ≤ k → k < slen → 0 ≤ start + k * step ∧ start + k * step < len := by
  simp only [normalizeSlice] at h
  split at h
  · cases h
  rename_i hstep
  simp only [Except.ok.injEq, Prod.mk.injEq] at h
  obtain ⟨hslen, hstart, rfl⟩ := h
  generalize hstop : normalizeStop slc.stop len (slc.step.getD 1) = stop at hslen
  rw [hstart, ← stepCount] at hslen
  split at hslen
  · subst hslen
    exact ⟨le_rfl, fun k h0 hk => by omega⟩
  rename_i hlt
  rcases lt_or_gt_of_ne hstep with hneg | hpos
  · have hle := le_normalizeStop len slc.stop hneg
    have hstartlt : start < len := by
      rw [← hstart]
      refine normalizeStart_lt len slc.start hneg fun hlen => ?_
      have := (normalizeStart_le_normalizeStop_iff slc hneg).mpr (hsafe hlen)
      subst hlen
      rw [Nat.cast_zero] at hstart hstop
      omega
    rw [← stepCount_neg, Int.neg_sub] at hslen
    subst hslen
    refine ⟨stepCount_nonneg (by omega) (by omega), fun k h0 hk => ?_⟩
    have hcover := mul_lt_of_lt_stepCount (by omega) (by omega) hk
    have hsign := Int.mul_nonneg h0 (show 0 ≤ -slc.step.getD 1 by omega)
    rw [Int.mul_neg] at hcover hsign
    omega
  · have hle := normalizeStop_le len slc.stop hpos
    have hstart0 := normalizeStart_nonneg len slc.start hpos
    subst hslen
    refine ⟨stepCount_nonneg (by omega) hpos.le, fun k h0 hk => ?_⟩
    have hcover := mul_lt_of_lt_stepCount (by omega) hpos hk
    have hsign := Int.mul_nonneg h0 hpos.le
    omega

section Text
variable {cs : List Char}

lemma inText_of_forall {step : ℤ} {n : ℕ} {i : ℤ}
    (h : ∀ k : ℤ, 0 ≤ k → k < n → 0 ≤ i + k * step ∧ i + k * step < cs.length) :
    InText cs step n i := by
  induction n generalizing i with
  | zero => trivial
  | succ n ih =>
    have h0 := h 0 le_rfl (by omega)
    refine ⟨by omega, by omega, ih fun k hk hkn => ?_⟩
    have := h (k + 1) (by omega) (by omega)
    rw [add_mul, one_mul] at this
    omega

lemma getslice_ofChars (hcs : ∀ c ∈ cs, ¬ Misread c) {slc : Slice} {slen start step : ℤ}
    (h : normalizeSlice slc cs.length = .ok (slen, start, step))
    (hsafe : cs = [] → ¬ slc.PastEmpty) :
    getslice (ofChars cs) slc = .ok (ofChars (pick cs step slen.toNat start)) ∧
      InText cs step slen.toNat start := by
  obtain ⟨hslen, hin⟩ := normalizeSlice_spec h fun hlen => hsafe (length_eq_zero_iff.mp hlen)
  have hin : InText cs step slen.toNat start := inText_of_forall fun k h0 hk => hin k h0 (by omega)
  refine ⟨?_, hin⟩
  have hnorm : normalizeSlice slc (ofChars cs).nchars = .ok (slen, start, step) := h
  rw [getslice, hnorm]
  simp only [bind, Except.bind]
  split
  · rename_i hzero
    subst hzero
    rfl
  · rename_i hne
    obtain ⟨n, hn⟩ : ∃ n, slen.toNat = n + 1 := ⟨slen.toNat - 1, by omega⟩
    rw [hn] at hin ⊢
    obtain ⟨i, rfl⟩ := eq_ofNat_of_zero_le hin.1
    have hi : i < cs.length := by have := hin.2.1; omega
    have hskip := skipChars_zero (fun c hc => hcs c (mem_of_mem_take hc)) hi.le
    have hstr : (ofChars cs).str = encode cs := rfl
    rw [hstr, hskip, sliceLoop_take hcs hin]
    have hlen := length_pick cs step (n + 1) i
    rw [show slen = ((pick cs step (n + 1) i).length : ℤ) by omega]
    exact newStr_ofChars _

/-- The slice of one character. -/
def Slice.single (i : ℤ) : Slice := ⟨some i, some (i + 1), none⟩

lemma getslice_single (hcs : ∀ c ∈ cs, ¬ Misread c) (i : ℕ) (hi : i < cs.length) :
    getslice (ofChars cs) (.single i) = .ok (ofChars [cs[i]]) := by
  have hnorm : normalizeSlice (.single i) cs.length = .ok (1, (i : ℤ), 1) := by
    have hstop : normalizeBound ((i : ℤ) + 1) cs.length 1 = i + 1 := by
      simp only [normalizeBound]
      split_ifs <;> omega
    have hstart : normalizeBound (i : ℤ) cs.length 1 = i := by
      simp only [normalizeBound]
      split_ifs <;> omega
    simp [normalizeSlice, Slice.single, normalizeStart, normalizeStop, hstart, hstop]
  have := (getslice_ofChars hcs hnorm fun h => by simp [h] at hi).1
  rw [this]
  simp [pick, hi]

/-! ### What a string is read as -/

/-- Iteration, indexing and slices of one character give the characters of the text. -/
structure Views (s : Str) (cs : List Char) : Prop where
  iterate : Builtin.iterate s = .ok (cs.map fun c => ofChars [c])
  getitem : ∀ (i : ℕ) (hi : i < cs.length), Builtin.getitem s i = .ok (ofChars [cs[i]])
  getslice : ∀ (i : ℕ) (hi : i < cs.length), Builtin.getslice s (.single i) = .ok (ofChars [cs[i]])

/-- A character that is found by its index is not one that is misread. -/
theorem not_misread_of_mkChar {a d : List Char} {c : Char}
    (h : mkChar (encode (a ++ c :: d)) (pos a) = .ok (ofChars [c])) : ¬ Misread c := by
  rw [← byteLength2_lead_iff]
  simp only [mkChar, byteAt_pos, newStr] at h
  split at h
  · have hbytes := congrArg Str.nbytes (Except.ok.inj h)
    simpa [ofChars] using hbytes
  · cases h

/-- A text is what its string is read as exactly if it has no zero and no character whose length the
code gets wrong. -/
theorem views_iff : Views (ofChars cs) cs ↔ Readable cs := by
  refine ⟨fun h => ?_, fun h => ⟨iterate_ofChars h, getitem_ofChars fun c hc => (h c hc).2,
    getslice_single fun c hc => (h c hc).2⟩⟩
  have hread : ∀ i (hi : i < cs.length), ¬ Misread cs[i] := by
    intro i
    induction i using Nat.strong_induction_on with
    | _ i ih =>
      intro hi
      have hpre : ∀ c ∈ cs.take i, ¬ Misread c := by
        intro c hc
        obtain ⟨j, hj, rfl⟩ := mem_take_iff_getElem.mp hc
        exact ih j (by omega) (by omega)
      have hget := h.getitem i hi
      rw [getitem_eq_mkChar i hi hpre] at hget
      refine not_misread_of_mkChar (a := cs.take i) (d := cs.drop (i + 1)) ?_
      rwa [take_append_getElem_cons hi]
  have hzero : '\x00' ∉ cs := by
    intro hmem
    obtain ⟨a, d, rfl, ha⟩ := eq_append_cons_of_mem hmem
    -- the iterator stops at the first zero
    have hb : Readable a := fun c hc => by
      refine ⟨fun h => ha (h ▸ hc), ?_⟩
      obtain ⟨i, hi, rfl⟩ := mem_iff_getElem.mp hc
      have := hread i (by rw [length_append]; omega)
      rwa [getElem_append_left hi] at this
    have hlen : a.length < (encode (a ++ '\x00' :: d)).length + 1 := by
      have := length_lt_length_encode (a ++ '\x00' :: d)
      rw [length_append] at this
      omega
    have hend : byteAt (encode ([] ++ a ++ '\x00' :: d)) (pos ([] ++ a)) = 0 := by
      rw [nil_append, byteAt_pos]
      rfl
    have hloop := iterLoop_pos hb hlen hend
    have hit := h.iterate
    rw [iterate] at hit
    have := congrArg List.length (Except.ok.inj (hloop.symm.trans hit))
    simp at this
  intro c hc
  obtain ⟨i, hi, rfl⟩ := mem_iff_getElem.mp hc
  exact ⟨fun h => hzero (h ▸ hc), hread i hi⟩

end Text
end Acton.Builtin
