import Acton.Builtin.Str.Scanning

/-!
# Searching strings

`bmh` answers with a position where the pattern occurs. For texts, such a position is between two
characters, so `partition` cuts a text in three texts and `replace` of a pattern that is not empty
gives a text. The empty pattern is found at every byte, and `replace` then writes between the bytes
of one character.
-/

namespace Acton.Builtin
open Utf8 List

/-! ### The search -/

section Search
variable {text : ℤ → UInt8} {pattern : List UInt8} {tbytes pbytes : ℤ}

/-- The pattern occurs at the position `i`. -/
def OccursAt (text : ℤ → UInt8) (pattern : List UInt8) (pbytes i : ℤ) : Prop :=
  ∀ j : ℕ, j < pbytes → text (i + j) = byteAt pattern j

lemma occursAt_iff (t : List UInt8) (p r : ℤ) :
    OccursAt (fun i => byteAt t (p + i)) pattern pbytes r ↔
      bytesAt t (p + r) pbytes = bytesAt pattern 0 pbytes := by
  simp only [OccursAt, bytesAt, map_inj_left, mem_range, Int.lt_toNat, Int.zero_add, Int.add_assoc]

lemma bmhCompare_eq_zero_iff {n : ℕ} {i : ℤ} :
    bmhCompare text pattern n (i + n - 1) = 0 ↔ OccursAt text pattern n i := by
  induction n with
  | zero => simp [bmhCompare, OccursAt]
  | succ n ih =>
    rw [bmhCompare, show i + (n + 1 : ℕ) - 1 = i + n by push_cast; omega]
    split
    · rename_i heq
      rw [ih]
      refine ⟨fun h j hj => ?_, fun h j hj => h j (by push_cast; omega)⟩
      rcases Nat.lt_succ_iff_lt_or_eq.mp (Int.ofNat_lt.mp hj) with hlt | rfl
      · exact h j (Int.ofNat_lt.mpr hlt)
      · exact heq
    · rename_i hne
      exact iff_of_false (by omega) fun h => hne (h n (by push_cast; omega))

/-- A byte of the pattern is not farther from the end of the pattern than the table says. -/
theorem bmhSkip_spec (pattern : List UInt8) (hp : 1 ≤ pbytes) :
    (∀ b, 1 ≤ bmhSkip pattern pbytes b ∧ bmhSkip pattern pbytes b ≤ pbytes) ∧
      ∀ i : ℕ, i < pbytes - 1 → bmhSkip pattern pbytes (byteAt pattern i) ≤ pbytes - i - 1 := by
  have hfold (n : ℕ) (hn : n ≤ pbytes - 1) : ∀ skip, skip = (List.range n).foldl
      (fun skip (i : ℕ) => Function.update skip (byteAt pattern i) (pbytes - i - 1))
        (fun _ => pbytes) →
      (∀ b, 1 ≤ skip b ∧ skip b ≤ pbytes) ∧ ∀ i < n, skip (byteAt pattern i) ≤ pbytes - i - 1 := by
    induction n with
    | zero =>
      rintro _ rfl
      exact ⟨fun _ => ⟨hp, le_rfl⟩, by simp⟩
    | succ n ih =>
      rintro _ rfl
      obtain ⟨hskip, hle⟩ := ih (by omega) _ rfl
      simp only [range_succ, foldl_append, foldl_cons, foldl_nil, Function.update_apply]
      refine ⟨fun b => ?_, fun i hi => ?_⟩
      · split
        · omega
        · exact hskip b
      · split
        · omega
        · rename_i hne
          exact hle i (lt_of_le_of_ne (Nat.le_of_lt_succ hi) fun h => hne (by rw [h]))
  obtain ⟨hskip, hle⟩ := hfold (pbytes - 1).toNat (by omega) _ rfl
  exact ⟨hskip, fun i hi => hle i (by omega)⟩

/-- The first of the positions up to `last` with the property `p`, or -1. -/
def IsFirst (p : ℤ → Prop) (last r : ℤ) : Prop :=
  (r = -1 ∨ 0 ≤ r ∧ r ≤ last ∧ p r) ∧ ∀ i, 0 ≤ i → i ≤ last → (r = -1 ∨ i < r) → ¬ p i

lemma bmhLoop_spec (hp : 0 ≤ pbytes) {fuel : ℕ} {k : ℤ} (hk : pbytes - 1 ≤ k)
    (hfuel : tbytes - k ≤ fuel)
    (hbefore : ∀ i, 0 ≤ i → i + pbytes ≤ k → ¬ OccursAt text pattern pbytes i) :
    IsFirst (OccursAt text pattern pbytes) (tbytes - pbytes)
      (bmhLoop text pattern tbytes pbytes fuel k) := by
  induction fuel generalizing k with
  | zero => exact ⟨.inl rfl, fun i h0 hi _ => hbefore i h0 (by omega)⟩
  | succ fuel ih =>
    rw [bmhLoop]
    split
    · rename_i hlt
      have hcmp := @bmhCompare_eq_zero_iff text pattern pbytes.toNat (k - pbytes + 1)
      rw [Int.toNat_of_nonneg hp, show k - pbytes + 1 + pbytes - 1 = k by omega] at hcmp
      split
      · rename_i hzero
        exact ⟨.inr ⟨by omega, by omega, hcmp.mp hzero⟩, fun i h0 _ hi => hbefore i h0 (by omega)⟩
      · rename_i hne
        have hpos : 1 ≤ pbytes := by
          by_contra hzero
          rw [show pbytes.toNat = 0 by omega] at hne
          exact hne rfl
        obtain ⟨hskip, hle⟩ := bmhSkip_spec pattern hpos
        have hk' := hskip (text k)
        refine ih (by omega) (by omega) fun i h0 hi hocc => ?_
        rcases lt_trichotomy (i + pbytes) (k + 1) with hbelow | heq | habove
        · exact hbefore i h0 (by omega) hocc
        · exact hne (hcmp.mpr (by rwa [show k - pbytes + 1 = i by omega]))
        · -- the byte at `k` would be in the pattern, closer to its end than the skip
          have hbyte := hocc (k - i).toNat (by omega)
          have hlast := hle (k - i).toNat (by omega)
          rw [← hbyte, show i + ((k - i).toNat : ℤ) = k by omega] at hlast
          omega
    · exact ⟨.inl rfl, fun i h0 hi _ => hbefore i h0 (by omega)⟩

theorem bmh_spec (t : List UInt8) (p : ℤ) (hp : 0 ≤ pbytes) :
    IsFirst (OccursAt (fun i => byteAt t (p + i)) pattern pbytes) (tbytes - pbytes)
      (bmh t p pattern tbytes pbytes) := by
  rw [bmh]
  split
  · exact ⟨.inl rfl, fun i h0 hi => absurd hi (by omega)⟩
  · exact bmhLoop_spec hp le_rfl (by omega) fun i h0 hi => by omega

end Search

lemma bmh_nil (t : List UInt8) (p : ℤ) (tbytes : ℤ) :
    bmh t p [] tbytes 0 = if tbytes < 0 then -1 else 0 := by
  rw [bmh]
  split
  · rfl
  · obtain ⟨n, hn⟩ : ∃ n, (tbytes - 0 + 1).toNat = n + 1 := ⟨tbytes.toNat, by omega⟩
    rw [hn, bmhLoop, if_pos (show (0 : ℤ) - 1 < tbytes by omega),
      if_pos (show bmhCompare _ _ (Int.toNat 0) _ = 0 from rfl)]
    rfl

/-! ### Texts -/

section Text
variable {cs ds : List Char} {a b : List Char}

/-- A text is found at its first place in the rest of a text, which is between two characters. -/
theorem bmh_encode (a b ds : List Char) :
    bmh (encode (a ++ b)) (pos a) (encode ds) (pos b) (pos ds) = -1 ∧ ¬ ds <:+: b ∨
      ∃ x y, b = x ++ ds ++ y ∧ bmh (encode (a ++ b)) (pos a) (encode ds) (pos b) (pos ds) = pos x ∧
        ∀ x' y', b = x' ++ ds ++ y' → pos x ≤ pos x' := by
  by_cases hds : ds = []
  · subst hds
    exact .inr ⟨[], b, rfl, (bmh_nil _ _ _).trans (if_neg (pos_nonneg b).not_gt),
      fun x' _ _ => pos_nonneg x'⟩
  obtain ⟨hfound, hfirst⟩ := @bmh_spec (encode ds) (pos b) _ (encode (a ++ b)) (pos a)
    (pos_nonneg ds)
  have hocc {x' y'} (heq : b = x' ++ ds ++ y') :
      ¬ (bmh (encode (a ++ b)) (pos a) (encode ds) (pos b) (pos ds) = -1 ∨
        pos x' < bmh (encode (a ++ b)) (pos a) (encode ds) (pos b) (pos ds)) := by
    intro hr
    refine hfirst (pos x') (pos_nonneg x') ?_ hr ((occursAt_iff _ _ _).mpr ?_)
    · have := pos_nonneg y'
      simp only [heq, pos_append]
      omega
    · rw [heq, bytesAt_encode_self, ← pos_append, ← append_assoc, ← append_assoc, bytesAt_encode]
  rcases hfound with hr | ⟨h0, hle, hbytes⟩
  · refine .inl ⟨hr, ?_⟩
    rintro ⟨x', y', heq⟩
    exact hocc heq.symm (.inl hr)
  rw [occursAt_iff] at hbytes
  obtain ⟨r, hr⟩ := Int.eq_ofNat_of_zero_le h0
  rw [hr] at hle hbytes hocc ⊢
  have hlen : r + (encode ds).length ≤ (encode b).length := by
    simp only [pos] at hle
    omega
  have hdrop : (encode (a ++ b)).drop ((encode a).length + r) = (encode b).drop r := by
    rw [encode_append, drop_length_add_append]
  have htake : ((encode b).drop r).take (encode ds).length = encode ds := by
    rw [bytesAt_encode_self, pos, pos, ← Int.natCast_add, bytesAt_natCast, hdrop,
      take_append_of_le_length (by rw [length_drop]; omega)] at hbytes
    exact hbytes
  have hsplit : encode b = (encode b).take r ++ encode ds ++
      ((encode b).drop r).drop (encode ds).length := by
    conv_lhs => rw [← take_append_drop r (encode b),
      ← take_append_drop (encode ds).length ((encode b).drop r), htake]
    rw [append_assoc]
  obtain ⟨x, y, rfl, hx, -⟩ := exists_of_encode_eq_append hds hsplit
  have hpos : (r : ℤ) = pos x := by rw [pos, ← hx, length_take_of_le (by omega)]
  rw [hpos] at hocc ⊢
  exact .inr ⟨x, y, rfl, rfl, fun x' y' heq => not_lt.mp fun hlt => hocc heq (.inr hlt)⟩

/-- The number of characters before a position between two characters. -/
theorem charNo_ofChars (ha : ∀ c ∈ a, ¬ Misread c) :
    charNo (ofChars (a ++ b)) (pos a) = a.length := by
  rw [charNo]
  split
  · rename_i hascii
    exact (length_eq_pos_of_append ((isascii_ofChars _).mp hascii)).1.symm
  · have hloop : ∀ (fuel : ℕ) (a1 a2 : List Char) (res : ℤ), a = a1 ++ a2 → a2.length ≤ fuel →
        charNoLoop (encode (a ++ b)) (pos a) fuel (pos a1) res = res + a2.length := by
      intro fuel a1 a2 res heq hfuel
      induction fuel generalizing a1 a2 res with
      | zero => simp [charNoLoop, length_eq_zero_iff.mp (Nat.le_zero.mp hfuel)]
      | succ fuel ih =>
        rw [charNoLoop]
        cases a2 with
        | nil => simp [heq]
        | cons c a2 =>
          have hlt : pos a1 < pos a := by
            have h1 := one_le_pos_singleton c
            have h2 := pos_nonneg a2
            rw [heq, ← singleton_append, pos_append, pos_append]
            omega
          have hsplit : a ++ b = a1 ++ c :: (a2 ++ b) := by simp [heq]
          rw [if_pos hlt, hsplit, byteLength2_pos (ha c (by simp [heq])), ← pos_append, ← hsplit,
            ih (a1 ++ [c]) a2 (res + 1) (by simp [heq]) (by simpa using hfuel), length_cons]
          omega
    have hfuel : a.length ≤ (pos a).toNat := by
      have := length_le_pos a
      omega
    simpa using hloop (pos a).toNat [] a 0 rfl hfuel

lemma skipChars_length (hcs : ∀ c ∈ cs, ¬ Misread c) :
    skipChars (encode cs) 0 cs.length (ofChars cs).isascii = pos cs := by
  have := @skipChars_zero cs cs.length (by simpa using hcs) le_rfl
  rwa [take_length] at this

lemma skipChars_zero_zero (cs : List Char) :
    skipChars (encode cs) 0 0 (ofChars cs).isascii = 0 := by
  simpa using @skipChars_zero cs 0 (by simp) (Nat.zero_le _)

section
variable (hcs : ∀ c ∈ cs, ¬ Misread c)
include hcs

lemma find_ofChars (ds : List Char) : find (ofChars cs) (ofChars ds) =
      if bmh (encode cs) 0 (encode ds) (pos cs) (pos ds) < 0 then -1
      else charNo (ofChars cs) (bmh (encode cs) 0 (encode ds) (pos cs) (pos ds)) := by
  simp only [find, str_ofChars, nchars_ofChars, nbytes_ofChars, skipChars_zero_zero,
    skipChars_length hcs, Int.sub_zero,
    Int.add_zero]

/-- A text is cut at the first place where the separator stands. -/
theorem partition_ofChars (ds : List Char) :
    partition (ofChars cs) (ofChars ds) = .ok (ofChars cs, nullStr, nullStr) ∧ ¬ ds <:+: cs ∨
      ∃ x y, cs = x ++ ds ++ y ∧
        partition (ofChars cs) (ofChars ds) = .ok (ofChars x, ofChars ds, ofChars y) ∧
        ∀ x' y', cs = x' ++ ds ++ y' → pos x ≤ pos x' := by
  have hfind := find_ofChars hcs ds
  rcases bmh_encode [] cs ds with ⟨h, hnone⟩ | ⟨x, y, rfl, h, hfirst⟩
  · rw [nil_append, pos_nil] at h
    left
    refine ⟨?_, hnone⟩
    simp [partition, hfind, h]
    rfl
  · rw [nil_append, pos_nil] at h
    right
    refine ⟨x, y, rfl, ?_, hfirst⟩
    have hx : ∀ c ∈ x, ¬ Misread c := fun c hc => hcs c (by simp [hc])
    have hno : charNo (ofChars (x ++ ds ++ y)) (pos x) = x.length := by
      rw [append_assoc]
      exact charNo_ofChars hx
    rw [h, if_neg (pos_nonneg x).not_gt, hno] at hfind
    have hls := newStr_ofChars x
    have hrs := newStr_ofChars y
    have hx' := bytesAt_encode [] x (ds ++ y)
    have hy' := bytesAt_encode (x ++ ds) y []
    rw [nil_append, pos_nil, ← append_assoc] at hx'
    rw [append_nil, pos_append] at hy'
    have hchars : ((x ++ ds ++ y).length : ℤ) - x.length - ds.length = y.length := by
      simp only [length_append]
      omega
    have hbytes : pos (x ++ ds ++ y) - pos ds - pos x = pos y := by
      simp only [pos_append]
      omega
    simp only [partition, hfind, str_ofChars, nbytes_ofChars, nchars_ofChars, h, hx', hls, hchars,
      hbytes, hy', hrs, if_neg (Int.natCast_nonneg x.length).not_gt]
    rfl

lemma count_ofChars (ds : List Char) : count (ofChars cs) (ofChars ds) =
      countLoop (ofChars cs) (ofChars ds) (pos cs) (pos cs + 2).toNat 0 := by
  simp only [count, str_ofChars, nchars_ofChars, skipChars_zero_zero, skipChars_length hcs,
    Int.sub_zero]

end

lemma pos_pos (hds : ds ≠ []) : 0 < pos ds := by
  obtain ⟨d, ds, rfl⟩ := exists_cons_of_ne_nil hds
  have h1 := one_le_pos_singleton d
  have h2 := pos_nonneg ds
  rw [← singleton_append, pos_append]
  omega

lemma eq_nil_of_pos_le (h : pos cs ≤ 0) : cs = [] := by
  by_contra hne
  exact absurd (pos_pos hne) (by omega)

/-- The texts `xs`, each followed by `ds`, and then `r`. -/
def pieces (ds : List Char) (xs : List (List Char)) (r : List Char) : List Char :=
  xs.flatMap (· ++ ds) ++ r

/-- A text is cut at the occurrences of `ds` that do not overlap, from the left. -/
def Leftmost (ds : List Char) : List (List Char) → List Char → Prop
  | [], r => ¬ ds <:+: r
  | x :: xs, r =>
    (∀ x' y', pieces ds (x :: xs) r = x' ++ ds ++ y' → pos x ≤ pos x') ∧ Leftmost ds xs r

section Pieces
variable {xs : List (List Char)} {r es : List Char} {k : ℕ}

lemma pieces_cons (ds x : List Char) (xs : List (List Char)) (r : List Char) :
    pieces ds (x :: xs) r = x ++ ds ++ pieces ds xs r := by
  simp [pieces]

lemma exists_leftmost (hds : ds ≠ []) (b : List Char) :
    ∃ xs r, b = pieces ds xs r ∧ Leftmost ds xs r := by
  induction hn : b.length using Nat.strong_induction_on generalizing b with
  | _ n ih =>
    rcases bmh_encode [] b ds with ⟨-, h⟩ | ⟨x, y, rfl, -, hfirst⟩
    · exact ⟨[], b, rfl, h⟩
    · have hlen : y.length < n := by
        have := length_pos_iff.mpr hds
        simp only [← hn, length_append]
        omega
      obtain ⟨xs, r, rfl, h⟩ := ih _ hlen y rfl
      rw [← pieces_cons] at hfirst ⊢
      exact ⟨x :: xs, r, rfl, hfirst, h⟩

lemma bmh_of_leftmost (h : Leftmost ds xs r) (a : List Char) :
    bmh (encode (a ++ pieces ds xs r)) (pos a) (encode ds) (pos (pieces ds xs r)) (pos ds) =
      (xs.head?.map pos).getD (-1) := by
  rcases bmh_encode a (pieces ds xs r) ds with ⟨hbmh, hno⟩ | ⟨x', y', heq, hbmh, hfirst⟩
  · cases xs with
    | nil => exact hbmh
    | cons x xs => exact absurd ⟨x, pieces ds xs r, (pieces_cons ..).symm⟩ hno
  · rw [hbmh]
    cases xs with
    | nil => exact absurd ⟨x', y', heq.symm⟩ h
    | cons x xs => exact le_antisymm (hfirst x _ (pieces_cons ..)) (h.1 x' y' heq)

lemma length_le_pos_pieces (hds : ds ≠ []) : (xs.length : ℤ) ≤ pos (pieces ds xs r) := by
  induction xs with
  | nil => exact pos_nonneg _
  | cons x xs ih =>
    have := pos_pos hds
    have := pos_nonneg x
    rw [pieces_cons, pos_append, pos_append, length_cons]
    omega

lemma countLoop_pieces (hds : ds ≠ []) (h : Leftmost ds xs r) {fuel : ℕ} (hfuel : xs.length < fuel)
    (a : List Char) : countLoop (ofChars (a ++ pieces ds xs r)) (ofChars ds)
      (pos (a ++ pieces ds xs r)) fuel (pos a) = xs.length := by
  induction fuel generalizing xs a with
  | zero => omega
  | succ fuel ih =>
    have hrest : pos (a ++ pieces ds xs r) - pos a = pos (pieces ds xs r) := by
      rw [pos_append]
      omega
    rw [countLoop, if_pos (show 0 < (ofChars ds).nbytes from pos_pos hds)]
    simp only [str_ofChars, nbytes_ofChars, hrest, bmh_of_leftmost h a]
    cases xs with
    | nil => rfl
    | cons x xs =>
      have hnext : pos a + (pos x + pos ds) = pos (a ++ (x ++ ds)) := by
        simp only [pos_append]
      refine (if_pos (pos_nonneg x)).trans ?_
      simp only [head?_cons, Option.map_some, Option.getD_some]
      rw [hnext, pieces_cons, ← append_assoc, ih h.2 (by simpa using hfuel), length_cons]
      omega

lemma copy_encode (a x z : List Char) :
    (if 0 < pos x then bytesAt (encode (a ++ x ++ z)) (pos a) (pos x) else []) = encode x := by
  split
  · exact bytesAt_encode a x z
  · rename_i hzero
    rw [eq_nil_of_pos_le (not_lt.mp hzero)]
    rfl

/-- The rounds of `replace` write the first `k` pieces with the new text. -/
theorem replaceLoop_pieces (hds : ds ≠ []) (h : Leftmost ds xs r) (hk : k ≤ xs.length)
    (first : Bool) (a : List Char) :
    replaceLoop (ofChars (a ++ pieces ds xs r)) (ofChars ds) (ofChars es) k first (pos a)
      (pos (pieces ds xs r)) = encode (pieces es (xs.take k) (pieces ds (xs.drop k) r)) := by
  induction k generalizing xs first a with
  | zero =>
    have := copy_encode a (pieces ds xs r) []
    rwa [append_nil] at this
  | succ k ih =>
    cases xs with
    | nil => simp at hk
    | cons x xs =>
      have hlen : pos (pieces ds (x :: xs) r) - (pos x + pos ds) = pos (pieces ds xs r) := by
        rw [pieces_cons, pos_append, pos_append]
        omega
      have hcopy := copy_encode a x (ds ++ pieces ds xs r)
      have hmove :
          (if 0 < pos x then pos a + pos x else pos a) + pos ds = pos (a ++ (x ++ ds)) := by
        have := pos_nonneg x
        simp only [pos_append]
        split <;> omega
      rw [append_assoc, ← append_assoc x, ← pieces_cons] at hcopy
      have hne : ¬ (first = false ∧ (ofChars ds).nbytes = 0) := fun h => (pos_pos hds).ne' h.2
      rw [replaceLoop, if_neg hne]
      simp only [str_ofChars, nbytes_ofChars, bytesAt_encode_self, bmh_of_leftmost h a, head?_cons,
        Option.map_some, Option.getD_some, hlen, hcopy, hmove]
      rw [pieces_cons, ← append_assoc, ih h.2 (by simpa using hk), take_succ_cons, drop_succ_cons,
        pieces_cons, encode_append, encode_append]

lemma map_pieces {m : List Char → ℤ} (happ : ∀ a b, m (a ++ b) = m a + m b) (hk : k ≤ xs.length) :
    m (pieces es (xs.take k) (pieces ds (xs.drop k) r)) =
      m (pieces ds xs r) + k * (m es - m ds) := by
  induction k generalizing xs with
  | zero => simp [pieces]
  | succ k ih =>
    cases xs with
    | nil => simp at hk
    | cons x xs =>
      rw [take_succ_cons, drop_succ_cons, pieces_cons, pieces_cons, happ, happ, happ, happ,
        ih (by simpa using hk)]
      push_cast
      ring

lemma mem_of_mem_pieces {c : Char}
    (hc : c ∈ pieces es (xs.take k) (pieces ds (xs.drop k) r)) : c ∈ pieces ds xs r ∨ c ∈ es := by
  simp only [pieces, mem_append, mem_flatMap] at hc ⊢
  rcases hc with ⟨x, hx, hc | hc⟩ | ⟨x, hx, hc⟩ | hc
  · exact .inl (.inl ⟨x, mem_of_mem_take hx, .inl hc⟩)
  · exact .inr hc
  · exact .inl (.inl ⟨x, mem_of_mem_drop hx, hc⟩)
  · exact .inl (.inr hc)

end Pieces

/-! ### The empty pattern -/

/-- The empty pattern is counted once for every byte, and at the end. -/
theorem countLoop_nil (cs : List Char) {fuel : ℕ} {p : ℤ} (hp : p ≤ pos cs + 1)
    (hfuel : pos cs + 1 - p ≤ fuel) :
    countLoop (ofChars cs) (ofChars []) (pos cs) fuel p = pos cs + 1 - p := by
  induction fuel generalizing p with
  | zero =>
    rw [countLoop]
    omega
  | succ fuel ih =>
    have hbmh := bmh_nil (encode cs) p (pos cs - p)
    rw [countLoop, if_neg (show ¬ 0 < (ofChars []).nbytes from lt_irrefl 0)]
    simp only [str_ofChars, nbytes_ofChars, encode_nil, pos_nil, hbmh]
    split
    · rw [if_neg (by omega)]
      omega
    · rw [if_pos le_rfl, ih (by omega) (by omega)]
      omega

lemma count_ofChars_nil (hcs : ∀ c ∈ cs, ¬ Misread c) :
    count (ofChars cs) (ofChars []) = pos cs + 1 := by
  have := pos_nonneg cs
  rw [count_ofChars hcs, countLoop_nil cs (by omega) (by omega), Int.sub_zero]

lemma bytesAt_succ (t : List UInt8) (p : ℤ) (k : ℕ) :
    bytesAt t p (k + 1 : ℕ) = byteAt t p :: bytesAt t (p + 1) k := by
  simp only [bytesAt, Int.toNat_natCast, range_succ_eq_map, map_cons, map_map,
    Function.comp_def, Nat.cast_zero, Int.add_zero]
  congr 1
  exact map_congr_left fun i _ => by rw [Nat.cast_succ]; congr 1; omega

/-- After the first round, `replace` of the empty pattern copies one byte a round. -/
theorem replaceLoop_nil (s new : Str) {k : ℕ} {p plen : ℤ} :
    replaceLoop s (ofChars []) new k false p plen =
      (bytesAt s.str p k).flatMap (fun b => b :: bytesAt new.str 0 new.nbytes) ++
        if 0 < plen - k then bytesAt s.str (p + k) (plen - k) else [] := by
  induction k generalizing p plen with
  | zero => simp [replaceLoop, bytesAt]
  | succ k ih =>
    have hone : bytesAt s.str p 1 = [byteAt s.str p] := by simp [bytesAt]
    rw [replaceLoop, if_pos (show false = false ∧ (ofChars []).nbytes = 0 from ⟨rfl, rfl⟩),
      bytesAt_succ, ih]
    simp only [Int.zero_lt_one, if_true, hone, flatMap_cons, nbytes_ofChars, pos_nil,
      Int.add_zero, append_assoc, cons_append, nil_append]
    rw [show plen - 1 - (k : ℤ) = plen - (k + 1 : ℕ) by push_cast; omega,
      show p + 1 + (k : ℤ) = p + (k + 1 : ℕ) by push_cast; omega]

/-- `m` bytes of the text, with the new text before, between and after them, and the rest. -/
def interleave (t new : List UInt8) (m : ℕ) : List UInt8 :=
  new ++ ((t.take m).flatMap (fun b => b :: new) ++ t.drop m)

lemma replaceLoop_nil_encode (cs es : List Char) {m : ℕ} (hm : m ≤ (encode cs).length) :
    replaceLoop (ofChars cs) (ofChars []) (ofChars es) (m + 1) true 0 (pos cs) =
      interleave (encode cs) (encode es) m := by
  have hbmh : bmh (encode cs) 0 [] (pos cs) 0 = 0 :=
    (bmh_nil _ _ _).trans (if_neg (pos_nonneg cs).not_gt)
  have htake : bytesAt (encode cs) 0 m = (encode cs).take m := by
    have := bytesAt_natCast (encode cs) 0 m
    rwa [drop_zero, take_append_of_le_length hm] at this
  have hdrop : (if 0 < pos cs - m then bytesAt (encode cs) (0 + m) (pos cs - m) else []) =
      (encode cs).drop m := by
    split
    · rw [Int.zero_add, show pos cs - m = (((encode cs).length - m : ℕ) : ℤ) by simp [pos]; omega,
        bytesAt_natCast, take_append_of_le_length (by rw [length_drop]),
        take_of_length_le (by rw [length_drop])]
    · rename_i hle
      rw [drop_eq_nil_of_le]
      simp only [pos] at hle
      omega
  rw [replaceLoop, if_neg (show ¬ (true = false ∧ (ofChars []).nbytes = 0) by simp)]
  simp only [str_ofChars, nbytes_ofChars, encode_nil, pos_nil, hbmh, lt_irrefl, if_false,
    bytesAt_encode_self, Int.add_zero, Int.sub_zero, replaceLoop_nil, htake, hdrop, interleave,
    nil_append]

lemma length_flatMap_cons {α : Type} (l new : List α) :
    (l.flatMap fun x => x :: new).length = l.length * (new.length + 1) := by
  simp [length_flatMap, map_const']

lemma length_interleave {t : List UInt8} (new : List UInt8) {m : ℕ} (hm : m ≤ t.length) :
    (interleave t new m).length = t.length + (m + 1) * new.length := by
  rw [interleave, length_append, length_append, length_flatMap_cons, length_drop,
    length_take_of_le hm, Nat.mul_add, Nat.add_mul]
  omega

/-- If the bytes are ASCII, they are characters. -/
theorem interleave_of_ascii {es : List Char} {m : ℕ} (hm : m ≤ (encode cs).length)
    (h : ∀ b ∈ (encode cs).take m, b < 0x80) :
    m ≤ cs.length ∧ interleave (encode cs) (encode es) m =
      encode (es ++ ((cs.take m).flatMap (fun c => c :: es) ++ cs.drop m)) := by
  have hrest : m ≤ cs.length ∧
      ((encode cs).take m).flatMap (fun b => b :: encode es) ++ (encode cs).drop m =
        encode ((cs.take m).flatMap (fun c => c :: es) ++ cs.drop m) := by
    induction m generalizing cs with
    | zero => simp
    | succ m ih =>
      cases cs with
      | nil => simp at hm
      | cons c cs =>
        obtain ⟨b, t, hc, -, hrange⟩ := exists_lead c
        have hb : b < 0x80 := h b (by simp [hc])
        simp only [UInt8.lt_iff_toNat_lt, UInt8.reduceToNat] at hb
        obtain rfl : t = [] := length_eq_zero_iff.mp (by omega)
        simp only [encode_cons, hc, nil_append, take_succ_cons,
          drop_succ_cons, flatMap_cons, length_cons, forall_mem_cons,
          encode_append, append_assoc, cons_append] at hm h ⊢
        obtain ⟨hle, hih⟩ := ih (by omega) h.2
        rw [hih, encode_append]
        exact ⟨by omega, rfl⟩
  rw [interleave, hrest.2, ← encode_append]
  exact ⟨hrest.1, rfl⟩

/-- Otherwise the new text stands after the first byte of a longer character. -/
theorem interleave_ne_encode {es : List Char} (hes : es ≠ []) {m : ℕ}
    (h : ∃ b ∈ (encode cs).take m, ¬ b < 0x80) (w : List Char) :
    interleave (encode cs) (encode es) m ≠ encode w := by
  have hrest : ∀ w, ((encode cs).take m).flatMap (fun b => b :: encode es) ++ (encode cs).drop m ≠
      encode w := by
    induction m generalizing cs with
    | zero => simp at h
    | succ m ih =>
      intro w heq
      cases cs with
      | nil => simp at h
      | cons c cs =>
        obtain ⟨b, t, hc, -, hrange⟩ := exists_lead c
        cases t with
        | nil =>
          have hb : b < 0x80 := by
            simp only [length_nil] at hrange
            simp only [UInt8.lt_iff_toNat_lt, UInt8.reduceToNat]
            omega
          simp only [encode_cons, hc, nil_append, take_succ_cons,
            drop_succ_cons, flatMap_cons, append_assoc, cons_append] at h heq
          have hcons : encode w = encode (c :: es) ++ (((encode cs).take m).flatMap
              (fun b => b :: encode es) ++ (encode cs).drop m) := by
            rw [← heq, encode_cons, hc]
            rfl
          obtain ⟨w', -, hw'⟩ := exists_of_encode_eq_encode_append hcons
          refine ih ?_ w' hw'
          obtain ⟨b', hb', hnot⟩ := h
          rcases mem_cons.mp hb' with rfl | hb'
          · exact absurd hb hnot
          · exact ⟨b', hb', hnot⟩
        | cons b1 t =>
          -- the byte after the first one of a longer character is a continuation byte
          obtain ⟨e, es, rfl⟩ := exists_cons_of_ne_nil hes
          obtain ⟨b2, t2, he, -⟩ := exists_lead e
          simp only [encode_cons, hc, he, cons_append, take_succ_cons, flatMap_cons] at heq
          cases w with
          | nil => simp at heq
          | cons d w =>
            obtain ⟨b3, t3, hd, hcont, hrange3⟩ := exists_lead d
            rw [encode_cons, hd, cons_append, List.cons.injEq] at heq
            obtain ⟨rfl, heq⟩ := heq
            simp only [length_cons] at hrange
            obtain ⟨b4, t4, rfl⟩ := exists_cons_of_ne_nil
              (show t3 ≠ [] from fun h => by simp only [h, length_nil] at hrange3; omega)
            rw [cons_append, List.cons.injEq] at heq
            exact not_isCont_lead he (heq.1 ▸ hcont b4 (by simp))
  intro heq
  obtain ⟨w', -, hw'⟩ := exists_of_encode_eq_encode_append heq.symm
  exact hrest w' hw'

/-! ### Replacing -/

/-- The rounds of `replace` keep the characters together: a negative number of rounds is only right
if there is nothing to be counted, and the empty pattern only between ASCII characters. The result
fits into an `int`. -/
structure ReplaceSafe (s old new : Str) (count : Option ℤ) : Prop where
  size : replaceCount s old count ≠ 0 →
    s.nbytes + replaceCount s old count * (new.nbytes - old.nbytes) ≤ intMax
  neg : replaceCount s old count < 0 → new.nbytes = old.nbytes ∧ new.nchars = old.nchars
  empty : 0 < replaceCount s old count → old.nbytes = 0 → new.nbytes = 0 ∨
    ∀ b ∈ s.str.take (replaceCount s old count - 1).toNat, b < 0x80

/-- The count is not cut if it is an `int`, or not less than the number of occurrences. -/
theorem replaceCount_eq {s old : Str} {count : Option ℤ}
    (h : ∀ k ∈ count, -2 ^ 31 ≤ k ∧ (k < 2 ^ 31 ∨ Builtin.count s old ≤ k)) :
    replaceCount s old count = min (count.getD intMax) (Builtin.count s old) := by
  simp only [replaceCount]
  split
  · rename_i hlt
    rw [min_eq_left hlt.le, Int.bmod_eq_of_le]
    · cases count with
      | none => decide
      | some k => have := h k rfl; simp at hlt ⊢; omega
    · cases count with
      | none => decide
      | some k => have := h k rfl; simp at hlt ⊢; omega
  · rw [min_eq_right (by omega)]

lemma replaceCount_le (s old : Str) {count : Option ℤ}
    (hint : ∀ k ∈ count, -2 ^ 31 ≤ k ∧ k < 2 ^ 31) :
    replaceCount s old count ≤ Builtin.count s old := by
  rw [replaceCount_eq fun k hk => ⟨(hint k hk).1, .inl (hint k hk).2⟩]
  exact min_le_right _ _

lemma newStr_eq {cs : List Char} {nchars nbytes : ℤ} {bytes : List UInt8}
    (h1 : nchars = cs.length) (h2 : nbytes = pos cs) (h3 : bytes = encode cs) :
    newStr nchars nbytes bytes = .ok (ofChars cs) := by
  rw [h1, h2, h3, newStr_ofChars]

lemma replaceLoop_zero (cs : List Char) (old new : Str) (first : Bool) :
    replaceLoop (ofChars cs) old new 0 first 0 (pos cs) = encode cs := by
  simpa [replaceLoop] using copy_encode [] cs []

section Replace
variable {es : List Char} {count : Option ℤ} (hcs : ∀ c ∈ cs, ¬ Misread c)
include hcs

lemma count_pieces (hds : ds ≠ []) {xs : List (List Char)} {r : List Char}
    (heq : cs = pieces ds xs r)
    (h : Leftmost ds xs r) : Builtin.count (ofChars cs) (ofChars ds) = xs.length := by
  have hlen := @length_le_pos_pieces ds xs r hds
  rw [count_ofChars hcs, heq]
  exact countLoop_pieces hds h (by omega) []

omit hcs in
/-- The text in which the first occurrences are replaced. -/
theorem replace_pieces (hds : ds ≠ []) {xs : List (List Char)} {r : List Char}
    (heq : cs = pieces ds xs r) (h : Leftmost ds xs r) {n : ℕ} (hle : n ≤ xs.length)
    (hn : replaceCount (ofChars cs) (ofChars ds) count = n)
    (hsize : n ≠ 0 → pos cs + n * (pos es - pos ds) ≤ intMax) :
    replace (ofChars cs) (ofChars ds) (ofChars es) count =
      .ok (ofChars (pieces es (xs.take n) (pieces ds (xs.drop n) r))) := by
  simp only [replace, hn]
  subst heq
  split
  · rename_i hzero
    rw [Nat.cast_eq_zero.mp hzero]
    rfl
  · rename_i hne
    rw [if_neg (by simpa using hsize (by simpa using hne))]
    exact newStr_eq (map_pieces (m := fun l => (l.length : ℤ)) (by simp) hle).symm
      (map_pieces pos_append hle).symm (replaceLoop_pieces hds h hle true [])

lemma replace_of_safe (hint : ∀ k ∈ count, -2 ^ 31 ≤ k ∧ k < 2 ^ 31)
    (h : ReplaceSafe (ofChars cs) (ofChars ds) (ofChars es) count) :
    ∃ w, replace (ofChars cs) (ofChars ds) (ofChars es) count = .ok (ofChars w) ∧
      ∀ c ∈ w, c ∈ cs ∨ c ∈ es := by
  obtain ⟨hsize, hneg, hempty⟩ := h
  have hle := replaceCount_le (ofChars cs) (ofChars ds) hint
  by_cases hpieces : ds ≠ [] ∧ 0 ≤ replaceCount (ofChars cs) (ofChars ds) count
  · obtain ⟨hds, h0⟩ := hpieces
    obtain ⟨n, hn⟩ := Int.eq_ofNat_of_zero_le h0
    obtain ⟨xs, r, heq, h⟩ := exists_leftmost hds cs
    rw [hn, count_pieces hcs hds heq h, Nat.cast_le] at hle
    rw [hn] at hsize
    exact ⟨_, replace_pieces hds heq h hle hn fun hne => hsize (by simpa using hne),
      fun c hc => heq ▸ mem_of_mem_pieces hc⟩
  simp only [replace]
  generalize replaceCount (ofChars cs) (ofChars ds) count = c0 at *
  split
  · exact ⟨cs, rfl, fun c hc => .inl hc⟩
  rename_i hne
  rw [if_neg (not_lt.mpr (hsize hne))]
  rcases lt_or_gt_of_ne hne with hlt | hgt
  · -- no round is made
    obtain ⟨hbytes, hchars⟩ := hneg hlt
    rw [nbytes_ofChars, nbytes_ofChars] at hbytes
    rw [nchars_ofChars, nchars_ofChars] at hchars
    refine ⟨cs, newStr_eq ?_ ?_ ?_, fun c hc => .inl hc⟩
    · simp [hchars]
    · simp [hbytes]
    · rw [Int.toNat_eq_zero.mpr hlt.le]
      exact replaceLoop_zero cs _ _ _
  · obtain rfl : ds = [] := by_contra fun hds => hpieces ⟨hds, hgt.le⟩
    rw [count_ofChars_nil hcs] at hle
    obtain ⟨m, hm⟩ : ∃ m : ℕ, c0 = m + 1 := ⟨(c0 - 1).toNat, by omega⟩
    have hmlen : m ≤ (encode cs).length := by
      simp only [pos] at hle
      omega
    have hloop := replaceLoop_nil_encode cs es hmlen
    have hbytes := length_interleave (encode es) hmlen
    have hm' : c0.toNat = m + 1 := by omega
    rw [hm', nbytes_ofChars, hloop]
    rcases hempty hgt rfl with hzero | hascii
    · obtain rfl := @eq_nil_of_pos_le es (le_of_eq hzero)
      refine ⟨cs, newStr_eq ?_ ?_ (by simp [interleave]), fun c hc => .inl hc⟩
      · simp
      · simp
    · rw [show (c0 - 1).toNat = m by omega] at hascii
      obtain ⟨hmc, hw⟩ := interleave_of_ascii hmlen hascii
      have hpos := congrArg (Nat.cast : ℕ → ℤ) (hw ▸ hbytes)
      refine ⟨_, newStr_eq ?_ ?_ hw, fun c hc => ?_⟩
      · rw [hm]
        simp only [nchars_ofChars, length_append, length_flatMap_cons, length_drop,
          length_take_of_le hmc, length_nil]
        push_cast [hmc]
        ring
      · refine Eq.trans ?_ hpos.symm
        rw [hm]
        simp only [nbytes_ofChars, pos, encode_nil, length_nil]
        push_cast
        ring
      · simp only [mem_append, mem_flatMap, mem_cons] at hc
        rcases hc with hc | ⟨c', hc', rfl | hc⟩ | hc
        · exact .inr hc
        · exact .inl (mem_of_mem_take hc')
        · exact .inr hc
        · exact .inl (mem_of_mem_drop hc)

/-- Otherwise the bytes do not fill the buffer, or what it holds is not the string of a text. -/
theorem replace_of_not_safe (hint : ∀ k ∈ count, -2 ^ 31 ≤ k ∧ k < 2 ^ 31)
    (h : ¬ ReplaceSafe (ofChars cs) (ofChars ds) (ofChars es) count) :
    replace (ofChars cs) (ofChars ds) (ofChars es) count = .error .undefined ∨
      ∃ s, replace (ofChars cs) (ofChars ds) (ofChars es) count = .ok s ∧ ∀ w, s ≠ ofChars w := by
  have hle := replaceCount_le (ofChars cs) (ofChars ds) hint
  by_cases hsize : replaceCount (ofChars cs) (ofChars ds) count ≠ 0 ∧
      intMax < (ofChars cs).nbytes + replaceCount (ofChars cs) (ofChars ds) count *
        ((ofChars es).nbytes - (ofChars ds).nbytes)
  · exact .inl (by simp only [replace, if_neg hsize.1, if_pos hsize.2])
  rw [not_and, not_lt] at hsize
  have hcases : (replaceCount (ofChars cs) (ofChars ds) count < 0 ∧
        ¬ (pos es = pos ds ∧ (es.length : ℤ) = ds.length)) ∨
      (0 < replaceCount (ofChars cs) (ofChars ds) count ∧ ds = [] ∧ es ≠ [] ∧
        ∃ b ∈ (encode cs).take (replaceCount (ofChars cs) (ofChars ds) count - 1).toNat,
          ¬ b < 0x80) := by
    by_contra hno
    rw [not_or] at hno
    refine h ⟨hsize, fun hlt => ?_, fun hgt hzero => ?_⟩
    · by_contra hne
      exact hno.1 ⟨hlt, hne⟩
    · by_contra hne
      rw [not_or, not_forall] at hne
      obtain ⟨hes, b, hb⟩ := hne
      rw [Classical.not_imp] at hb
      exact hno.2 ⟨hgt, eq_nil_of_pos_le (le_of_eq hzero), fun he => hes (by rw [he]; rfl), b, hb⟩
  simp only [replace]
  generalize replaceCount (ofChars cs) (ofChars ds) count = c0 at *
  rcases hcases with ⟨hlt, hne⟩ | ⟨hgt, rfl, hes, hb⟩
  · -- the text is copied to a buffer for another one
    rw [if_neg hlt.ne, if_neg (not_lt.mpr (hsize hlt.ne)), Int.toNat_eq_zero.mpr hlt.le,
      nbytes_ofChars, replaceLoop_zero, newStr]
    split
    · rename_i hfill
      refine .inr ⟨_, rfl, fun w hw => hne ?_⟩
      obtain rfl := encode_inj (congrArg Str.str hw)
      have hbytes : c0 * (pos es - pos ds) = 0 := by
        have h2 := hfill.2
        simp only [nbytes_ofChars, pos] at h2 ⊢
        omega
      have hchars : c0 * ((es.length : ℤ) - ds.length) = 0 := by
        have h2 := congrArg Str.nchars hw
        simp only [nchars_ofChars] at h2
        omega
      rw [mul_eq_zero] at hbytes hchars
      omega
    · exact .inl rfl
  · rw [count_ofChars_nil hcs] at hle
    obtain ⟨m, hm⟩ : ∃ m : ℕ, c0 = m + 1 := ⟨(c0 - 1).toNat, by omega⟩
    have hmlen : m ≤ (encode cs).length := by
      simp only [pos] at hle
      omega
    rw [show (c0 - 1).toNat = m by omega] at hb
    rw [if_neg hgt.ne', if_neg (not_lt.mpr (hsize hgt.ne')), show c0.toNat = m + 1 by omega,
      nbytes_ofChars, replaceLoop_nil_encode cs es hmlen, newStr]
    split
    · exact .inr ⟨_, rfl, fun w hw => interleave_ne_encode hes hb w (congrArg Str.str hw)⟩
    · exact .inl rfl

end Replace
end Text
end Acton.Builtin
