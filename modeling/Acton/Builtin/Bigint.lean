import Acton.Builtin.Hashable

/-!
# Arbitrary-precision integers

A number is an array of words with the least one first, and a size: as many words of the array are
used as the absolute value of the size says, and the number is negative if the size is. The two
functions of the library for words that are used, `nn_shl` and `nn_shr`, are parameters, and what
they are for is assumed (`ShiftLib`).

A shift to the left multiplies by a power of two. A shift to the right divides the magnitude, unless
it shifts out all words: then the code reads in front of the array (`shift_correct`).
-/

namespace Acton.Builtin
open List
open Nat (digits digitsAppend)

/-- The type `zz_struct`. -/
structure Zz where
  size : ℤ
  n : List ℕ
  deriving DecidableEq

/-- The words that are used are those of the magnitude, without zeros at the end. -/
def Zz.Represents (a : Zz) (z : ℤ) : Prop :=
  a.size = z.sign * (digits (2 ^ 64) z.natAbs).length ∧ digits (2 ^ 64) z.natAbs <+: a.n

inductive BigintError where
  | valueError (message : String)
  /-- An access out of bounds, or a counter that does not fit into an `int`. -/
  | undefined
  deriving DecidableEq

/-- The number that words make. -/
def value (n : List ℕ) : ℕ := Nat.ofDigits (2 ^ 64) n

/-- A shift of words by less than a word: the words, and the bits that are shifted out. -/
abbrev WordShift := List ℕ → ℕ → List ℕ × ℕ

/-- The words `r` make the number `v`. -/
structure AreWords (r : List ℕ) (length v : ℕ) : Prop where
  length_eq : r.length = length
  lt : ∀ w ∈ r, w < 2 ^ 64
  value_eq : value r = v

/-- What the functions of the library do: a shift to the left returns the word that is shifted out,
and a shift to the right the words of the quotient. -/
structure ShiftLib (nnShl nnShr : WordShift) : Prop where
  shl : ∀ n bits, (∀ w ∈ n, w < 2 ^ 64) → bits < 64 →
    AreWords ((nnShl n bits).1 ++ [(nnShl n bits).2]) (n.length + 1) (value n * 2 ^ bits)
  shr : ∀ n bits, (∀ w ∈ n, w < 2 ^ 64) → bits < 64 →
    AreWords (nnShr n bits).1 n.length (value n / 2 ^ bits)

section Operations
variable (nnShl nnShr : WordShift)

/-- The words that are moved up. That which is shifted out is one of them if it can be more than
zero. -/
def shlWords (n : List ℕ) (bits : ℕ) : List ℕ :=
  let (words, ci) := nnShl n bits
  if 0 < bits then words ++ [ci] else words

/-- The end of both shifts: the last word is not used if it is zero. -/
def trim (ma : ℤ) (n : List ℕ) : Zz :=
  let mres : ℤ := n.length - (if n.getLast? = some 0 then 1 else 0)
  ⟨if ma < 0 then -mres else mres, n⟩

def lshift (a : Zz) (b : ℤ) : Except BigintError Zz :=
  if a.size = 0 ∨ b = 0 then .ok a
  else if b < 0 then .error (.valueError s!"bigint.__lshift__: negative shift count: {b}")
  else
    let shw := b.toNat / 64
    let words := shlWords nnShl (a.n.take a.size.natAbs) (b.toNat % 64)
    -- the loops move the words up by `shw`, from the last one on, and set those below to zero
    if shw = 0 ∨ shw < 2 ^ 31 ∧ words.length ≤ 2 ^ 31 then
      .ok (trim a.size (replicate shw 0 ++ words))
    else .error .undefined

def rshift (a : Zz) (b : ℤ) : Except BigintError Zz :=
  if a.size = 0 ∨ b = 0 then .ok a
  else if b < 0 then .error (.valueError s!"bigint.__rshift__: negative shift count: {b}")
  else
    let shw := b.toNat / 64
    let shb := b.toNat % 64
    let mres : ℤ := a.size.natAbs - shw
    -- the word `n[mres-1]` is read, and the counter of the loop is an `int`
    if 0 < mres ∧ mres < 2 ^ 31 then
      .ok (trim a.size (nnShr ((a.n.drop shw).take mres.toNat) shb).1)
    else .error .undefined

end Operations

/-! ## Words -/

lemma value_digits (v : ℕ) : value (digits (2 ^ 64) v) = v := Nat.ofDigits_digits _ v

lemma length_digits_le_iff {v k : ℕ} : (digits (2 ^ 64) v).length ≤ k ↔ v < (2 ^ 64) ^ k :=
  Nat.digits_length_le_iff (by decide) v

lemma two_pow_eq (b : ℕ) : 2 ^ b = (2 ^ 64) ^ (b / 64) * 2 ^ (b % 64) := by
  rw [← pow_mul, ← pow_add, Nat.div_add_mod]

lemma two_pow_le (b : ℕ) : 2 ^ b ≤ (2 ^ 64) ^ (b / 64 + 1) := by
  rw [two_pow_eq, pow_succ]
  exact Nat.mul_le_mul_left _ (Nat.pow_le_pow_right (by decide) (Nat.mod_lt b (by decide)).le)

lemma pow_le_two_pow (b : ℕ) : (2 ^ 64) ^ (b / 64) ≤ 2 ^ b :=
  two_pow_eq b ▸ Nat.le_mul_of_pos_right _ (by positivity)

lemma replicate_append_digitsAppend (j k : ℕ) {v : ℕ} (hv : 0 < v) :
    replicate j 0 ++ digitsAppend (2 ^ 64) k v
      = digitsAppend (2 ^ 64) (j + k) ((2 ^ 64) ^ j * v) := by
  rw [digitsAppend, digitsAppend, Nat.digits_base_pow_mul (by decide) hv, length_append,
    length_replicate, Nat.add_sub_add_left, append_assoc]

lemma areWords_digitsAppend {k v : ℕ} (h : v < (2 ^ 64) ^ k) :
    AreWords (digitsAppend (2 ^ 64) k v) k v where
  length_eq := Nat.length_digitsAppend (by decide) k h
  lt := Nat.lt_of_mem_digitsAppend (by decide) k
  value_eq := by
    rw [value, digitsAppend, Nat.ofDigits_append_replicate_zero, Nat.ofDigits_digits]

lemma AreWords.eq_digitsAppend {r : List ℕ} {k v : ℕ} (h : AreWords r k v) :
    r = digitsAppend (2 ^ 64) k v := by
  have hlt : v < (2 ^ 64) ^ k := by
    rw [← h.value_eq, ← h.length_eq]
    exact Nat.ofDigits_lt_base_pow_length (by decide) h.lt
  have hd := areWords_digitsAppend hlt
  exact Nat.ofDigits_inj_of_len_eq (by decide : 1 < 2 ^ 64) (h.length_eq.trans hd.length_eq.symm)
    h.lt hd.lt (h.value_eq.trans hd.value_eq.symm)

section Shifts
variable {nnShl nnShr : WordShift} (hlib : ShiftLib nnShl nnShr) {n : List ℕ} {bits : ℕ}
  (hn : ∀ w ∈ n, w < 2 ^ 64) (hbits : bits < 64)
include hlib hn hbits

lemma shlWords_eq : shlWords nnShl n bits =
    digitsAppend (2 ^ 64) (n.length + if 0 < bits then 1 else 0) (value n * 2 ^ bits) := by
  have hshl := hlib.shl n bits hn hbits
  rw [shlWords]
  split_ifs with hpos
  · exact hshl.eq_digitsAppend
  · -- nothing is shifted out
    obtain rfl : bits = 0 := by omega
    have hlen : (nnShl n 0).1.length = n.length := by simpa using hshl.length_eq
    have hsum := hshl.value_eq
    rw [value, Nat.ofDigits_append, hlen, Nat.ofDigits_singleton, pow_zero, mul_one] at hsum
    have hlt : value n < (2 ^ 64) ^ n.length := Nat.ofDigits_lt_base_pow_length (by decide) hn
    have hzero : (nnShl n 0).2 = 0 := by
      by_contra hne
      have := Nat.le_mul_of_pos_right ((2 ^ 64) ^ n.length) (Nat.pos_of_ne_zero hne)
      omega
    rw [hzero, mul_zero, add_zero] at hsum
    exact AreWords.eq_digitsAppend ⟨by rw [hlen, add_zero],
      fun w hw => hshl.lt w (mem_append_left _ hw), by rw [pow_zero, mul_one]; exact hsum⟩

lemma nnShr_eq : (nnShr n bits).1 = digitsAppend (2 ^ 64) n.length (value n / 2 ^ bits) :=
  (hlib.shr n bits hn hbits).eq_digitsAppend

end Shifts

section Represents
variable {nnShl nnShr : WordShift} {a : Zz} {z : ℤ} (ha : a.Represents z)
include ha

lemma Zz.Represents.natAbs_size : a.size.natAbs = (digits (2 ^ 64) z.natAbs).length := by
  rw [ha.1, Int.natAbs_mul, Int.natAbs_natCast]
  rcases eq_or_ne z 0 with rfl | hz
  · rfl
  · rw [Int.natAbs_sign_of_ne_zero hz, one_mul]

lemma Zz.Represents.take_eq : a.n.take a.size.natAbs = digits (2 ^ 64) z.natAbs := by
  rw [ha.natAbs_size]
  exact (prefix_iff_eq_take.mp ha.2).symm

lemma Zz.Represents.size_eq_zero : a.size = 0 ↔ z = 0 := by
  rw [← Int.natAbs_eq_zero, ha.natAbs_size, length_eq_zero_iff, Nat.digits_eq_nil_iff_eq_zero,
    Int.natAbs_eq_zero]

/-- At most one word of the array is not used. -/
theorem Zz.Represents.trim (hz : z ≠ 0) {k v : ℕ} (hk : 0 < k)
    (hle : (digits (2 ^ 64) v).length ≤ k) (hge : k ≤ (digits (2 ^ 64) v).length + 1) :
    (trim a.size (digitsAppend (2 ^ 64) k v)).Represents (z.sign * v) := by
  have habs : (z.sign * v).natAbs = v := by
    rw [Int.natAbs_mul, Int.natAbs_sign_of_ne_zero hz, one_mul, Int.natAbs_natCast]
  have hmres : ((digitsAppend (2 ^ 64) k v).length
      - (if (digitsAppend (2 ^ 64) k v).getLast? = some 0 then 1 else 0) : ℤ)
        = (digits (2 ^ 64) v).length := by
    rw [digitsAppend]
    rcases Nat.lt_or_ge (digits (2 ^ 64) v).length k with hlt | hge
    · rw [show k - (digits (2 ^ 64) v).length = 1 by omega]
      simp
    · have hv : v ≠ 0 := fun h => by simp [h] at hge; omega
      rw [Nat.sub_eq_zero_of_le hge, replicate_zero, append_nil, if_neg, sub_zero]
      rw [getLast?_eq_some_getLast (Nat.digits_ne_nil_iff_ne_zero.mpr hv)]
      exact fun h => Nat.getLast_digit_ne_zero _ hv (Option.some.inj h)
  rw [Represents, habs]
  refine ⟨?_, prefix_append _ _⟩
  rw [Builtin.trim, hmres, Int.sign_mul, Int.sign_sign]
  dsimp only
  have hsize := ha.size_eq_zero.not.mpr hz
  rcases eq_or_ne v 0 with rfl | hv
  · simp
  · rw [Int.sign_natCast_of_ne_zero hv, mul_one]
    rw [ha.1] at hsize ⊢
    rcases lt_or_gt_of_ne hz with h | h
    · rw [Int.sign_eq_neg_one_of_neg h] at hsize ⊢
      split_ifs <;> omega
    · rw [Int.sign_eq_one_of_pos h] at hsize ⊢
      split_ifs <;> omega

/-! ## Shifts -/

variable (hlib : ShiftLib nnShl nnShr)
include hlib

lemma Zz.Represents.exists_lshift (hsize : a.size.natAbs < 2 ^ 31) {b : ℕ}
    (hb : b / 64 < 2 ^ 31) : ∃ r, lshift nnShl a b = .ok r ∧ r.Represents (z * 2 ^ b) := by
  by_cases hzero : z = 0 ∨ b = 0
  · refine ⟨a, if_pos (by rw [ha.size_eq_zero]; exact_mod_cast hzero), ?_⟩
    rcases hzero with rfl | rfl
    · rwa [zero_mul]
    · rwa [pow_zero, mul_one]
  obtain ⟨hz, hb0⟩ := not_or.mp hzero
  have hsize0 := ha.size_eq_zero.not.mpr hz
  obtain ⟨m, hm, hlen⟩ : ∃ m, a.size.natAbs = m ∧ (digits (2 ^ 64) z.natAbs).length = m :=
    ⟨_, rfl, ha.natAbs_size.symm⟩
  obtain ⟨c, hc, hcases⟩ : ∃ c, (if 0 < b % 64 then 1 else 0) = c ∧
      (b % 64 = 0 ∧ c = 0 ∨ c = 1) := ⟨_, rfl, by split_ifs <;> omega⟩
  have hfits : (digits (2 ^ 64) (z.natAbs * 2 ^ (b % 64))).length ≤ m + c := by
    have hmag := length_digits_le_iff.mp hlen.le
    rw [length_digits_le_iff]
    rcases hcases with ⟨h, rfl⟩ | rfl
    · rwa [h, pow_zero, mul_one, add_zero]
    · rw [pow_succ]
      exact Nat.mul_lt_mul'' hmag (Nat.pow_lt_pow_right (by decide) (Nat.mod_lt b (by decide)))
  have hrun : lshift nnShl a b = .ok (Builtin.trim a.size
      (digitsAppend (2 ^ 64) (b / 64 + (m + c)) (z.natAbs * 2 ^ b))) := by
    rw [lshift, if_neg (by omega), if_neg (by omega)]
    simp only [Int.toNat_natCast, ha.take_eq]
    rw [shlWords_eq hlib (fun w => Nat.digits_lt_base (by decide)) (Nat.mod_lt b (by decide)),
      value_digits, hc, hlen]
    rw [if_pos, replicate_append_digitsAppend _ _ (by positivity), Nat.mul_left_comm, ← two_pow_eq]
    rw [Nat.length_digitsAppend (by decide) _ (length_digits_le_iff.mp hfits)]
    omega
  have hbig : m - 1 + b / 64 < (digits (2 ^ 64) (z.natAbs * 2 ^ b)).length := by
    rw [Nat.lt_digits_length_iff (by decide), pow_add]
    refine Nat.mul_le_mul ?_ (pow_le_two_pow b)
    rw [← Nat.lt_digits_length_iff (by decide)]
    omega
  have hrep := ha.trim hz (k := b / 64 + (m + c)) (v := z.natAbs * 2 ^ b) (by omega) ?_ (by omega)
  · rw [Nat.cast_mul, ← mul_assoc, Int.sign_mul_natAbs, Nat.cast_pow] at hrep
    exact ⟨_, hrun, hrep⟩
  · rw [length_digits_le_iff] at hfits ⊢
    rw [two_pow_eq, Nat.mul_left_comm, pow_add]
    exact Nat.mul_lt_mul_of_pos_left hfits (by positivity)

lemma Zz.Represents.exists_rshift (hsize : a.size.natAbs < 2 ^ 31) {b : ℕ}
    (hb : b / 64 < a.size.natAbs) :
    ∃ r, rshift nnShr a b = .ok r ∧ r.Represents (z.sign * (z.natAbs / 2 ^ b : ℕ)) := by
  have hz : z ≠ 0 := ha.size_eq_zero.not.mp (by omega)
  rcases eq_or_ne b 0 with rfl | hb0
  · refine ⟨a, if_pos (.inr rfl), ?_⟩
    rwa [pow_zero, Nat.div_one, Int.sign_mul_natAbs]
  obtain ⟨m, hm, hlen⟩ : ∃ m, a.size.natAbs = b / 64 + m ∧
      (digits (2 ^ 64) z.natAbs).length = b / 64 + m :=
    ⟨a.size.natAbs - b / 64, by omega, by rw [← ha.natAbs_size]; omega⟩
  have hrun : rshift nnShr a b
      = .ok (Builtin.trim a.size (digitsAppend (2 ^ 64) m (z.natAbs / 2 ^ b))) := by
    rw [rshift, if_neg (by omega), if_neg (by omega)]
    simp only [Int.toNat_natCast]
    rw [if_pos (by omega), show (a.size.natAbs - (b / 64 : ℕ) : ℤ).toNat = m by omega, take_drop,
      ← hm, ha.take_eq, nnShr_eq hlib (fun w hw => Nat.digits_lt_base (by decide)
        (mem_of_mem_drop hw)) (Nat.mod_lt b (by decide)), value,
          ← Nat.self_div_pow_eq_ofDigits_drop _ _ (by decide),
      Nat.div_div_eq_div_mul, ← two_pow_eq, length_drop, hlen, Nat.add_sub_cancel_left]
  refine ⟨_, hrun, ha.trim hz (by omega) ?_ ?_⟩
  · rw [length_digits_le_iff]
    refine Nat.div_lt_of_lt_mul ((length_digits_le_iff.mp hlen.le).trans_le ?_)
    rw [pow_add]
    exact Nat.mul_le_mul_right _ (pow_le_two_pow b)
  · rcases Nat.lt_or_ge m 2 with hlt | hge
    · omega
    · have hbig : m - 2 < (digits (2 ^ 64) (z.natAbs / 2 ^ b)).length := by
        rw [Nat.lt_digits_length_iff (by decide), Nat.le_div_iff_mul_le (by positivity)]
        refine (Nat.mul_le_mul_left _ (two_pow_le b)).trans ?_
        rw [← pow_add, ← Nat.lt_digits_length_iff (by decide)]
        omega
      omega

end Represents

/-- A shift to the left is right, and a shift to the right if a word is left. -/
theorem shift_correct {nnShl nnShr : WordShift} (hlib : ShiftLib nnShl nnShr) {a : Zz} {z : ℤ}
    (ha : a.Represents z) (hsize : a.size.natAbs < 2 ^ 31) {b : ℕ} (hb : b / 64 < 2 ^ 31) :
    (∃ r, lshift nnShl a b = .ok r ∧ r.Represents (z * 2 ^ b)) ∧
      ((∃ r, rshift nnShr a b = .ok r ∧ r.Represents (z.sign * (z.natAbs / 2 ^ b : ℕ))) ↔
        z = 0 ∨ b / 64 < a.size.natAbs) := by
  refine ⟨ha.exists_lshift hlib hsize hb, ?_, ?_⟩
  · rintro ⟨r, hrun, -⟩
    by_contra h
    have hsize0 := ha.size_eq_zero
    rw [rshift, if_neg (by omega), if_neg (by omega)] at hrun
    simp only [Int.toNat_natCast] at hrun
    rw [if_neg (by omega)] at hrun
    cases hrun
  · rintro (rfl | h)
    · exact ⟨a, if_pos (.inl (ha.size_eq_zero.mpr rfl)), by simpa using ha⟩
    · exact ha.exists_rshift hlib hsize h

/-- Shifts of words by way of the numbers that they make. -/
def exampleShl : WordShift := fun n bits =>
  let words := digitsAppend (2 ^ 64) (n.length + 1) (value n * 2 ^ bits)
  (words.dropLast, words.getLastD 0)

def exampleShr : WordShift := fun n bits =>
  (digitsAppend (2 ^ 64) n.length (value n / 2 ^ bits), 0)

lemma shiftLib_example : ShiftLib exampleShl exampleShr := by
  constructor
  · intro n bits hn hbits
    have hlt : value n * 2 ^ bits < (2 ^ 64) ^ (n.length + 1) := by
      rw [pow_succ]
      exact Nat.mul_lt_mul'' (Nat.ofDigits_lt_base_pow_length (by decide) hn)
        (Nat.pow_lt_pow_right (by decide) hbits)
    have hwords := areWords_digitsAppend hlt
    have hne : digitsAppend (2 ^ 64) (n.length + 1) (value n * 2 ^ bits) ≠ [] :=
      ne_nil_of_length_pos (by rw [hwords.length_eq]; exact Nat.succ_pos _)
    simp only [exampleShl]
    rwa [getLastD_eq_getLast?, getLast?_eq_some_getLast hne, Option.getD_some,
      dropLast_append_getLast hne]
  · intro n bits hn hbits
    exact areWords_digitsAppend ((Nat.div_le_self _ _).trans_lt
      (Nat.ofDigits_lt_base_pow_length (by decide) hn))

/-- A negative number of two words is shifted by more than a word. -/
theorem shift_correct_neg :
    (∃ r, lshift exampleShl ⟨-2, [5, 6]⟩ 65 = .ok r ∧ r.Represents (-(5 + 6 * 2 ^ 64) * 2 ^ 65)) ∧
    ∃ r, rshift exampleShr ⟨-2, [5, 6]⟩ 65 = .ok r ∧ r.Represents (-3) := by
  have h := shift_correct shiftLib_example (a := ⟨-2, [5, 6]⟩) (z := -(5 + 6 * 2 ^ 64)) (b := 65)
    (by norm_num [Zz.Represents]) (by decide) (by decide)
  refine ⟨h.1, ?_⟩
  obtain ⟨r, hr, hrep⟩ := h.2.mpr (.inr (by decide))
  exact ⟨r, hr, by norm_num at hrep; exact hrep⟩

/-- A shift of all words reads in front of the array, whatever the library does. -/
theorem rshift_out_of_bounds : (⟨1, [1]⟩ : Zz).Represents 1 ∧
    ∀ nnShr, rshift nnShr ⟨1, [1]⟩ 64 = .error .undefined :=
  ⟨by norm_num [Zz.Represents], fun _ => rfl⟩

end Acton.Builtin
