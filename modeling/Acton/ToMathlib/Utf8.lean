import Mathlib.Tactic

/-!
# UTF-8

Facts about the encoding of a list of characters that a scanner of the bytes relies on: the first
byte of a character tells how long it is, the other bytes are continuation bytes, and so an encoded
text that occurs in another one starts and ends between characters
(`exists_of_encode_eq_append`).
-/

namespace Utf8
open List

/-- The encoding of a text. -/
def encode (cs : List Char) : List UInt8 := cs.flatMap String.utf8EncodeChar

/-- The bytes `10xxxxxx`. -/
def IsCont (b : UInt8) : Prop := b >>> 6 = 2
instance : DecidablePred IsCont := fun b => inferInstanceAs (Decidable (b >>> 6 = 2))

@[simp]
lemma encode_nil : encode [] = [] := rfl

@[simp]
lemma encode_cons (c : Char) (cs : List Char) :
    encode (c :: cs) = String.utf8EncodeChar c ++ encode cs := rfl

@[simp]
lemma encode_append (cs ds : List Char) : encode (cs ++ ds) = encode cs ++ encode ds :=
  flatMap_append

lemma isCont_iff {b : UInt8} : IsCont b ↔ 128 ≤ b.toNat ∧ b.toNat < 192 := by
  have hlt := b.toNat_lt
  rw [IsCont, ← UInt8.toNat_inj, UInt8.toNat_shiftRight]
  simp only [UInt8.reduceToNat, Nat.shiftRight_eq_div_pow, Nat.reduceMod, Nat.reducePow]
  omega

/-- The first byte of a character, the range it is in, and the number of continuation bytes. -/
theorem exists_lead (c : Char) : ∃ b t, String.utf8EncodeChar c = b :: t ∧ (∀ x ∈ t, IsCont x) ∧
    (b.toNat = c.toNat ∧ b.toNat < 128 ∧ t.length = 0 ∨
      128 ≤ c.toNat ∧ 192 ≤ b.toNat ∧ b.toNat < 224 ∧ t.length = 1 ∨
      128 ≤ c.toNat ∧ 224 ≤ b.toNat ∧ b.toNat < 240 ∧ t.length = 2 ∨
      128 ≤ c.toNat ∧ 240 ≤ b.toNat ∧ b.toNat < 248 ∧ t.length = 3) := by
  have hcont : ∀ n, IsCont (UInt8.ofNat (n % 64 + 128)) := by
    intro n
    rw [isCont_iff, UInt8.toNat_ofNat']
    omega
  have hv : c.val.toNat = c.toNat := rfl
  fun_cases String.utf8EncodeChar c with
  | case1 v h =>
    refine ⟨UInt8.ofNat v, [], rfl, by simp, .inl ?_⟩
    simp only [UInt8.toNat_ofNat', length_nil, and_true]
    omega
  | case2 v h1 h2 =>
    refine ⟨UInt8.ofNat (v / 64 % 32 + 192), [_], rfl, ?_, .inr (.inl ?_)⟩
    · simpa only [forall_mem_singleton] using hcont _
    · simp only [UInt8.toNat_ofNat', length_singleton, and_true]
      omega
  | case3 v h1 h2 h3 =>
    refine ⟨UInt8.ofNat (v / 4096 % 16 + 224), [_, _], rfl, ?_, .inr (.inr (.inl ?_))⟩
    · simp only [mem_cons, not_mem_nil, or_false, forall_eq_or_imp, forall_eq, hcont, and_self]
    · simp only [UInt8.toNat_ofNat', length_cons, length_nil, and_true]
      omega
  | case4 v h1 h2 h3 =>
    refine ⟨UInt8.ofNat (v / 262144 % 8 + 240), [_, _, _], rfl, ?_, .inr (.inr (.inr ?_))⟩
    · simp only [mem_cons, not_mem_nil, or_false, forall_eq_or_imp, forall_eq, hcont, and_self]
    · simp only [UInt8.toNat_ofNat', length_cons, length_nil, and_true]
      omega

variable {t : List UInt8}

lemma not_isCont_lead {c : Char} {b : UInt8} (h : String.utf8EncodeChar c = b :: t) :
    ¬ IsCont b := by
  obtain ⟨b', t', h', -, hrange⟩ := exists_lead c
  obtain ⟨rfl, rfl⟩ := List.cons.inj (h.symm.trans h')
  rw [isCont_iff]
  omega

variable {x y : List UInt8}

/-- A character is not a prefix of another one. -/
theorem encodeChar_append_inj {c d : Char}
    (h : String.utf8EncodeChar c ++ x = String.utf8EncodeChar d ++ y) : c = d ∧ x = y := by
  have hdec : ∀ (c : Char) (x : List UInt8),
      (String.utf8EncodeChar c ++ x).toByteArray.utf8DecodeChar? 0 = some c := by
    intro c x
    rw [toByteArray_append]
    exact ByteArray.utf8DecodeChar?_utf8EncodeChar_append
  have hcd : c = d := Option.some.inj ((hdec c x).symm.trans (h ▸ hdec d y))
  subst hcd
  exact ⟨rfl, append_cancel_left h⟩

variable {cs ds : List Char}

/-- What follows an encoded text in an encoded text is an encoded text. -/
theorem exists_of_encode_eq_encode_append {x : List UInt8} (h : encode cs = encode ds ++ x) :
    ∃ es, cs = ds ++ es ∧ x = encode es := by
  induction ds generalizing cs with
  | nil => exact ⟨cs, rfl, h.symm⟩
  | cons d ds ih =>
    cases cs with
    | nil =>
      obtain ⟨b, t, hd, -⟩ := exists_lead d
      simp [hd] at h
    | cons c cs =>
      rw [encode_cons, encode_cons, append_assoc] at h
      obtain ⟨rfl, hrest⟩ := encodeChar_append_inj h
      obtain ⟨es, rfl, rfl⟩ := ih hrest
      exact ⟨es, rfl, rfl⟩

lemma encode_inj (h : encode cs = encode ds) : cs = ds := by
  obtain ⟨es, rfl, hes⟩ := exists_of_encode_eq_encode_append (h.trans (append_nil _).symm)
  cases es with
  | nil => simp
  | cons e es =>
    obtain ⟨b, t, he, -⟩ := exists_lead e
    simp [he] at hes

/-- An encoded text that occurs in another one starts between two characters: a first byte is not a
continuation byte. -/
theorem exists_of_encode_eq_append (hds : ds ≠ []) (h : encode cs = x ++ encode ds ++ y) :
    ∃ cs1 cs2, cs = cs1 ++ ds ++ cs2 ∧ x = encode cs1 ∧ y = encode cs2 := by
  induction cs generalizing x with
  | nil =>
    obtain ⟨d, ds, rfl⟩ := exists_cons_of_ne_nil hds
    obtain ⟨b, t, hd, -⟩ := exists_lead d
    simp [hd] at h
  | cons c cs ih =>
    cases x with
    | nil =>
      obtain ⟨es, hes, rfl⟩ := exists_of_encode_eq_encode_append h
      exact ⟨[], es, by simpa using hes, rfl, rfl⟩
    | cons b x =>
      rw [encode_cons, append_assoc] at h
      rcases append_eq_append_iff.mp h with ⟨z, hz, hrest⟩ | ⟨z, hz, hrest⟩
      · -- the occurrence starts after the first character
        rw [← append_assoc] at hrest
        obtain ⟨cs1, cs2, rfl, rfl, rfl⟩ := ih hrest
        exact ⟨c :: cs1, cs2, rfl, by rw [hz]; rfl, rfl⟩
      · -- the occurrence starts inside of the first character, or right after it
        obtain ⟨d, ds, rfl⟩ := exists_cons_of_ne_nil hds
        obtain ⟨b', t, hd, -⟩ := exists_lead d
        cases z with
        | nil =>
          rw [append_nil] at hz
          rw [nil_append] at hrest
          obtain ⟨es, hes, rfl⟩ := exists_of_encode_eq_encode_append hrest.symm
          exact ⟨[c], es, by simp [hes], by simp [hz], rfl⟩
        | cons b'' z =>
          exfalso
          obtain ⟨b0, t0, hc, hcont, -⟩ := exists_lead c
          rw [hc, cons_append, List.cons.injEq] at hz
          simp only [encode_cons, hd, cons_append, append_assoc, List.cons.injEq] at hrest
          refine not_isCont_lead hd ?_
          rw [hrest.1]
          exact hcont _ (by simp [hz.2])

/-! ### Texts that are cut -/

/-- The bytes at the start of the first character of a text that come before its last byte. -/
def IsTail (t : List UInt8) : List Char → Prop
  | [] => t = []
  | c :: _ => ∃ u, u ≠ [] ∧ String.utf8EncodeChar c = t ++ u

lemma isTail_nil (cs : List Char) : IsTail [] cs := by
  cases cs with
  | nil => rfl
  | cons c cs =>
    obtain ⟨b, t, hc, -⟩ := exists_lead c
    exact ⟨b :: t, by simp, hc⟩

variable {cs : List Char}

/-- What is left of a tail that is cut again. -/
theorem IsTail.of_append {t u : List UInt8} (h : IsTail (t ++ u) cs) : IsTail t cs := by
  cases cs with
  | nil => exact (append_eq_nil_iff.mp h).1
  | cons c cs =>
    obtain ⟨v, hv, hc⟩ := h
    exact ⟨u ++ v, by simp [hv], by rw [hc, append_assoc]⟩

lemma IsTail.length_lt (h : IsTail t cs) : t.length < 4 := by
  cases cs with
  | nil => simp [show t = [] from h]
  | cons c cs =>
    obtain ⟨u, hu, hc⟩ := h
    have hlen := congrArg List.length hc
    have hle := c.utf8Size_le_four
    have hpos := length_pos_of_ne_nil hu
    rw [String.length_utf8EncodeChar, length_append] at hlen
    omega

/-- A part of a character with more than one byte has no byte of ASCII. -/
theorem IsTail.not_ascii (h : IsTail t cs) {x : UInt8} (hx : x ∈ t) : 128 ≤ x.toNat := by
  cases cs with
  | nil => simp [show t = [] from h] at hx
  | cons c cs =>
    obtain ⟨u, hu, hc⟩ := h
    obtain ⟨b, r, hlead, hcont, hrange⟩ := exists_lead c
    cases t with
    | nil => simp at hx
    | cons b' t =>
      rw [hlead, cons_append] at hc
      obtain ⟨rfl, hr⟩ := List.cons.inj hc
      have hlen := congrArg List.length hr
      have hpos := length_pos_of_ne_nil hu
      rw [length_append] at hlen
      rcases mem_cons.mp hx with rfl | hx
      · omega
      · exact (isCont_iff.mp (hcont x (by simp [hr, hx]))).1

lemma IsTail.decode_eq_none (h : IsTail t cs) : t.toByteArray.utf8DecodeChar? 0 = none := by
  cases cs with
  | nil =>
    rw [show t = [] from h]
    rfl
  | cons c cs =>
    obtain ⟨u, hu, hc⟩ := h
    by_contra hne
    obtain ⟨d, hd⟩ := Option.ne_none_iff_exists'.mp hne
    -- the decoder would find the same character in the whole encoding, but not enough bytes for it
    have hwhole : (String.utf8EncodeChar c).toByteArray.utf8DecodeChar? 0 = some d := by
      rw [hc, toByteArray_append]
      exact ByteArray.utf8DecodeChar?_append_eq_some hd u.toByteArray
    have hcd : c = d := by
      have hself := ByteArray.utf8DecodeChar?_utf8EncodeChar_append (b := ByteArray.empty) (c := c)
      rw [ByteArray.append_empty, hwhole] at hself
      exact (Option.some.inj hself).symm
    have hle := ByteArray.le_size_of_utf8DecodeChar?_eq_some hd
    have hlen := congrArg List.length hc
    have hpos := length_pos_of_ne_nil hu
    rw [String.length_utf8EncodeChar, length_append, hcd] at hlen
    rw [size_toByteArray] at hle
    omega

/-- The first bytes of an encoded text are an encoded text and a tail. -/
theorem exists_isTail (h : encode cs = x ++ y) :
    ∃ ds es t, cs = ds ++ es ∧ x = encode ds ++ t ∧ IsTail t es := by
  induction cs generalizing x with
  | nil =>
    obtain ⟨rfl, rfl⟩ := append_eq_nil_iff.mp h.symm
    exact ⟨[], [], [], rfl, rfl, rfl⟩
  | cons c cs ih =>
    rw [encode_cons] at h
    rcases append_eq_append_iff.mp h with ⟨z, rfl, hz⟩ | ⟨z, hz, rfl⟩
    · obtain ⟨ds, es, t, rfl, rfl, ht⟩ := ih hz
      exact ⟨c :: ds, es, t, rfl, by rw [encode_cons, append_assoc], ht⟩
    · by_cases hnil : z = []
      · rw [hnil, append_nil] at hz
        exact ⟨[c], cs, [], rfl, by simp [hz], isTail_nil cs⟩
      · exact ⟨[], c :: cs, x, rfl, rfl, z, hnil, hz⟩

lemma IsTail.eq_nil (h : IsTail t cs) (ht : encode cs = t) : cs = [] := by
  cases cs with
  | nil => rfl
  | cons c cs =>
    obtain ⟨u, hu, hc⟩ := h
    rw [encode_cons, hc] at ht
    have hlen := congrArg List.length ht
    have hpos := length_pos_of_ne_nil hu
    simp only [length_append] at hlen
    omega

end Utf8
