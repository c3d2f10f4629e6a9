import Acton.Builtin.Str.Correctness

/-!
# The strings that the methods compute

`Acton.Builtin.Str.Correctness` says when the strings that operations compute are texts. Here it is
said which texts they are: the characters of the argument without the stripped ones, and the text in
which the occurrences that come first are replaced.
-/

namespace Acton.Builtin
open Utf8 List
section Strip
variable {cs ds : List Char} {o : Option Str}

lemma rstrip_bind_eq_iff {f : Str → Except StrError Str} {w : List Char}
    (hcs : ∀ c ∈ cs, ¬ Misread c) (hds : ∀ c ∈ ds, ¬ Misread c)
    (ho : o.getD whitespaceStr = ofChars ds)
    (hf : f (ofChars (cs.rdropWhile (· ∈ ds))) = .ok (ofChars w))
    (hzero : ∀ s, s.nchars = 0 → f s = .ok s) :
    rstrip (ofChars cs) o >>= f = .ok (ofChars w) ↔ cs = [] ∨ ∃ c ∈ cs, c ∉ ds := by
  constructor
  · intro h
    by_contra hsafe
    push Not at hsafe
    obtain ⟨c, cs, rfl⟩ := exists_cons_of_ne_nil hsafe.1
    rw [rstrip_of_forall_mem (hcs c (by simp)) hds ho hsafe.2] at h
    exact StrOp.stub_ne_ofChars c w (Except.ok.inj ((hzero _ rfl).symm.trans h))
  · intro hsafe
    rw [rstrip_of_exists hcs hds ho hsafe]
    exact hf

end Strip
section Replace
variable {cs ds es : List Char} {count : Option ℤ}

/-- The number of occurrences that `replace` should replace. -/
def toReplace (count : Option ℤ) (n : ℕ) : ℕ :=
  match count with
  | none => n
  | some k => if k < 0 then n else min k.toNat n

lemma le_of_replace {s old new t : Str} (h : replace s old new count = .ok t)
    (hne : replaceCount s old count ≠ 0) :
    s.nbytes + replaceCount s old count * (new.nbytes - old.nbytes) ≤ intMax := by
  by_contra hlt
  rw [not_le] at hlt
  simp only [replace, if_neg hne, if_pos hlt] at h
  cases h

lemma pieces_inj {xs : List (List Char)} {r : List Char} (hlen : es.length = ds.length)
    (h : pieces ds xs r = pieces es xs r) : es = ds ∨ xs = [] := by
  cases xs with
  | nil => exact .inr rfl
  | cons x xs =>
    simp only [pieces, flatMap_cons, append_assoc, append_cancel_left_eq] at h
    exact .inl (append_inj h hlen.symm).1.symm

/-- A negative count makes no round: the text is copied. -/
theorem replace_of_neg {k : ℤ} (hk : -2 ^ 31 ≤ k) (hneg : k < 0) (hlen : pos cs ≤ intMax)
    (hc : 0 ≤ Builtin.count (ofChars cs) (ofChars ds)) {w : List Char} :
    replace (ofChars cs) (ofChars ds) (ofChars es) (some k) = .ok (ofChars w) ↔
      w = cs ∧ pos es = pos ds ∧ es.length = ds.length := by
  have hcount : replaceCount (ofChars cs) (ofChars ds) (some k) = k := by
    rw [replaceCount_eq (by simp; omega), Option.getD_some, min_eq_left (by omega)]
  simp only [replace, hcount, if_neg hneg.ne, Int.toNat_eq_zero.mpr hneg.le, nbytes_ofChars,
    nchars_ofChars, replaceLoop_zero]
  constructor
  · intro h
    split at h
    · cases h
    rw [newStr] at h
    split at h
    · rename_i hfill
      have hstr := Except.ok.inj h
      obtain rfl := encode_inj (congrArg Str.str hstr)
      have hbytes : k * (pos es - pos ds) = 0 := by
        have := hfill.2
        simp only [pos] at this ⊢
        omega
      have hchars : k * ((es.length : ℤ) - ds.length) = 0 := by
        have := congrArg Str.nchars hstr
        simp only [nchars_ofChars] at this
        omega
      rw [mul_eq_zero] at hbytes hchars
      exact ⟨rfl, by omega, by omega⟩
    · cases h
  · rintro ⟨rfl, hbytes, hchars⟩
    rw [if_neg (by simp [hbytes, hlen])]
    exact newStr_eq (by simp [hchars]) (by simp [hbytes]) rfl

end Replace
end Acton.Builtin
