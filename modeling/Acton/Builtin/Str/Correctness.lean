import Acton.Builtin.Str.Splitting
import Acton.ToMathlib.Trace

/-!
# Correctness of strings

A string is correct if its bytes encode a text, its two lengths are those of the text, and
iteration, indexing and slices of one character all give that text. `str_correct` says which
operations keep all strings of a program correct: the ones that do not are
* literals with a character whose first byte has a wrong length in `byte_length2`,
* slices with a negative step that take a character from the empty string,
* right strips that remove the whole string,
* `replace` with a negative count, or with the empty string between the bytes of a character,
* `split` at a separator with `maxsplit` 0.

The result is about programs that stay in memory (`StrOp.InMemory`): sizes fit into an `int`, and a
slice of a string that is not ASCII does not step out of its buffer. Outside of these the behaviour
of the code is undefined; the model has unbounded sizes there, and reads zeros.

## Main results

* `StrOp.meets_run_iff`: an operation on correct strings is right exactly if it is safe.
* `str_correct`: the same for programs.
* `str_incorrect_dfbf`: a literal that is not safe.
-/

namespace Acton.Builtin
open Utf8 List Trace

/-- The lengths and the three ways to read a string agree with a text. -/
def Str.Correct (s : Str) : Prop := ∃ cs, s = ofChars cs ∧ Views s cs

lemma ofChars_inj {cs ds : List Char} (h : ofChars cs = ofChars ds) : cs = ds :=
  encode_inj (congrArg Str.str h)

lemma correct_iff {s : Str} : s.Correct ↔ ∃ cs, s = ofChars cs ∧ Readable cs := by
  constructor
  · rintro ⟨cs, rfl, h⟩
    exact ⟨cs, rfl, views_iff.mp h⟩
  · rintro ⟨cs, rfl, h⟩
    exact ⟨cs, rfl, views_iff.mpr h⟩

lemma correct_ofChars_iff {cs : List Char} : (ofChars cs).Correct ↔ Readable cs := by
  rw [correct_iff]
  constructor
  · rintro ⟨ds, heq, h⟩
    rwa [ofChars_inj heq]
  · exact fun h => ⟨cs, rfl, h⟩

lemma not_correct_of_ne {s : Str} (h : ∀ w, s ≠ ofChars w) : ¬ s.Correct := by
  rintro ⟨w, hw, -⟩
  exact h w hw

lemma Readable.not_misread {cs : List Char} (h : Readable cs) : ∀ c ∈ cs, ¬ Misread c :=
  fun c hc => (h c hc).2

lemma Readable.mono {cs ds : List Char} (h : Readable cs) (hds : ∀ c ∈ ds, c ∈ cs) : Readable ds :=
  fun c hc => h c (hds c hc)

lemma whitespaceStr_eq : whitespaceStr = ofChars [' ', '\t', '\n', '\r', '\x0b', '\x0c'] := by
  decide

lemma correct_whitespaceStr : whitespaceStr.Correct := by
  rw [whitespaceStr_eq, correct_ofChars_iff]
  decide

lemma exists_getD {o : Option Str} (h : ∀ t ∈ o, t.Correct) :
    ∃ ds, o.getD whitespaceStr = ofChars ds ∧ Readable ds := by
  cases o with
  | none => exact correct_iff.mp correct_whitespaceStr
  | some t => exact correct_iff.mp (h t rfl)

lemma exists_map_ofChars {lst : List Str} (h : ∀ s ∈ lst, s.Correct) :
    ∃ ws : List (List Char), lst = ws.map ofChars ∧ ∀ w ∈ ws, Readable w := by
  induction lst with
  | nil => exact ⟨[], rfl, by simp⟩
  | cons s lst ih =>
    obtain ⟨w, rfl, hw⟩ := correct_iff.mp (h s (by simp))
    obtain ⟨ws, rfl, hws⟩ := ih fun t ht => h t (by simp [ht])
    exact ⟨w :: ws, rfl, by simpa using ⟨hw, hws⟩⟩

/-- The operations of programs on strings. -/
inductive StrOp
  | lit (cs : List Char)
  | getitem (s : Str) (i : ℤ)
  | getslice (s : Str) (slc : Slice)
  | add (s t : Str)
  | join (s : Str) (lst : List Str)
  | split (s : Str) (sep : Option Str) (maxsplit : Option ℤ)
  | partition (s sep : Str)
  | lstrip (s : Str) (cs : Option Str)
  | rstrip (s : Str) (cs : Option Str)
  | strip (s : Str) (cs : Option Str)
  | replace (s old new : Str) (count : Option ℤ)
  | iterate (s : Str)
  deriving DecidableEq, Repr

variable {lib : Utf8proc}
namespace StrOp

/-- The strings that an operation is applied to. -/
def args : StrOp → List Str
  | .lit _ => []
  | .getitem s _ | .getslice s _ | .iterate s => [s]
  | .add s t | .partition s t => [s, t]
  | .join s lst => s :: lst
  | .split s sep _ => s :: sep.toList
  | .lstrip s cs | .rstrip s cs | .strip s cs => s :: cs.toList
  | .replace s old new _ => [s, old, new]

/-- The strings that an operation returns. -/
def run (lib : Utf8proc) : StrOp → Except StrError (List Str)
  | .lit cs => (toStr lib (encode cs)).map ([·])
  | .getitem s i => (Builtin.getitem s i).map ([·])
  | .getslice s slc => (Builtin.getslice s slc).map ([·])
  | .add s t => (Builtin.add s t).map ([·])
  | .join s lst => (Builtin.join s lst).map ([·])
  | .split s sep maxsplit => Builtin.split lib s sep maxsplit
  | .partition s sep => (Builtin.partition s sep).map fun (ls, ssep, rs) => [ls, ssep, rs]
  | .lstrip s cs => (Builtin.lstrip s cs).map ([·])
  | .rstrip s cs => (Builtin.rstrip s cs).map ([·])
  | .strip s cs => (Builtin.strip s cs).map ([·])
  | .replace s old new count => (Builtin.replace s old new count).map ([·])
  | .iterate s => Builtin.iterate s

/-- Some character stays, if there is one. -/
def StripSafe (s : Str) (cs : Option Str) : Prop :=
  ∀ w ds, s = ofChars w → cs.getD whitespaceStr = ofChars ds → w = [] ∨ ∃ c ∈ w, c ∉ ds

/-- The operations that keep all strings correct. -/
def Safe : StrOp → Prop
  | .lit cs => ∀ c ∈ cs.takeWhile (fun c => c ≠ '\x00'), ¬ Misread c
  | .getslice s slc => s.nchars = 0 → ¬ slc.PastEmpty
  | .rstrip s cs | .strip s cs => StripSafe s cs
  | .split s sep maxsplit => SplitSafe s sep maxsplit
  | .replace s old new count => ReplaceSafe s old new count
  | _ => True

/-- The sizes fit into an `int`. After the last character of a slice the code moves on by the step,
and reads the bytes that it passes if the string is not ASCII. This ends at most at the final zero
of the buffer. -/
def InMemory : StrOp → Prop
  | .lit cs => pos cs ≤ intMax
  | .getslice s slc => s.isascii ∨ ∀ slen start step,
      normalizeSlice slc s.nchars = .ok (slen, start, step) → slen ≠ 0 →
        0 ≤ start + slen * step ∧ start + slen * step ≤ s.nchars + 1
  | .add s t => s.nbytes + t.nbytes ≤ intMax
  | .join s lst => (lst.map Str.nbytes).sum + (lst.length - 1) * s.nbytes ≤ intMax
  | .replace _ _ _ count => ∀ k ∈ count, -2 ^ 31 ≤ k ∧ k < 2 ^ 31
  | _ => True

/-- What the operation returns is correct, and it does return. -/
def Meets (r : Except StrError (List Str)) : Prop :=
  r ≠ .error .undefined ∧ ∀ rs, r = .ok rs → ∀ s ∈ rs, s.Correct

lemma meets_ok {rs : List Str} : Meets (.ok rs) ↔ ∀ s ∈ rs, s.Correct := by
  simp [Meets]

lemma meets_map_ok {s : Str} :
    Meets ((Except.ok s : Except StrError Str).map ([·])) ↔ s.Correct := by
  simp [Except.map, meets_ok]

lemma not_meets_undefined : ¬ Meets (.error .undefined) := fun h => h.1 rfl

lemma meets_error {e : StrError} (he : e ≠ .undefined) : Meets (.error e) :=
  ⟨by simpa using he, fun rs h => by cases h⟩

/-! ### The single operations -/

section
variable {cs ds : List Char}

lemma meets_lit_iff (hlib : lib.Decodes) : Meets ((StrOp.lit cs).run lib) ↔
    (StrOp.lit cs).Safe := by
  rw [run, toStr_encode hlib, meets_map_ok, correct_ofChars_iff, Safe, Readable]
  refine forall₂_congr fun c hc => and_iff_right ?_
  exact of_decide_eq_true (mem_takeWhile_imp (p := fun c => decide (c ≠ '\x00')) hc)

lemma meets_getitem (hcs : Readable cs) (i : ℤ) :
    Meets ((Builtin.getitem (ofChars cs) i).map ([·])) := by
  -- a negative index is the same as one from the start
  have hmem : ∀ k : ℕ, k < cs.length → Meets ((Builtin.getitem (ofChars cs) k).map ([·])) := by
    intro k hk
    rw [getitem_ofChars hcs.not_misread k hk, meets_map_ok, correct_ofChars_iff]
    exact hcs.mono (by simp)
  by_cases hpos : 0 ≤ i ∧ i < cs.length
  · obtain ⟨k, rfl⟩ := Int.eq_ofNat_of_zero_le hpos.1
    exact hmem k (by omega)
  by_cases hneg : i < 0 ∧ -(cs.length : ℤ) ≤ i
  · obtain ⟨k, hk⟩ := Int.eq_ofNat_of_zero_le (show 0 ≤ (cs.length : ℤ) + i by omega)
    have heq : Builtin.getitem (ofChars cs) i = Builtin.getitem (ofChars cs) k := by
      rw [Builtin.getitem, Builtin.getitem, getIndex, getIndex, nchars_ofChars, if_neg hpos,
        if_pos hneg, if_pos (by omega), hk]
    rw [heq]
    exact hmem k (by omega)
  · rw [Builtin.getitem, getIndex, nchars_ofChars, if_neg hpos, if_neg hneg]
    exact meets_error (by simp)

lemma stepCount_one {m : ℤ} (hm : 0 < m) : stepCount 1 m = 1 := by
  obtain rfl | hlt := (Int.add_one_le_iff.mpr hm).eq_or_lt
  · rfl
  · rw [stepCount, Int.tdiv_eq_zero_of_lt (by omega) (by omega),
      Int.tmod_eq_of_lt (by omega) (by omega)]
    rfl

lemma getslice_pastEmpty {slc : Slice} (h : slc.PastEmpty) :
    Builtin.getslice (ofChars []) slc = .ok (ofChars ['\x00']) := by
  have hnorm : normalizeSlice slc 0 = .ok (1, 0, slc.step.getD 1) := by
    obtain ⟨hstep, ⟨i, hstart, hi⟩, hstop⟩ := h
    have hs : normalizeStart slc.start 0 (slc.step.getD 1) = 0 := by
      rw [hstart, normalizeStart, normalizeBound, if_neg (by omega), if_neg (by omega)]
    have ht : normalizeStop slc.stop 0 (slc.step.getD 1) = -1 := by
      cases hj : slc.stop with
      | none => rw [normalizeStop, if_neg (by omega)]
      | some j =>
        have := hstop j hj
        rw [normalizeStop, normalizeBound, if_pos this, if_neg (by omega), if_neg (by omega)]
        rfl
    have hcount : stepCount (-1) (slc.step.getD 1) = 1 := by
      rw [← neg_neg (slc.step.getD 1), stepCount_neg, stepCount_one (by omega)]
    simp only [normalizeSlice, hs, ht]
    rw [if_neg (by omega), if_neg (by omega), sub_zero, ← stepCount, hcount]
  rw [Builtin.getslice, nchars_ofChars, length_nil, Nat.cast_zero, hnorm]
  rfl

lemma meets_getslice_iff (hcs : Readable cs) (slc : Slice) :
    Meets ((Builtin.getslice (ofChars cs) slc).map ([·])) ↔
      (StrOp.getslice (ofChars cs) slc).Safe := by
  have hnil : (ofChars cs).nchars = 0 ↔ cs = [] := by simp
  rw [Safe, hnil]
  constructor
  · rintro hmeets rfl hpast
    rw [getslice_pastEmpty hpast, meets_map_ok, correct_ofChars_iff] at hmeets
    exact absurd hmeets (by decide)
  · intro hsafe
    cases hnorm : normalizeSlice slc cs.length with
    | error e =>
      rw [Builtin.getslice, nchars_ofChars, hnorm]
      refine meets_error ?_
      simp only [normalizeSlice] at hnorm
      split at hnorm <;> cases hnorm
      simp
    | ok r =>
      obtain ⟨slen, start, step⟩ := r
      obtain ⟨heq, hin⟩ := getslice_ofChars hcs.not_misread hnorm hsafe
      rw [heq, meets_map_ok, correct_ofChars_iff]
      exact hcs.mono (mem_of_mem_pick hin)

lemma meets_iterate (hcs : Readable cs) : Meets (Builtin.iterate (ofChars cs)) := by
  rw [iterate_ofChars hcs, meets_ok]
  intro s hs
  obtain ⟨c, hc, rfl⟩ := mem_map.mp hs
  exact correct_ofChars_iff.mpr (hcs.mono (by simpa using hc))

lemma meets_partition (hcs : Readable cs) (hds : Readable ds) :
    Meets ((Builtin.partition (ofChars cs) (ofChars ds)).map fun (ls, ssep, rs) =>
      [ls, ssep, rs]) := by
  have hnull : nullStr.Correct := (@correct_ofChars_iff []).mpr (by decide)
  obtain ⟨heq, -⟩ | ⟨x, y, rfl, heq, -⟩ := partition_ofChars hcs.not_misread ds
  · rw [heq]
    simp [Except.map, meets_ok, correct_ofChars_iff, hcs, hnull]
  · rw [heq]
    simp only [Except.map, meets_ok, forall_mem_cons, correct_ofChars_iff]
    exact ⟨hcs.mono (by simp +contextual), hds, hcs.mono (by simp +contextual), by simp⟩

lemma stripSafe_iff {o : Option Str} (ho : o.getD whitespaceStr = ofChars ds) :
    StripSafe (ofChars cs) o ↔ cs = [] ∨ ∃ c ∈ cs, c ∉ ds := by
  constructor
  · exact fun h => h cs ds rfl ho
  · intro h w ds' hw hds'
    rwa [← ofChars_inj hw, ← ofChars_inj (ho.symm.trans hds')]

/-- What is left of a string that is stripped as a whole. -/
theorem stub_ne_ofChars (c : Char) (w : List Char) : ⟨0, pos [c], encode [c]⟩ ≠ ofChars w := by
  intro hw
  have hnil : w = [] := by simpa using (congrArg Str.nchars hw).symm
  have hbytes := congrArg Str.nbytes hw
  have := one_le_pos_singleton c
  rw [hnil, nbytes_ofChars, pos_nil] at hbytes
  dsimp only at hbytes
  omega

variable {o : Option Str} (hcs : Readable cs) (hds : Readable ds)
  (ho : o.getD whitespaceStr = ofChars ds)
include hcs hds ho

lemma meets_lstrip : Meets ((Builtin.lstrip (ofChars cs) o).map ([·])) := by
  rw [lstrip_ofChars hcs.not_misread hds.not_misread ho, meets_map_ok, correct_ofChars_iff]
  exact hcs.mono fun c hc => (dropWhile_sublist _).subset hc

/-- A right strip and whatever follows it, if that keeps correct strings correct and the empty
string as it is. -/
theorem meets_rstrip_bind_iff {f : Str → Except StrError Str}
    (hf : ∀ w, Readable w → Meets ((f (ofChars w)).map ([·])))
    (hzero : ∀ s, s.nchars = 0 → f s = .ok s) :
    Meets ((Builtin.rstrip (ofChars cs) o >>= f).map ([·])) ↔ StripSafe (ofChars cs) o := by
  rw [stripSafe_iff ho]
  constructor
  · intro hmeets
    by_contra hsafe
    push Not at hsafe
    obtain ⟨hne, hall⟩ := hsafe
    obtain ⟨c, cs, rfl⟩ := exists_cons_of_ne_nil hne
    rw [rstrip_of_forall_mem (hcs c (by simp)).2 hds.not_misread ho hall] at hmeets
    refine not_correct_of_ne (stub_ne_ofChars c) (meets_map_ok.mp ?_)
    rw [← hzero _ rfl]
    exact hmeets
  · intro hsafe
    rw [rstrip_of_exists hcs.not_misread hds.not_misread ho hsafe]
    exact hf _ (hcs.mono fun c hc => (List.rdropWhile_prefix _ _).subset hc)

lemma meets_rstrip_iff :
    Meets ((Builtin.rstrip (ofChars cs) o).map ([·])) ↔ StripSafe (ofChars cs) o := by
  have := meets_rstrip_bind_iff hcs hds ho (f := .ok)
    (fun w hw => meets_map_ok.mpr (correct_ofChars_iff.mpr hw)) fun _ _ => rfl
  rwa [show (Builtin.rstrip (ofChars cs) o >>= Except.ok) = Builtin.rstrip (ofChars cs) o from
    bind_pure _] at this

lemma meets_strip_iff :
    Meets ((Builtin.strip (ofChars cs) o).map ([·])) ↔ StripSafe (ofChars cs) o :=
  meets_rstrip_bind_iff hcs hds ho (f := fun s => Builtin.lstrip s o)
    (fun _ hw => meets_lstrip hw hds ho) fun _ hs => if_pos hs

end

/-- An operation on correct strings is right exactly if it is safe. -/
theorem meets_run_iff (hlib : lib.Decodes) {o : StrOp} (hargs : ∀ s ∈ o.args, s.Correct)
    (hmem : o.InMemory) : Meets (o.run lib) ↔ o.Safe := by
  have htext (s) (hs : s ∈ o.args) := correct_iff.mp (hargs s hs)
  cases o with
  | lit cs => exact meets_lit_iff hlib
  | getitem s i =>
    obtain ⟨cs, rfl, hcs⟩ := htext s (by simp [args])
    exact iff_of_true (meets_getitem hcs i) trivial
  | getslice s slc =>
    obtain ⟨cs, rfl, hcs⟩ := htext s (by simp [args])
    exact meets_getslice_iff hcs slc
  | add s t =>
    obtain ⟨cs, rfl, hcs⟩ := htext s (by simp [args])
    obtain ⟨ds, rfl, hds⟩ := htext t (by simp [args])
    refine iff_of_true ?_ trivial
    rw [run, add_ofChars, meets_map_ok, correct_ofChars_iff]
    intro c hc
    exact (mem_append.mp hc).elim (hcs c) (hds c)
  | join s lst =>
    obtain ⟨ss, rfl, hss⟩ := htext s (by simp [args])
    obtain ⟨ws, rfl, hws⟩ := @exists_map_ofChars lst fun t ht => hargs t (by simp [args, ht])
    refine iff_of_true ?_ trivial
    rw [run, join_ofChars, meets_map_ok, correct_ofChars_iff]
    intro c hc
    obtain hc | ⟨w, hw, hc⟩ := mem_of_mem_joined hc
    · exact hss c hc
    · exact hws w hw c hc
  | split s sep maxsplit =>
    obtain ⟨cs, rfl, hcs⟩ := htext s (by simp [args])
    have hsep : ∀ t, sep = some t → ∃ ds, t = ofChars ds := by
      rintro t rfl
      obtain ⟨ds, hds, -⟩ := htext t (by simp [args])
      exact ⟨ds, hds⟩
    rw [run, Safe]
    constructor
    · intro hmeets
      by_contra hsafe
      rw [split_of_not_safe lib hsafe] at hmeets
      exact not_meets_undefined hmeets
    · intro hsafe
      obtain ⟨m, heq⟩ | ⟨res, heq, hres⟩ := split_of_safe hlib hcs.not_misread hsep hsafe
      · rw [heq]
        exact meets_error (by simp)
      · rw [heq, meets_ok]
        intro r hr
        obtain ⟨w, rfl, hw⟩ := hres r hr
        exact correct_ofChars_iff.mpr (hcs.mono hw)
  | partition s sep =>
    obtain ⟨cs, rfl, hcs⟩ := htext s (by simp [args])
    obtain ⟨ds, rfl, hds⟩ := htext sep (by simp [args])
    exact iff_of_true (meets_partition hcs hds) trivial
  | lstrip s o =>
    obtain ⟨cs, rfl, hcs⟩ := htext s (by simp [args])
    obtain ⟨ds, ho, hds⟩ := exists_getD fun t (ht : t ∈ o) => hargs t (by simp_all [args])
    exact iff_of_true (meets_lstrip hcs hds ho) trivial
  | rstrip s o =>
    obtain ⟨cs, rfl, hcs⟩ := htext s (by simp [args])
    obtain ⟨ds, ho, hds⟩ := exists_getD fun t (ht : t ∈ o) => hargs t (by simp_all [args])
    exact meets_rstrip_iff hcs hds ho
  | strip s o =>
    obtain ⟨cs, rfl, hcs⟩ := htext s (by simp [args])
    obtain ⟨ds, ho, hds⟩ := exists_getD fun t (ht : t ∈ o) => hargs t (by simp_all [args])
    exact meets_strip_iff hcs hds ho
  | replace s old new count =>
    obtain ⟨cs, rfl, hcs⟩ := htext s (by simp [args])
    obtain ⟨ds, rfl, hds⟩ := htext old (by simp [args])
    obtain ⟨es, rfl, hes⟩ := htext new (by simp [args])
    rw [run, Safe]
    constructor
    · intro hmeets
      by_contra hsafe
      obtain heq | ⟨s, heq, hs⟩ := replace_of_not_safe hcs.not_misread hmem hsafe
      · rw [heq] at hmeets
        exact not_meets_undefined hmeets
      · rw [heq, meets_map_ok] at hmeets
        exact not_correct_of_ne hs hmeets
    · intro hsafe
      obtain ⟨w, heq, hw⟩ := replace_of_safe hcs.not_misread hmem hsafe
      rw [heq, meets_map_ok, correct_ofChars_iff]
      intro c hc
      exact (hw c hc).elim (hcs c) (hes c)
  | iterate s =>
    obtain ⟨cs, rfl, hcs⟩ := htext s (by simp [args])
    exact iff_of_true (meets_iterate hcs) trivial

end StrOp

/-! ### Programs -/

/-- The strings of a program after an operation. An exception leaves them as they are. -/
def step (lib : Utf8proc) (strs : List Str) (o : StrOp) : Option (List Str) :=
  match o.run lib with
  | .ok rs => some (strs ++ rs)
  | .error .undefined => none
  | .error _ => some strs

lemma step_of_meets {strs : List Str} {o : StrOp} (hstrs : ∀ s ∈ strs, s.Correct)
    (h : StrOp.Meets (o.run lib)) :
    ∃ strs', step lib strs o = some strs' ∧ ∀ s ∈ strs', s.Correct := by
  rw [step]
  cases hrun : o.run lib with
  | ok rs =>
    refine ⟨strs ++ rs, rfl, fun s hs => ?_⟩
    exact (mem_append.mp hs).elim (hstrs s) (h.2 rs hrun s)
  | error e =>
    cases e with
    | undefined => exact absurd hrun h.1
    | indexError m | valueError m => exact ⟨strs, rfl, hstrs⟩

lemma meets_of_step {strs strs' : List Str} {o : StrOp} (h : step lib strs o = some strs')
    (hstrs' : ∀ s ∈ strs', s.Correct) : StrOp.Meets (o.run lib) := by
  rw [step] at h
  cases hrun : o.run lib with
  | ok rs =>
    rw [hrun] at h
    cases h
    exact StrOp.meets_ok.mpr fun s hs => hstrs' s (mem_append_right _ hs)
  | error e =>
    refine StrOp.meets_error ?_
    rintro rfl
    rw [hrun] at h
    cases h

/-- The operations of a program are applied to strings that it has, and stay in memory. -/
structure Composed (strs : List Str) (o : StrOp) : Prop where
  args : ∀ s ∈ o.args, s ∈ strs
  inMemory : o.InMemory

lemma always_str_correct_iff (hlib : lib.Decodes) {strs : List Str} {ops : List StrOp}
    (hstrs : ∀ s ∈ strs, s.Correct) (h : Trace.Guarded (step lib) Composed strs ops) :
    Trace.Always (step lib) (fun strs => ∀ s ∈ strs, s.Correct) strs ops ↔
      Trace.Guarded (step lib) (fun _ o => o.Safe) strs ops := by
  induction ops generalizing strs with
  | nil => exact iff_of_true (always_nil.mpr hstrs) guarded_nil
  | cons o ops ih =>
    have hmeets := StrOp.meets_run_iff hlib (fun s hs => hstrs s (h.head.args s hs))
      h.head.inMemory
    constructor
    · intro halways
      obtain ⟨strs', hstep, hstrs'⟩ := halways.next
      have hrest := ((always_cons hstep).mp halways).2
      refine guarded_cons.mpr ⟨hmeets.mp (meets_of_step hstep hstrs'), fun strs1 hstep1 => ?_⟩
      obtain rfl := Option.mem_unique hstep hstep1
      exact (ih hstrs' (h.tail hstep)).mp hrest
    · intro hsafe
      obtain ⟨strs', hstep, hstrs'⟩ := step_of_meets hstrs (hmeets.mpr hsafe.head)
      exact (always_cons hstep).mpr
        ⟨hstrs, (ih hstrs' (h.tail hstep)).mpr (hsafe.tail hstep)⟩

/-- All strings of a program that stays in memory are correct exactly if all of its operations are
safe. -/
theorem str_correct (hlib : lib.Decodes) {ops : List StrOp}
    (h : Trace.Guarded (step lib) Composed [] ops) :
    Trace.Always (step lib) (fun strs => ∀ s ∈ strs, s.Correct) [] ops ↔
      Trace.Guarded (step lib) (fun _ o => o.Safe) [] ops :=
  always_str_correct_iff hlib (by simp) h

/-- The text `"hé "` without the space, and its second character. -/
theorem str_correct_rstrip :
    Trace.Always (step exampleLib) (fun strs => ∀ s ∈ strs, s.Correct) []
      [.lit ['h', 'é', ' '], .rstrip (ofChars ['h', 'é', ' ']) none,
        .getitem (ofChars ['h', 'é']) 1] := by
  have hlit : step exampleLib [] (.lit ['h', 'é', ' ']) =
      some [ofChars ['h', 'é', ' ']] := by decide
  have hstrip : step exampleLib [ofChars ['h', 'é', ' ']]
      (.rstrip (ofChars ['h', 'é', ' ']) none) =
      some [ofChars ['h', 'é', ' '], ofChars ['h', 'é']] := by decide
  have hread : (StrOp.lit ['h', 'é', ' ']).Safe := @Readable.not_misread ['h', 'é', ' '] (by decide)
  have hleft : (StrOp.rstrip (ofChars ['h', 'é', ' ']) none).Safe :=
    (@StrOp.stripSafe_iff _ _ none whitespaceStr_eq).mpr (.inr ⟨'h', by decide, by decide⟩)
  refine (str_correct decodes_exampleLib ?_).mpr ?_
  · simp only [guarded_cons, hlit, hstrip, guarded_nil, Option.some.injEq, forall_eq',
      implies_true, and_true]
    exact ⟨⟨by simp [StrOp.args], by rw [StrOp.InMemory]; decide⟩,
      ⟨by simp [StrOp.args], trivial⟩, ⟨by simp [StrOp.args], trivial⟩⟩
  · simp only [guarded_cons, hlit, hstrip, hread, hleft, Option.some.injEq, forall_eq']
    simp [guarded_nil, StrOp.Safe]

/-- The character U+07FF takes the byte of the next one when it is read. -/
theorem str_incorrect_dfbf :
    toStr exampleLib (encode ['\u07ff', 'a', 'b']) = .ok (ofChars ['\u07ff', 'a', 'b']) ∧
      getitem (ofChars ['\u07ff', 'a', 'b']) 0 = .ok ⟨1, 3, [0xdf, 0xbf, 97]⟩ ∧
      getitem (ofChars ['\u07ff', 'a', 'b']) 1 = .ok (ofChars ['b']) ∧
      ¬ Trace.Always (step exampleLib) (fun strs => ∀ s ∈ strs, s.Correct) []
        [.lit ['\u07ff', 'a', 'b']] := by
  have hlit : step exampleLib [] (.lit ['\u07ff', 'a', 'b']) =
      some [ofChars ['\u07ff', 'a', 'b']] := by decide
  refine ⟨by decide, by decide, by decide, fun h => ?_⟩
  obtain ⟨strs, hstep, hcorrect⟩ := h.next
  obtain rfl := Option.mem_unique hlit hstep
  have hread := correct_ofChars_iff.mp (hcorrect (ofChars ['\u07ff', 'a', 'b']) (by simp))
  exact absurd hread (by decide)

end Acton.Builtin
