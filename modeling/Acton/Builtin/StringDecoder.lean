import Acton.Builtin.Str.Splitting

/-!
# The string decoder

The actor `StringDecoder` gets a stream of bytes in pieces and puts out the text that they encode.
It keeps the bytes of an incomplete character for the next piece: `decode` takes away up to three
bytes until the rest is a text.

A text that is made from bytes (`to$str`) ends at the first byte zero, so that the decoder loses the
character U+0000 and what comes after it in the same piece. Without this character the decoder
loses nothing, wherever the stream is cut (`faithful_iff`).
-/

namespace Acton.Builtin
open Utf8 List Option

/-! ## The actor -/

/-- `__getslice__` of bytes -/
def bytesGetslice (str : List UInt8) (slc : Slice) : Except StrError (List UInt8) := do
  let (slen, start, step) ← normalizeSlice slc str.length
  return (List.range slen.toNat).map fun (i : ℕ) => byteAt str (start + i * step)

/-- `decode` of bytes, which hands the buffer on as a C string. -/
def bytesDecode (lib : Utf8proc) (s : List UInt8) : Except StrError Str := toStr lib s

namespace StringDecoder

/-- What a call of `decode` does besides the change of `buf`. -/
inductive Reaction
  | cbOut (s : Str)
  | onError (msg : String) (buf : List UInt8)
  | raised (e : StrError)

def maxUnicodeCharSize : ℕ := 4

/-- The `for` loop over the lengths to try: the text and the rest of the buffer for the first length
at which no `ValueError` comes up. -/
def attempts (lib : Utf8proc) (buf : List UInt8) : List ℤ →
    Except StrError (Option (Str × List UInt8))
  | [] => .ok none
  | i :: is =>
    let result : Except StrError (Str × List UInt8) := do
      let front ← bytesGetslice buf ⟨none, some i, none⟩
      let s ← bytesDecode lib front
      let back ← bytesGetslice buf ⟨some i, none, none⟩
      return (s, back)
    match result with
    | .ok x => .ok (some x)
    | .error (.valueError _) => attempts lib buf is
    | .error e => .error e

/-- `range(len(buf), len(buf)-MAX_UNICODE_CHAR_SIZE, -1)` -/
def lengths (buf : List UInt8) : List ℤ :=
  (List.range maxUnicodeCharSize).map fun (j : ℕ) => (buf.length : ℤ) - j

section Decode

-- whether there is an error callback, and the text of bytes in the message if there is none
variable (lib : Utf8proc) (onError : Bool) (bytesStr : List UInt8 → String)

def decode (buf input : List UInt8) : List UInt8 × Reaction :=
  let buf := buf ++ input
  match attempts lib buf (lengths buf) with
  | .ok (some (s, rest)) => (rest, .cbOut s)
  | .ok none =>
    if onError then (buf, .onError "Invalid UTF-8" buf)
    else (buf, .raised (.valueError ("Invalid UTF-8: " ++ bytesStr buf)))
  | .error e => (buf, .raised e)

/-- The reactions to a sequence of pieces. -/
def run : List UInt8 → List (List UInt8) → List Reaction
  | _, [] => []
  | buf, input :: pieces =>
    let (buf, r) := decode lib onError bytesStr buf input
    r :: run buf pieces

end Decode

/-! ## Slices -/

lemma bytesGetslice_eq {str : List UInt8} {start stop : Option ℤ} {a b : ℤ}
    (ha : normalizeStart start str.length 1 = a) (hb : normalizeStop stop str.length 1 = b)
    (hab : a ≤ b) : bytesGetslice str ⟨start, stop, none⟩ = .ok (bytesAt str a (b - a)) := by
  have hlen : (if (0 : ℤ) < 1 ∧ b ≤ a ∨ (1 : ℤ) < 0 ∧ a ≤ b then 0
      else (b - a).tdiv 1 + if (b - a).tmod 1 ≠ 0 then 1 else 0) = b - a := by
    rw [Int.tdiv_one, Int.tmod_one]
    split_ifs <;> omega
  simp only [bytesGetslice, normalizeSlice, getD_none, ha, hb, hlen]
  simp [bytesAt, bind, Except.bind, pure, Except.pure]

lemma bytesGetslice_front (x y : List UInt8) :
    bytesGetslice (x ++ y) ⟨none, some x.length, none⟩ = .ok x := by
  rw [bytesGetslice_eq rfl (b := x.length)]
  · have := bytesAt_append [] x y
    simpa [normalizeStart] using this
  · simp only [normalizeStop, normalizeBound, length_append]
    split_ifs <;> omega
  · simp [normalizeStart]

lemma bytesGetslice_back (x y : List UInt8) :
    bytesGetslice (x ++ y) ⟨some x.length, none, none⟩ = .ok y := by
  rw [bytesGetslice_eq (a := x.length) (b := x.length + y.length)]
  · have := bytesAt_append x y []
    simpa using this
  · simp only [normalizeStart, normalizeBound, length_append]
    split_ifs <;> omega
  · simp [normalizeStop]
  · omega

/-! ## Attempts -/

variable {lib : Utf8proc} {t : List UInt8}

/-- The end of a character is missing. -/
theorem toStrLoop_isTail (hlib : lib.Decodes) (str : List UInt8) {es : List Char} (ht : IsTail t es)
    (hne : t ≠ [])
    (cs : List Char) {fuel : ℕ} (hfuel : cs.length < fuel) (nchars nbytes : ℤ) :
    toStrLoop lib str fuel (encode cs ++ t) nchars nbytes =
      .error (.valueError "to$str: Unicode decode error") := by
  induction cs generalizing fuel nchars nbytes with
  | nil =>
    obtain ⟨fuel, rfl⟩ : ∃ n, fuel = n + 1 := Nat.exists_eq_add_of_le' hfuel
    obtain ⟨b, t, rfl⟩ := exists_cons_of_ne_nil hne
    rw [encode_nil, nil_append, toStrLoop, hlib.invalid _ ht.decode_eq_none]
  | cons c cs ih =>
    obtain ⟨fuel, rfl⟩ : ∃ n, fuel = n + 1 := Nat.exists_eq_add_of_le' (by simp at hfuel; omega)
    obtain ⟨x, r, hc, -⟩ := exists_lead c
    have hiter := iterate_encodeChar hlib c (encode cs ++ t)
    have hdrop : (x :: (r ++ (encode cs ++ t))).drop (pos [c]).toNat = encode cs ++ t := by
      rw [pos_singleton, Int.toNat_natCast, hc, ← cons_append, drop_left]
    rw [hc, cons_append] at hiter
    rw [encode_cons, hc, append_assoc, cons_append, toStrLoop, hiter]
    simp only [hdrop]
    exact ih (by simpa using hfuel) _ _

variable {cs : List Char}
section
variable (hcs : '\x00' ∉ cs)
include hcs

lemma takeWhile_eq_self_of_zero_notMem : cs.takeWhile (fun c => c ≠ '\x00') = cs := by
  rw [takeWhile_eq_self_iff]
  intro c hc
  have hne : c ≠ '\x00' := fun h => hcs (h ▸ hc)
  exact decide_eq_true hne

lemma bytesDecode_encode (hlib : lib.Decodes) : bytesDecode lib (encode cs) = .ok (ofChars cs) := by
  rw [bytesDecode, toStr_encode hlib, takeWhile_eq_self_of_zero_notMem hcs]

lemma takeWhile_encode_append (x : List UInt8) :
    (encode cs ++ x).takeWhile (fun b => b ≠ 0) = encode cs ++ x.takeWhile fun b => b ≠ 0 := by
  refine takeWhile_append_of_pos ?_
  have hself : (encode cs).takeWhile (fun b => b ≠ 0) = encode cs := by
    rw [takeWhile_encode, takeWhile_eq_self_of_zero_notMem hcs]
  exact takeWhile_eq_self_iff.mp hself

/-- A C string ends at the first zero, whatever comes then. -/
theorem bytesDecode_zero (hlib : lib.Decodes) (x : List UInt8) :
    bytesDecode lib (encode cs ++ 0 :: x) = .ok (ofChars cs) := by
  have hself : (encode cs ++ 0 :: x).takeWhile (fun b => b ≠ 0) =
      (encode cs).takeWhile fun b => b ≠ 0 := by
    rw [takeWhile_encode_append hcs, takeWhile_encode, takeWhile_eq_self_of_zero_notMem hcs]
    simp
  rw [← bytesDecode_encode hcs hlib, bytesDecode, bytesDecode, toStr, toStr, hself]

end
variable {cs es : List Char}

lemma bytesDecode_isTail (hlib : lib.Decodes) (hcs : '\x00' ∉ cs) (ht : IsTail t es)
    (hne : t ≠ []) :
    bytesDecode lib (encode cs ++ t) = .error (.valueError "to$str: Unicode decode error") := by
  have hself : (encode cs ++ t).takeWhile (fun b => b ≠ 0) = encode cs ++ t := by
    rw [takeWhile_encode_append hcs, takeWhile_eq_self_iff.mpr]
    intro b hb
    have hb' := ht.not_ascii hb
    simp only [ne_eq, decide_eq_true_eq, ← UInt8.toNat_inj]
    simp
    omega
  have hascii : ¬ (encode cs ++ t).all (fun b => b < 0x80) := by
    obtain ⟨b, hb⟩ := exists_mem_of_ne_nil t hne
    have hb' := ht.not_ascii hb
    intro hall
    have := all_eq_true.mp hall b (mem_append_right _ hb)
    simp [UInt8.lt_iff_toNat_lt] at this
    omega
  rw [bytesDecode, toStr]
  simp only [hself]
  rw [if_neg hascii]
  refine toStrLoop_isTail hlib _ ht hne cs ?_ 0 0
  have hlen := length_lt_length_encode cs
  have hpos := length_pos_of_ne_nil hne
  rw [length_append]
  omega

section Attempts
variable {x y : List UInt8} {is : List ℤ}

lemma attempts_of_ok {s : Str} (h : bytesDecode lib x = .ok s) :
    attempts lib (x ++ y) ((x.length : ℤ) :: is) = .ok (some (s, y)) := by
  simp [attempts, bytesGetslice_front, bytesGetslice_back, h, bind, Except.bind, pure, Except.pure]

lemma attempts_of_error {msg : String} (h : bytesDecode lib x = .error (.valueError msg)) :
    attempts lib (x ++ y) ((x.length : ℤ) :: is) = attempts lib (x ++ y) is := by
  simp [attempts, bytesGetslice_front, h, bind, Except.bind]

end Attempts

/-- The loop takes the bytes of `t` away, one by one. -/
theorem attempts_isTail (hlib : lib.Decodes) (hcs : '\x00' ∉ cs) (n : ℕ) (t u : List UInt8)
    (ht : IsTail (t ++ u) es) (hn : t.length < n) :
    attempts lib (encode cs ++ (t ++ u))
      ((List.range n).map fun (j : ℕ) => ((encode cs ++ t).length : ℤ) - j) =
      .ok (some (ofChars cs, t ++ u)) := by
  induction n generalizing t u with
  | zero => omega
  | succ n ih =>
    rw [range_succ_eq_map, map_cons, List.map_map, Int.natCast_zero, sub_zero]
    rcases eq_nil_or_concat' t with rfl | ⟨t, b, rfl⟩
    · rw [append_nil]
      exact attempts_of_ok (bytesDecode_encode hcs hlib)
    · have hstep : attempts lib (encode cs ++ (t ++ [b]) ++ u)
          (((encode cs ++ (t ++ [b])).length : ℤ) ::
            (List.range n).map fun (j : ℕ) => ((encode cs ++ t).length : ℤ) - j) =
          attempts lib (encode cs ++ (t ++ [b]) ++ u)
            ((List.range n).map fun (j : ℕ) => ((encode cs ++ t).length : ℤ) - j) :=
        attempts_of_error (bytesDecode_isTail hlib hcs ht.of_append (by simp))
      have hnext := ih t ([b] ++ u) (by rwa [← append_assoc]) (by simp at hn; omega)
      rw [← append_assoc t, ← append_assoc] at hnext
      rw [← append_assoc, ← hnext, ← hstep]
      congr 2
      refine map_congr_left fun j _ => ?_
      simp only [Function.comp_apply, length_append, length_singleton]
      omega

section Run
variable {onError : Bool} {bytesStr : List UInt8 → String} {buf input : List UInt8}

/-- A piece that completes the characters `cs` and leaves a tail. -/
theorem decode_isTail (hlib : lib.Decodes) (h : buf ++ input = encode cs ++ t) (hcs : '\x00' ∉ cs)
    (ht : IsTail t es) : decode lib onError bytesStr buf input = (t, .cbOut (ofChars cs)) := by
  have hloop := attempts_isTail hlib hcs maxUnicodeCharSize t [] (by rwa [append_nil])
    (by simpa [maxUnicodeCharSize] using ht.length_lt)
  rw [append_nil] at hloop
  simp only [decode, h, lengths, hloop]

/-- From the character zero on, everything in the buffer is lost. -/
theorem decode_zero (hlib : lib.Decodes) {x : List UInt8}
    (h : buf ++ input = encode cs ++ 0 :: x) (hcs : '\x00' ∉ cs) :
    decode lib onError bytesStr buf input = ([], .cbOut (ofChars cs)) := by
  have hfirst : attempts lib (encode cs ++ 0 :: x) (lengths (encode cs ++ 0 :: x)) =
      .ok (some (ofChars cs, [])) := by
    have hok : attempts lib (encode cs ++ 0 :: x ++ [])
        (((encode cs ++ 0 :: x).length : ℤ) :: (lengths (encode cs ++ 0 :: x)).tail) =
        .ok (some (ofChars cs, [])) := attempts_of_ok (bytesDecode_zero hcs hlib x)
    rw [append_nil] at hok
    rw [← hok]
    simp [lengths, maxUnicodeCharSize, range_succ_eq_map]
  simp only [decode, h, hfirst]

/-! ## Streams -/

/-- The bytes that the reactions put out; none if there was an error. -/
def output : List Reaction → Option (List UInt8)
  | [] => some []
  | .cbOut s :: rs => (output rs).map (s.str ++ ·)
  | _ :: _ => none

/-- There was no error, and the output is `fed` without an incomplete character at its end. -/
def Faithful (cs : List Char) (fed : List UInt8) (rs : List Reaction) : Prop :=
  ∃ ds es t, cs = ds ++ es ∧ output rs = some (encode ds) ∧ fed = encode ds ++ t ∧ IsTail t es

lemma faithful_nil (h : IsTail buf cs) : Faithful cs buf [] := ⟨[], cs, buf, rfl, rfl, rfl, h⟩

lemma faithful_cons {ds es : List Char} {x : List UInt8} {rs : List Reaction} :
    Faithful (ds ++ es) (encode ds ++ x) (.cbOut (ofChars ds) :: rs) ↔ Faithful es x rs := by
  constructor
  · rintro ⟨ds', es', t, hcs, hout, hfed, ht⟩
    obtain ⟨o, ho, heq⟩ := map_eq_some_iff.mp hout
    obtain ⟨ds'', rfl, rfl⟩ := exists_of_encode_eq_encode_append heq.symm
    rw [append_assoc] at hcs
    rw [encode_append, append_assoc] at hfed
    exact ⟨ds'', es', t, append_cancel_left hcs, ho, append_cancel_left hfed, ht⟩
  · rintro ⟨ds', es', t, rfl, hout, rfl, ht⟩
    refine ⟨ds ++ ds', es', t, by simp, ?_, by simp, ht⟩
    simp [output, hout, ofChars]

lemma encodeChar_zero : String.utf8EncodeChar '\x00' = [0] := rfl

/-- A character zero among the complete characters is missing in the output. -/
theorem not_faithful_zero {cs ds es : List Char} :
    ¬ Faithful (cs ++ '\x00' :: ds ++ es) (encode (cs ++ '\x00' :: ds) ++ t)
      [.cbOut (ofChars cs)] := by
  rintro ⟨ds', es', t', hcs, hout, hfed, ht⟩
  have hds : cs = ds' := by
    refine encode_inj ?_
    simpa [output, ofChars] using hout
  subst hds
  have hes : '\x00' :: (ds ++ es) = es' := by simpa using hcs
  have ht' : 0 :: (encode ds ++ t) = t' := by simpa [encodeChar_zero] using hfed
  subst hes ht'
  -- the encoding of the zero has one byte, which leaves nothing for a tail
  obtain ⟨u, hu, hzero⟩ := ht
  rw [encodeChar_zero, cons_append, List.cons.injEq] at hzero
  exact hu (append_eq_nil_iff.mp hzero.2.symm).2

lemma forall_faithful_iff (hlib : lib.Decodes) (onError : Bool) (bytesStr : List UInt8 → String)
    (pieces : List (List UInt8)) (buf : List UInt8) (cs : List Char) (hbuf : IsTail buf cs)
    (h : buf ++ pieces.flatten = encode cs) :
    (∀ k ≤ pieces.length, Faithful cs (buf ++ (pieces.take k).flatten)
      (run lib onError bytesStr buf (pieces.take k))) ↔ '\x00' ∉ cs := by
  induction pieces generalizing buf cs with
  | nil =>
    have hcs : cs = [] := hbuf.eq_nil (by simpa using h.symm)
    subst hcs
    simpa [run] using faithful_nil hbuf
  | cons input pieces ih =>
    rw [flatten_cons, ← append_assoc] at h
    obtain ⟨ds, es, t, rfl, hfed, ht⟩ := exists_isTail h.symm
    by_cases hz : '\x00' ∈ ds
    · -- the first call loses the zero
      obtain ⟨a, b, rfl, ha⟩ := eq_append_cons_of_mem hz
      have hdec : decode lib onError bytesStr buf input = ([], .cbOut (ofChars a)) :=
        decode_zero hlib (by rw [hfed, encode_append, encode_cons, encodeChar_zero, append_assoc,
          append_assoc, singleton_append]) ha
      refine iff_of_false (fun hall => ?_) (by simp)
      have hone := hall 1 (by simp)
      simp only [take_succ_cons, take_zero, flatten_cons, flatten_nil,
        append_nil, hfed, run, hdec] at hone
      exact not_faithful_zero hone
    · have hdec : decode lib onError bytesStr buf input = (t, .cbOut (ofChars ds)) :=
        decode_isTail hlib hfed hz ht
      have hrest : t ++ pieces.flatten = encode es := by
        rw [hfed, append_assoc, encode_append] at h
        exact append_cancel_left h
      have hnext := ih t es ht hrest
      rw [mem_append, not_or, ← hnext]
      constructor
      · intro hall
        refine ⟨hz, fun k hk => ?_⟩
        have := hall (k + 1) (by simpa using hk)
        rw [take_succ_cons, flatten_cons, ← append_assoc, hfed, run, hdec, append_assoc] at this
        exact faithful_cons.mp this
      · rintro ⟨-, hall⟩ k hk
        cases k with
        | zero => simpa [run] using faithful_nil hbuf
        | succ k =>
          rw [take_succ_cons, flatten_cons, ← append_assoc, hfed, run, hdec, append_assoc]
          exact faithful_cons.mpr (hall k (by simpa using hk))

/-- However a stream is cut into pieces, the output is right after every piece exactly if the
stream has no character zero. -/
theorem faithful_iff (hlib : lib.Decodes) (onError : Bool) (bytesStr : List UInt8 → String)
    (cs : List Char)
    (pieces : List (List UInt8)) (h : pieces.flatten = encode cs) :
    (∀ k ≤ pieces.length, Faithful cs (pieces.take k).flatten
      (run lib onError bytesStr [] (pieces.take k))) ↔ '\x00' ∉ cs :=
  forall_faithful_iff hlib onError bytesStr pieces [] cs (isTail_nil cs) h

/-- The character `é` in two pieces. -/
theorem faithful_two_pieces :
    Faithful ['é'] [0xc3] (run exampleLib true (fun _ => "") [] [[0xc3]]) ∧
      Faithful ['é'] [0xc3, 0xa9] (run exampleLib true (fun _ => "") [] [[0xc3], [0xa9]]) := by
  have h := (faithful_iff decodes_exampleLib true (fun _ => "") ['é'] [[0xc3], [0xa9]]
    (by decide)).mpr (by decide)
  exact ⟨h 1 (by decide), h 2 (by decide)⟩

/-- Of the bytes `a`, zero and `b` only the first one comes out, and none is kept. -/
theorem not_faithful_one_piece : encode ['a', '\x00', 'b'] = [97, 0, 98] ∧
      run exampleLib true (fun _ => "") [] [[97, 0, 98]] = [.cbOut (ofChars ['a'])] ∧
      ¬ Faithful ['a', '\x00', 'b'] [97, 0, 98]
      (run exampleLib true (fun _ => "") [] [[97, 0, 98]]) := by
  have hbuf : [] ++ [97, 0, 98] = encode ['a'] ++ 0 :: [98] := by decide
  have hdec : decode exampleLib true (fun _ => "") [] [97, 0, 98] = ([], .cbOut (ofChars ['a'])) :=
    decode_zero decodes_exampleLib hbuf (by decide)
  have hrun : run exampleLib true (fun _ => "") [] [[97, 0, 98]] = [.cbOut (ofChars ['a'])] := by
    simp only [run, hdec]
  have hlost : ¬ Faithful (['a'] ++ '\x00' :: ['b'] ++ []) (encode (['a'] ++ '\x00' :: ['b']) ++ [])
      [.cbOut (ofChars ['a'])] := not_faithful_zero
  exact ⟨by decide, hrun, hrun ▸ hlost⟩

end Run
end StringDecoder
end Acton.Builtin
