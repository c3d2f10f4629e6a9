import Acton.ToMathlib.Utf8

/-!
# Strings

The strings of the runtime, as `builtin/str.c` has them: a buffer of bytes with a final zero, the
number of bytes before it and the number of characters that they encode.

* Positions in a buffer are integers. Where the code reads past the final zero or before the buffer
  (the step of a slice moves beyond the last character that it takes), the model reads zeros.
* An operation is `undefined` if the bytes that it writes do not fill the buffer that it allocated,
  or if it uses a variable that it never set.
* Sizes are unbounded; the code has them in an `int`. Only `replace` has a size that can go beyond
  it with arguments of a few kilobytes, and is `undefined` then.
* The functions of `utf8proc`, which are not part of the repository, are parameters (`Utf8proc`).
-/

namespace Acton.Builtin
open Utf8 (encode)

inductive StrError
  | indexError (msg : String)
  | valueError (msg : String)
  | undefined
  deriving DecidableEq, Repr

structure Str where
  nchars : ℤ
  nbytes : ℤ
  str : List UInt8
  deriving DecidableEq, Repr

def nullStr : Str := ⟨0, 0, []⟩
def whitespaceStr : Str := ⟨6, 6, [32, 9, 10, 13, 11, 12]⟩
def intMax : ℤ := 2 ^ 31 - 1

/-- `NEW_UNFILLED_STR` and the bytes that are written to it. -/
def newStr (nchars nbytes : ℤ) (bytes : List UInt8) : Except StrError Str :=
  if nchars ≤ nbytes ∧ (bytes.length : ℤ) = nbytes then .ok ⟨nchars, nbytes, bytes⟩
  else .error .undefined

/-- The byte at a position of a buffer. -/
def byteAt (t : List UInt8) (k : ℤ) : UInt8 :=
  if 0 ≤ k then t.getD k.toNat 0 else 0

/-- The bytes that `memcpy` reads. -/
def bytesAt (t : List UInt8) (p n : ℤ) : List UInt8 :=
  (List.range n.toNat).map fun (i : ℕ) => byteAt t (p + i)

/-! ### Construction -/

/-- The functions of `utf8proc` that are used. -/
structure Utf8proc where
  /-- The length in bytes of the character at the start of a C string, and the character. -/
  iterate : List UInt8 → Option (ℤ × Char)
  /-- The character is white space. -/
  isspace : Char → Bool

/-- `utf8proc_iterate` decodes the first character, and finds out if there is none. -/
structure Utf8proc.Decodes (lib : Utf8proc) : Prop where
  encode : ∀ c z, lib.iterate (String.utf8EncodeChar c ++ z) = some ((c.utf8Size : ℤ), c)
  invalid : ∀ p : List UInt8, p.toByteArray.utf8DecodeChar? 0 = none → lib.iterate p = none

section ToStr
variable (lib : Utf8proc)

def toStrLoop (str : List UInt8) : ℕ → List UInt8 → ℤ → ℤ → Except StrError Str
  | _, [], nchars, nbytes => newStr nchars nbytes (bytesAt str 0 nbytes)
  | 0, _ :: _, _, _ => .error .undefined
  | fuel + 1, b :: p, nchars, nbytes =>
      match lib.iterate (b :: p) with
      | none => .error (.valueError "to$str: Unicode decode error")
      | some (cpnbytes, _) =>
          toStrLoop str fuel ((b :: p).drop cpnbytes.toNat) (nchars + 1) (nbytes + cpnbytes)

/-- `to$str`; a C string ends at its first zero. -/
def toStr (s : List UInt8) : Except StrError Str :=
  let str := s.takeWhile fun b => b ≠ 0
  if str.all fun b => b < 0x80 then newStr str.length str.length str
  else toStrLoop lib str str.length str 0 0

end ToStr

/-! ### Scanning -/

/-- The length of the character that starts with byte `c`. -/
def byteLength2 (c : UInt8) : ℕ :=
  if c < 0x7f then 1 else if c < 0xdf then 2 else if c < 0xef then 3 else 4

/-- `nbytes == nchars` -/
def Str.isascii (s : Str) : Bool := s.nchars = s.nbytes

/-- The loop of `char_no`. Every character takes a byte, so `i - k` rounds are enough. -/
def charNoLoop (t : List UInt8) (i : ℤ) : ℕ → ℤ → ℤ → ℤ
  | 0, _, res => res
  | fuel + 1, k, res =>
      if k < i then charNoLoop t i fuel (k + byteLength2 (byteAt t k)) (res + 1) else res

/-- The character position for a byte position. -/
def charNo (text : Str) (i : ℤ) : ℤ :=
  if text.isascii then i else charNoLoop text.str i i.toNat 0 0

def skipForward (t : List UInt8) : ℕ → ℤ → ℤ
  | 0, res => res
  | n + 1, res => skipForward t n (res + byteLength2 (byteAt t res))

/-- `while (*res >> 6 == 2) res--;` -/
def charStart (t : List UInt8) : ℕ → ℤ → ℤ
  | 0, res => res
  | fuel + 1, res => if Utf8.IsCont (byteAt t res) then charStart t fuel (res - 1) else res

def skipBack (t : List UInt8) : ℕ → ℤ → ℤ
  | 0, res => res
  | n + 1, res => skipBack t n (charStart t res.toNat (res - 1))

def skipChars (t : List UInt8) (start n : ℤ) (isascii : Bool) : ℤ :=
  if isascii then start + n
  else if 0 ≤ n then skipForward t n.toNat start
  else skipBack t (-n).toNat start

def getIndex (i nchars : ℤ) : Except StrError ℤ :=
  if 0 ≤ i ∧ i < nchars then .ok i
  else if i < 0 ∧ -nchars ≤ i then .ok (nchars + i)
  else .error (.indexError "index outside str")

/-- A string of the one character at `p`. -/
def mkChar (t : List UInt8) (p : ℤ) : Except StrError Str :=
  let n := byteLength2 (byteAt t p)
  newStr 1 n (bytesAt t p n)

def equalBytes (t : List UInt8) (p : ℤ) (u : List UInt8) (q len : ℤ) : Bool :=
  bytesAt t p len = bytesAt u q len

/-- Calls of the iterator until it raises `StopIteration`. -/
def iterLoop (t : List UInt8) : ℕ → ℤ → Except StrError (List Str)
  | 0, _ => .error .undefined
  | fuel + 1, nxt =>
      if byteAt t nxt ≠ 0 then do
        let c ← mkChar t nxt
        let cs ← iterLoop t fuel (nxt + byteLength2 (byteAt t nxt))
        return c :: cs
      else return []

def iterate (s : Str) : Except StrError (List Str) := iterLoop s.str (s.str.length + 1) 0

def getitem (s : Str) (i : ℤ) : Except StrError Str := do
  let ix ← getIndex i s.nchars
  mkChar s.str (skipChars s.str 0 ix s.isascii)

structure Slice where
  start : Option ℤ
  stop : Option ℤ
  step : Option ℤ
  deriving DecidableEq, Repr

/-- A bound of a slice that is given. -/
def normalizeBound (i len step : ℤ) : ℤ :=
  if 0 ≤ i then if i < len then i else len - 1 + (if 0 < step then 1 else 0)
  else if -len < i then len + i else 0

def normalizeStart (start : Option ℤ) (len step : ℤ) : ℤ :=
  match start with
  | none => if 0 < step then 0 else len - 1
  | some i => normalizeBound i len step

def normalizeStop (stop : Option ℤ) (len step : ℤ) : ℤ :=
  match stop with
  | none => if 0 < step then len else -1
  | some i => normalizeBound i len step

/-- The number of entries, the first position and the step. -/
def normalizeSlice (slc : Slice) (len : ℤ) : Except StrError (ℤ × ℤ × ℤ) :=
  let step := slc.step.getD 1
  if step = 0 then .error (.valueError "step size 0 in slice")
  else
    let start := normalizeStart slc.start len step
    let stop := normalizeStop slc.stop len step
    let slen :=
      if (0 < step ∧ stop ≤ start) ∨ (step < 0 ∧ start ≤ stop) then 0
      else (stop - start).tdiv step + (if (stop - start).tmod step ≠ 0 then 1 else 0)
    .ok (slen, start, step)

/-- The bytes of the next `n` characters of a slice. -/
def sliceLoop (t : List UInt8) (isascii : Bool) (step : ℤ) : ℕ → ℤ → List UInt8
  | 0, _ => []
  | n + 1, p =>
      let bytes := byteLength2 (byteAt t p)
      bytesAt t p bytes ++ sliceLoop t isascii step n (skipChars t (p + bytes) (step - 1) isascii)

def getslice (s : Str) (slc : Slice) : Except StrError Str := do
  let (slen, start, step) ← normalizeSlice slc s.nchars
  if slen = 0 then return nullStr
  let buffer := sliceLoop s.str s.isascii step slen.toNat (skipChars s.str 0 start s.isascii)
  newStr slen buffer.length buffer

/-! ### Putting strings together -/

/-- The operator `+`. -/
def add (s t : Str) : Except StrError Str := newStr (s.nchars + t.nchars) (s.nbytes + t.nbytes)
    (bytesAt s.str 0 s.nbytes ++ bytesAt t.str 0 t.nbytes)

def join (s : Str) (lst : List Str) : Except StrError Str :=
  let seps : ℤ := if 1 < lst.length then lst.length - 1 else 0
  newStr ((lst.map Str.nchars).sum + seps * s.nchars) ((lst.map Str.nbytes).sum + seps * s.nbytes)
    (match lst with
    | [] => []
    | nxt :: rest => bytesAt nxt.str 0 nxt.nbytes ++
        rest.flatMap fun nxt => bytesAt s.str 0 s.nbytes ++ bytesAt nxt.str 0 nxt.nbytes)

/-! ### Searching -/

/-- The table `skip`. -/
def bmhSkip (pattern : List UInt8) (pbytes : ℤ) : UInt8 → ℤ := (List.range (pbytes - 1).toNat).foldl
    (fun skip (i : ℕ) => Function.update skip (byteAt pattern i) (pbytes - i - 1)) fun _ => pbytes

/-- Compare backwards from position `i` of the text; the result is the number of bytes of the
pattern that are left when the loop stops. -/
def bmhCompare (text : ℤ → UInt8) (pattern : List UInt8) : ℕ → ℤ → ℕ
  | 0, _ => 0
  | j + 1, i => if text i = byteAt pattern j then bmhCompare text pattern j (i - 1) else j + 1

/-- Every shift is positive, so `tbytes - k` rounds are enough. -/
def bmhLoop (text : ℤ → UInt8) (pattern : List UInt8) (tbytes pbytes : ℤ) : ℕ → ℤ → ℤ
  | 0, _ => -1
  | fuel + 1, k =>
      if k < tbytes then
        if bmhCompare text pattern pbytes.toNat k = 0 then k - pbytes + 1
        else bmhLoop text pattern tbytes pbytes fuel (k + bmhSkip pattern pbytes (text k))
      else -1

/-- The algorithm of Boyer, Moore and Horspool, in the text that starts at position `p` of `t`. -/
def bmh (t : List UInt8) (p : ℤ) (pattern : List UInt8) (tbytes pbytes : ℤ) : ℤ :=
  if tbytes < pbytes then -1
  else bmhLoop (fun i => byteAt t (p + i)) pattern tbytes pbytes (tbytes - pbytes + 1).toNat
    (pbytes - 1)

/-- `find` without `start` and `end`. -/
def find (s sub : Str) : ℤ :=
  let p := skipChars s.str 0 0 s.isascii
  let q := skipChars s.str p s.nchars s.isascii
  let n := bmh s.str p sub.str (q - p) sub.nbytes
  if n < 0 then -1 else charNo s (n + p)

def countLoop (s sub : Str) (q : ℤ) : ℕ → ℤ → ℤ
  | 0, _ => 0
  | fuel + 1, p =>
      let n := bmh s.str p sub.str (q - p) sub.nbytes
      if 0 ≤ n then 1 + countLoop s sub q fuel (p + (n + if 0 < sub.nbytes then sub.nbytes else 1))
      else 0

/-- `count` without `start` and `end`. Every round moves ahead. -/
def count (s sub : Str) : ℤ :=
  let p := skipChars s.str 0 0 s.isascii
  let q := skipChars s.str p s.nchars s.isascii
  countLoop s sub q (q - p + 2).toNat p

def partition (s sep : Str) : Except StrError (Str × Str × Str) :=
  let n := find s sep
  if n < 0 then return (s, nullStr, nullStr)
  else do
    let nb := bmh s.str 0 sep.str s.nbytes sep.nbytes
    let ls ← newStr n nb (bytesAt s.str 0 nb)
    let nbr := s.nbytes - sep.nbytes - nb
    let rs ← newStr (s.nchars - n - sep.nchars) nbr (bytesAt s.str (nb + sep.nbytes) nbr)
    return (ls, sep, rs)

/-- The bytes that `replace` writes in `k` more rounds and after them. -/
def replaceLoop (s old new : Str) : ℕ → Bool → ℤ → ℤ → List UInt8
  | 0, _, p, plen => if 0 < plen then bytesAt s.str p plen else []
  | k + 1, first, p, plen =>
      let n := if first = false ∧ old.nbytes = 0 then 1 else bmh s.str p old.str plen old.nbytes
      (if 0 < n then bytesAt s.str p n else []) ++ bytesAt new.str 0 new.nbytes ++
        replaceLoop s old new k false ((if 0 < n then p + n else p) + old.nbytes)
          (plen - (n + old.nbytes))

/-- The number of rounds. It is an `int`, and the count is cut to it. -/
def replaceCount (s old : Str) (count : Option ℤ) : ℤ :=
  let c := Builtin.count s old
  if count.getD intMax < c then (count.getD intMax).bmod (2 ^ 32) else c

/-- The size of the result is an `int`. -/
def replace (s old new : Str) (count : Option ℤ) : Except StrError Str :=
  let c₀ := replaceCount s old count
  let nbytes := s.nbytes + c₀ * (new.nbytes - old.nbytes)
  if c₀ = 0 then return s
  else if intMax < nbytes then .error .undefined
  else newStr (s.nchars + c₀ * (new.nchars - old.nchars)) nbytes
    (replaceLoop s old new c₀.toNat true 0 s.nbytes)

/-! ### Stripping -/

/-- Whether the character at `p` is among the next `k` characters of `cs`, from `q` on. -/
def containsChar (t : List UInt8) (p : ℤ) (cs : List UInt8) : ℕ → ℤ → Bool
  | 0, _ => false
  | k + 1, q =>
      let n := byteLength2 (byteAt cs q)
      if equalBytes t p cs q n then true else containsChar t p cs k (q + n)

/-- The number of characters that are skipped, and the position after them. -/
def lstripLoop (s cs : Str) : ℕ → ℤ → ℤ → ℤ × ℤ
  | 0, i, p => (i, p)
  | n + 1, i, p =>
      if containsChar s.str p cs.str cs.nchars.toNat 0 then
        lstripLoop s cs n (i + 1) (p + byteLength2 (byteAt s.str p))
      else (i, p)

def lstrip (s : Str) (cs : Option Str) : Except StrError Str :=
  if s.nchars = 0 then return s
  else
    let (i, p) := lstripLoop s (cs.getD whitespaceStr) s.nchars.toNat 0 0
    newStr (s.nchars - i) (s.nbytes - p) (bytesAt s.str p (s.nbytes - p))

/-- The number of characters that are skipped, and the position of the last character that was
looked at. -/
def rstripLoop (s cs : Str) : ℕ → ℤ → ℤ → ℤ × ℤ
  | 0, i, p => (i, p)
  | n + 1, i, p =>
      let p := skipChars s.str p (-1) false
      if containsChar s.str p cs.str cs.nchars.toNat 0 then rstripLoop s cs n (i + 1) p
      else (i, p)

def rstrip (s : Str) (cs : Option Str) : Except StrError Str :=
  if s.nchars = 0 then return s
  else
    let (i, p) := rstripLoop s (cs.getD whitespaceStr) s.nchars.toNat 0 s.nbytes
    let p := skipChars s.str p 1 false
    newStr (s.nchars - i) p (bytesAt s.str 0 p)

def strip (s : Str) (cs : Option Str) : Except StrError Str := do
  let s' ← rstrip s cs
  lstrip s' cs

/-! ### Splitting -/

/-- `split` without a separator. `q` is the start of the current word, `remaining` the number of
characters from `p` on. -/
def splitSpaceLoop (lib : Utf8proc) (s : Str) (maxsplit : ℤ) :
    ℕ → ℤ → Option ℤ → ℤ → List Str → Except StrError (List Str)
  | 0, p, some q, wordlength, res => do
      let word ← newStr wordlength (p - q) (bytesAt s.str q (p - q))
      return res ++ [word]
  | 0, _, none, _, res => return res
  | remaining + 1, p, q, wordlength, res =>
      match lib.iterate (s.str.drop p.toNat) with
      | none => .error .undefined
      | some (nbytes, codepoint) =>
          match q, lib.isspace codepoint with
          | none, false =>
              if (res.length : ℤ) = maxsplit then do
                let word ← newStr (remaining + 1) (s.nbytes - p) (bytesAt s.str p (s.nbytes - p))
                return res ++ [word]
              else splitSpaceLoop lib s maxsplit remaining (p + nbytes) (some p) 1 res
          | some q, false =>
              splitSpaceLoop lib s maxsplit remaining (p + nbytes) (some q) (wordlength + 1) res
          | some q, true => do
              let word ← newStr wordlength (p - q) (bytesAt s.str q (p - q))
              splitSpaceLoop lib s maxsplit remaining (p + nbytes) none 0 (res ++ [word])
          | none, true =>
              splitSpaceLoop lib s maxsplit remaining (p + nbytes) none wordlength res

/-- `split` at a separator. `ssep` is not set before the first round. -/
def splitSepLoop (sep : Str) (maxsplit : ℤ) :
    ℕ → Str → Option Str → List Str → Except StrError (List Str)
  | fuel, rs, ssep, res =>
      if 0 < rs.nchars ∧ (res.length : ℤ) < maxsplit then
        match fuel with
        | 0 => .error .undefined
        | fuel + 1 => do
            let (ls, ssep, rs) ← partition rs sep
            splitSepLoop sep maxsplit fuel rs (some ssep) (res ++ [ls])
      else
        match ssep with
        | none => .error .undefined
        | some ssep => return if 0 < ssep.nchars then res ++ [rs] else res

def split (lib : Utf8proc) (s : Str) (sep : Option Str) (maxsplit : Option ℤ) :
    Except StrError (List Str) :=
  let maxsplit := match maxsplit with
    | none => intMax
    | some n => if n < 0 then intMax else n
  match sep with
  | none => splitSpaceLoop lib s maxsplit s.nchars.toNat 0 none 0 []
  | some sep =>
      if sep.nchars = 0 then .error (.valueError "split: separator is empty string")
      else if s.nchars = 0 then return [nullStr]
      else splitSepLoop sep maxsplit s.nchars.toNat s none []

end Acton.Builtin
