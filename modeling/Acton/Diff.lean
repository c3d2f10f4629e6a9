import Mathlib.Tactic

/-!
# The diff algorithm

`myers_diff` compares two lists of lines. It cuts off a common prefix and suffix, or splits both
lists at the best match for the middle line of the first one, or else at anchors: lines that occur
exactly once in both. `plan` says which of these a call does, `myersDiff` follows it. The function
is recursive, so it takes fuel; the sum of the lengths of the two lists is enough.

The loops that sort the anchors use `i` and `j` as their variables, which are also the parameters
with the positions of the two lists. `sortAnchors` returns what the loops leave in them.
-/

namespace Acton.Diff
variable {α : Type}

/-- The operations of an edit script, with the positions of the line in the old and the new list. -/
inductive Op (α : Type)
  | keep (content : α) (indexOld indexNew : ℕ)
  | insert (content : α) (indexNew : ℕ)
  | delete (content : α) (indexOld : ℕ)
  deriving DecidableEq, Repr

/-- `Keep` operations for lines from the positions `i` and `j` on. -/
def keeps (lines : List α) (i j : ℕ) : List (Op α) :=
    lines.mapIdx fun n l => .keep l (i + n) (j + n)

def inserts (lines : List α) (j : ℕ) : List (Op α) := lines.mapIdx fun n l => .insert l (j + n)
def deletes (lines : List α) (i : ℕ) : List (Op α) := lines.mapIdx fun n l => .delete l (i + n)

/-- `lines[start:stop]`. -/
def slice (lines : List α) (start stop : ℕ) : List α := (lines.take stop).drop start

section Plan
variable [DecidableEq α]

/-- The number of equal lines at the start of two lists. -/
def prefixLen : List α → List α → ℕ
  | x :: e, y :: f => if x = y then prefixLen e f + 1 else 0
  | _, _ => 0

/-- The number of equal lines at the end of two lists, without the first `n` lines. -/
def suffixLen (e f : List α) (n : ℕ) : ℕ := prefixLen (e.drop n).reverse (f.drop n).reverse

/-- The length and the position of the first longest match in `f` for the lines of `e` from `middle`
on. -/
def bestMatch (e f : List α) (middle : ℕ) : ℤ × ℤ := (List.range f.length).foldl (fun best pos =>
    let matchLen := prefixLen (e.drop middle) (f.drop pos)
    if best.1 < matchLen then (↑matchLen, ↑pos) else best) (-1, -1)

/-- Add the position of a line to a dict from lines to their positions. -/
def addIndex (d : List (α × List ℕ)) (line : α) (idx : ℕ) : List (α × List ℕ) :=
  if d.any (·.1 = line) then d.map fun p => if p.1 = line then (p.1, p.2 ++ [idx]) else p
  else d ++ [(line, [idx])]

/-- The positions of all lines, in the order in which the lines occur first. -/
def uniqueLines (e : List α) : List (α × List ℕ) :=
  e.zipIdx.foldl (fun d p => addIndex d p.1 p.2) []

/-- The positions of the lines that occur exactly once in both lists. -/
def findAnchors (e f : List α) : List (ℕ × ℕ) := (uniqueLines e).filterMap fun p =>
    match p.2, (uniqueLines f).find? (·.1 = p.1) with
    | [eIdx], some (_, [fIdx]) => some (eIdx, fIdx)
    | _, _ => none

end Plan

/-- Swap two neighbours that are in the wrong order. -/
def swapAt (anchors : List (ℕ × ℕ)) (j : ℕ) : List (ℕ × ℕ) :=
  match anchors[j]?, anchors[j + 1]? with
  | some a, some b => if b.1 < a.1 then (anchors.set j b).set (j + 1) a else anchors
  | _, _ => anchors

/-- The bubble sort, with the values of the loop variables after it. -/
def sortAnchors (anchors : List (ℕ × ℕ)) (i j : ℕ) : List (ℕ × ℕ) × ℕ × ℕ :=
  (List.range anchors.length).foldl (fun s i =>
    let t := (List.range (anchors.length - i - 1)).foldl (fun t j => (swapAt t.1 j, j)) (s.1, s.2.2)
    (t.1, i, t.2)) (anchors, i, j)

/-- What a call of `myers_diff` does. -/
inductive Plan (α : Type)
  /-- Return the operations. -/
  | done (ops : List (Op α))
  /-- Cut off a common prefix and suffix. -/
  | trim (prefixLen suffixLen : ℕ)
  /-- Split at a match of the middle line. -/
  | split (middle bestMatchPos bestMatchLen : ℕ)
  /-- Split at the anchors, with new values of `i` and `j`. -/
  | anchors (sorted : List (ℕ × ℕ)) (i j : ℕ)

/-- The cases of `myers_diff` in the order of the source. -/
def plan [DecidableEq α] (e f : List α) (i j : ℕ) : Plan α :=
  if e.length = 0 then .done (inserts f j)
  else if f.length = 0 then .done (deletes e i)
  else
    let p := prefixLen e f
    let s := suffixLen e f p
    if 0 < p ∨ 0 < s then .trim p s
    else if e.length = 1 ∧ 1 < f.length then .done (deletes e i ++ inserts f j)
    else if f.length = 1 ∧ 1 < e.length then .done (deletes e i ++ inserts f j)
    else if e.length = 1 ∧ f.length = 1 then
      .done (if e = f then keeps e i j else deletes e i ++ inserts f j)
    else
      let middle := e.length / 2
      let best := bestMatch e f middle
      if 0 < best.1 then .split middle best.2.toNat best.1.toNat
      else
        let (sorted, i, j) := sortAnchors (findAnchors e f) i j
        if 0 < sorted.length then .anchors sorted i j
        else .done (deletes e i ++ inserts f j)

section Loop
variable (rec : List α → List α → ℕ → ℕ → Option (List (Op α))) (e f : List α) (i j : ℕ)

/-- The loop over the anchors and the call for the lines after the last one. -/
def anchorLoop : List (ℕ × ℕ) → ℕ → ℕ → List (Op α) → Option (List (Op α))
  | [], lastE, lastF, result =>
    if lastE < e.length ∨ lastF < f.length then do
      let afterOps ← rec (e.drop lastE) (f.drop lastF) (i + lastE) (j + lastF)
      some (result ++ afterOps)
    else some result
  | (eIdx, fIdx) :: anchors, lastE, lastF, result => do
    let beforeOps ← ( if lastE < eIdx ∨ lastF < fIdx then
        rec (slice e lastE eIdx) (slice f lastF fIdx) (i + lastE) (j + lastF)
      else some [])
    let line ← e[eIdx]?
    anchorLoop anchors (eIdx + 1) (fIdx + 1)
      (result ++ beforeOps ++ [.keep line (i + eIdx) (j + fIdx)])

end Loop

/-- `myers_diff` with fuel. -/
def myersDiffFuel [DecidableEq α] : ℕ → List α → List α → ℕ → ℕ → Option (List (Op α))
  | 0, _, _, _, _ => none
  | n + 1, e, f, i, j =>
    match plan e f i j with
    | .done ops => some ops
    | .trim p s => do
      let middleOps ← myersDiffFuel n (slice e p (e.length - s)) (slice f p (f.length - s))
        (i + p) (j + p)
      let suffixOps :=
        keeps (e.drop (e.length - s)) (i + (e.length - s)) (j + (f.length - s))
      some (keeps (e.take p) i j ++ middleOps ++ suffixOps)
    | .split middle pos len => do
      let beforeOps ← myersDiffFuel n (slice e 0 middle) (slice f 0 pos) i j
      let afterOps ← myersDiffFuel n (e.drop (middle + len)) (f.drop (pos + len))
        (i + middle + len) (j + pos + len)
      some (beforeOps ++ keeps ((e.drop middle).take len) (i + middle) (j + pos) ++ afterOps)
    | .anchors sorted i j => anchorLoop (myersDiffFuel n) e f i j sorted 0 0 []

/-- The call of `diff`, from the start of both lists. -/
def myersDiff [DecidableEq α] (e f : List α) : Option (List (Op α)) :=
  myersDiffFuel (e.length + f.length + 1) e f 0 0

/-! ## Edit scripts -/

/-- The line of the old list that an operation is about, with its position. -/
def Op.old : Op α → Option (α × ℕ)
  | .keep content indexOld _ => some (content, indexOld)
  | .insert _ _ => none
  | .delete content indexOld => some (content, indexOld)

/-- The line of the new list that an operation is about, with its position. -/
def Op.new : Op α → Option (α × ℕ)
  | .keep content _ indexNew => some (content, indexNew)
  | .insert content indexNew => some (content, indexNew)
  | .delete _ _ => none

/-- The operations are an edit script from `e`, which starts at position `i`, to `f`, which starts
at position `j`. -/
structure EditScript (ops : List (Op α)) (e f : List α) (i j : ℕ) : Prop where
  old : ops.filterMap Op.old = e.zipIdx i
  new : ops.filterMap Op.new = f.zipIdx j

end Acton.Diff
