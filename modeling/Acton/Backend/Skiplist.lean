import Acton.ToMathlib.Links

/-!
# Skiplists

The skiplists of the database backend, as the C code has them: nodes on a heap, with an array of
forward pointers each, and a header node whose key is `LONG_MAX`. Nodes are at numbered addresses;
allocation takes the next number. A function returns `none` if it reads or writes memory that is not
allocated, an array outside of its bounds, or if a loop would not stop.

A comparator returns a negative number, zero or a positive number. Keys may be pointers, so the
sentinel is not a key: `cmpMax k` is what the comparator returns for the sentinel and `k`, or `none`
if it cannot be called, as `uuid_cmp`, which reads the memory at `LONG_MAX`. The random number that
`skiplistInsert` draws is an argument.
-/

namespace Acton.Backend

/-- Machine words, which keys and values are. -/
abbrev WORD := UInt64
def longMax : WORD := 0x7FFFFFFFFFFFFFFF
def skiplistMaxLevel : ℕ := 6
abbrev Addr := ℕ

structure Snode where
  key : WORD
  value : WORD
  forward : List (Option Addr)
  deriving DecidableEq, Repr

/-- A list and the heap that its nodes are on. Addresses from `brk` on have never been used. -/
structure Skiplist where
  level : ℕ
  header : Addr
  noItems : ℤ
  heap : Addr → Option Snode
  brk : Addr

namespace Skiplist

/-- Read `x->forward[i]`. -/
def fwd (s : Skiplist) (i : ℕ) (x : Addr) : Option (Option Addr) := do
  (← s.heap x).forward[i]?

/-- Read `x->key`. -/
def key (s : Skiplist) (x : Addr) : Option WORD := (s.heap x).map Snode.key

/-- Write a node. -/
def setNode (s : Skiplist) (x : Addr) (nd : Snode) : Skiplist :=
  { s with heap := Function.update s.heap x (some nd) }

/-- Write `x->forward[i]`. -/
def setFwd (s : Skiplist) (x : Addr) (i : ℕ) (p : Option Addr) : Option Skiplist := do
  let nd ← s.heap x
  if i < nd.forward.length then some (s.setNode x { nd with forward := nd.forward.set i p })
  else none

/-- Free a node. -/
def free (s : Skiplist) (x : Addr) : Skiplist :=
  { s with heap := Function.update s.heap x none }

end Skiplist
open Skiplist

/-- The key of the header is the sentinel, its value is never set. -/
def skiplistInit : Skiplist where
  level := 0
  header := 0
  noItems := 0
  heap := Function.update (fun _ => none) 0
    (some ⟨longMax, 0, List.replicate skiplistMaxLevel none⟩)
  brk := 1

def randLevel (randno : ℕ) : ℕ := randno % skiplistMaxLevel

/-- The loop that the functions start with: from level `i` down to level 0, follow the links for as
long as the key of the next node satisfies `p`. The result has the nodes where it stops at the
levels from 0 to `i`, which are the entries of `update`. -/
def descend (s : Skiplist) (p : WORD → Bool) : ℕ → Addr → Option (List Addr)
  | 0, x => do
    let y ← advance (s.fwd 0) (fun a => (s.key a).map p) s.brk x
    some [y]
  | i + 1, x => do
    let y ← advance (s.fwd (i + 1)) (fun a => (s.key a).map p) s.brk x
    let update ← descend s p i y
    some (update ++ [y])

/-- The node where the loop ends. -/
def locate (s : Skiplist) (p : WORD → Bool) : Option Addr := do
  (← descend s p s.level s.header)[0]?

/-- Chain the node `x` after the nodes of `update`, from level `i` on. -/
def linkLevels (x : Addr) : ℕ → List Addr → Skiplist → Option Skiplist
  | _, [], s => some s
  | i, u :: update, s => do
    let s ← s.setFwd x i (← s.fwd i u)
    let s ← s.setFwd u i (some x)
    linkLevels x (i + 1) update s

/-- Take the node `x` out of the levels from `i` on, up to the first that does not have it. -/
def unlinkLevels (x : Addr) : ℕ → List Addr → Skiplist → Option Skiplist
  | _, [], s => some s
  | i, u :: update, s => do
    if (← s.fwd i u) ≠ some x then some s
    else
      let s ← s.setFwd u i (← s.fwd i x)
      unlinkLevels x (i + 1) update s

/-- The highest level, from `l` down, that is not empty. -/
def shrink (s : Skiplist) : ℕ → Option ℕ
  | 0 => some 0
  | l + 1 => do
    match ← s.fwd (l + 1) s.header with
    | none => shrink s l
    | some _ => some (l + 1)

section Operations
variable (cmp : WORD → WORD → ℤ) (cmpMax : WORD → Option ℤ)

/-- Insert a new node at level `level`, given the nodes before it. -/
def insertNode (s : Skiplist) (key value : WORD) (level : ℕ) (update : List Addr) :
    Option Skiplist := do
  let update := update ++ List.replicate (level - s.level) s.header
  let x := s.brk
  let s' := { s.setNode x ⟨key, value, List.replicate (level + 1) none⟩ with
    level := max s.level level
    brk := s.brk + 1 }
  let s' ← linkLevels x 0 (update.take (level + 1)) s'
  some { s' with noItems := s'.noItems + 1 }

def skiplistInsert (s : Skiplist) (key value : WORD) (randno : ℕ) : Option Skiplist := do
  let update ← descend s (fun k => cmp k key < 0) s.level s.header
  let x ← update[0]?
  match ← s.fwd 0 x with
  | none => insertNode s key value (randLevel randno) update
  | some y =>
    let nd ← s.heap y
    if cmp key nd.key = 0 then some (s.setNode y { nd with value := value })
    else insertNode s key value (randLevel randno) update

/-- The node with the key, or the null pointer. -/
def skiplistSearch (s : Skiplist) (key : WORD) : Option (Option Addr) := do
  let x ← locate s fun k => cmp k key ≤ 0
  let k ← s.key x
  if k ≠ longMax ∧ cmp key k = 0 then some (some x) else some none

def skiplistSearchHigher (s : Skiplist) (key : WORD) : Option (Option Addr) := do
  let x ← locate s fun k => cmp k key < 0
  s.fwd 0 x

def skiplistSearchLower (s : Skiplist) (key : WORD) : Option (Option Addr) := do
  let x ← locate s fun k => cmp k key ≤ 0
  some (some x)

/-- Compare the key of a node, which may be the header, with a key. -/
def cmpNode (k key : WORD) : Option ℤ := if k = longMax then cmpMax key else some (cmp k key)

/-- The new list and the value of the deleted node, if any. In an empty list the key is compared
with that of the header. -/
def skiplistDelete (s : Skiplist) (key : WORD) : Option (Skiplist × Option WORD) := do
  let update ← descend s (fun k => cmp k key < 0) s.level s.header
  let x ← update[0]?
  let x := (← s.fwd 0 x).getD x
  let nd ← s.heap x
  if (← cmpNode cmp cmpMax nd.key key) = 0 then
    let s' ← unlinkLevels x 0 update s
    let s' := s'.free x
    let level ← shrink s' s'.level
    some ({ s' with level := level, noItems := s'.noItems - 1 }, some nd.value)
  else some (s, none)

/-- Calls of the operations that change a list. -/
inductive SkiplistOp
  | insert (key value : WORD) (randno : ℕ)
  | delete (key : WORD)

/-- The key of a call. -/
def SkiplistOp.key : SkiplistOp → WORD
  | insert key _ _ => key
  | delete key => key

/-- One call. -/
def SkiplistOp.run (s : Skiplist) : SkiplistOp → Option Skiplist
  | insert key value randno => skiplistInsert cmp s key value randno
  | delete key => (skiplistDelete cmp cmpMax s key).map Prod.fst

/-- A sequence of calls on a new list. -/
def runSkiplist (ops : List SkiplistOp) : Option Skiplist :=
  ops.foldlM (SkiplistOp.run cmp cmpMax) skiplistInit

end Operations
end Acton.Backend
