import Acton.Builtin.Hashable
import Acton.ToMathlib.Probe

/-!
# Sets

The sets of the runtime, as `builtin/set.c` has them: a table that is searched by open addressing
from the hash on. A slot is free (`NULL`), holds an element, or holds the mark `dummy` of an element
that was removed, with the hash `-1`.

* A function returns `none` where the code reads or writes outside of the table, compares the mark
  with an element, or where a loop does not stop.
* The hash of an element is a `long` here, so it can be negative, and `>>` keeps its sign. Other
  variables of type `long` are unbounded; where the code converts to `int`, so does the model.
* `__eq__` returns a pointer to a `bool` object. The code uses the pointer as a truth value, and
  does not look at the object (`eqPtr`).
-/

namespace Acton.Builtin

/-- The conversion of an `unsigned long` to a `long`. -/
def toLong (h : UInt64) : ℤ := h.toBitVec.toInt

inductive SetKey (K : Type) where
  | null
  | dummy
  | elem (k : K)
  deriving DecidableEq, Repr

/-- The test `key == NULL`. -/
def SetKey.isNull {K : Type} : SetKey K → Bool
  | .null => true
  | _ => false

/-- The test `key != NULL && key != dummy`. -/
def SetKey.isElem {K : Type} : SetKey K → Bool
  | .elem _ => true
  | _ => false

structure SetEntry (K : Type) where
  key : SetKey K
  hash : ℤ
  deriving DecidableEq, Repr

structure BSet (K : Type) where
  numelements : ℕ
  fill : ℕ
  mask : ℕ
  finger : ℕ
  table : List (SetEntry K)
  deriving DecidableEq, Repr

def minSize : ℕ := 8

variable {K : Type}

/-! ## Probing -/

/-- The slot after slot `i`, and the perturbation. -/
def setProbe (mask : ℕ) (x : ℕ × ℤ) : ℕ × ℤ :=
  let perturb := x.2 / 32
  (((x.1 * 5 + 1 + perturb) % (mask + 1)).toNat, perturb)

/-- Slot and perturbation at the start of a search. -/
def setStart (mask : ℕ) (hash : ℤ) : ℕ × ℤ := ((hash % (mask + 1)).toNat, hash)

/-- The loop over the slots, which goes on as long as `f` has no answer. -/
def setSearch {β : Type} (mask : ℕ) (hash : ℤ) (f : ℕ → Option (Option β)) : Option β :=
  (Probe.search (setProbe mask) (fun x => f x.1) (mask + 14) (setStart mask hash)).join

/-! ## Resizing -/

/-- Whether a slot is free. -/
def cleanSlot (table : List (SetEntry K)) (i : ℕ) : Option (Option ℕ) :=
  match table[i]? with
  | none => some none
  | some entry => if entry.key.isNull then some (some i) else none

/-- An entry is put into the first free slot. -/
def insertClean (table : List (SetEntry K)) (mask : ℕ) (entry : SetEntry K) :
    Option (List (SetEntry K)) := do
  let i ← setSearch mask entry.hash (cleanSlot table)
  some (table.set i entry)

def tableResize (so : BSet K) (minsize : ℤ) : Option (BSet K) := do
  -- the least size greater than `minsize`
  let newsize := Probe.growSize (minsize + 1).toNat (minsize + 1).toNat minSize
  let newtable := List.replicate newsize ⟨.null, 0⟩
  let newmask := newsize - 1
  let entries := if so.fill = so.numelements then so.table.filter fun e => !e.key.isNull
    else so.table.filter fun e => e.key.isElem
  let table ← entries.foldlM (fun table e => insertClean table newmask e) newtable
  some { so with fill := so.numelements, mask := newmask, table := table }

/-! ## Searching and changing the table -/

/-- The result of `__eq__`: a pointer, which is never `NULL`, to an object with a truth value. -/
def eqPtr (hw : Hashable K) (a b : K) : Option Bool := some (hw.eq a b)

/-- The test whether the element in a slot with the same hash is the one that is searched. -/
def testKey [DecidableEq K] (hw : Hashable K) (startkey : SetKey K) (key : K) : Option Bool :=
  match startkey with
  | .elem k => some (k = key ∨ (eqPtr hw k key).isSome)
  | _ => none

/-- Whether the search for a key ends at a slot. -/
def lookSlot [DecidableEq K] (hw : Hashable K) (set : BSet K) (key : K) (hash : ℤ) (i : ℕ) :
    Option (Option ℕ) :=
  match set.table[i]? with
  | none => some none
  | some entry =>
    if entry.key.isNull then some (some i)
    else if entry.hash = hash then
      match testKey hw entry.key key with
      | none => some none
      | some true => some (some i)
      | some false => none
    else none

/-- The slot of a key, or the free slot where the search for it ends. -/
def lookkey [DecidableEq K] (hw : Hashable K) (set : BSet K) (key : K) (hash : ℤ) : Option ℕ :=
  setSearch set.mask hash (lookSlot hw set key hash)

def containsEntry [DecidableEq K] (hw : Hashable K) (set : BSet K) (elem : K) (hash : ℤ) :
    Option Bool := do
  let i ← lookkey hw set elem hash
  let entry ← set.table[i]?
  some !entry.key.isNull

/-- State of the search of `add`: slot, perturbation, and the last slot with a mark. -/
structure AddState where
  i : ℕ
  perturb : ℤ
  freeslot : Option ℕ
  deriving DecidableEq, Repr

/-- How the search of `add` ends. -/
inductive AddResult where
  | active
  | unused (i : ℕ)
  | free (i : ℕ)
  deriving DecidableEq, Repr

def addStep (set : BSet K) (hash : ℤ) (x : AddState) : AddState :=
  let (i, perturb) := setProbe set.mask (x.i, x.perturb)
  let freeslot :=
    match set.table[x.i]? with
    | some entry => if entry.hash ≠ hash ∧ entry.hash = -1 then some x.i else x.freeslot
    | none => x.freeslot
  ⟨i, perturb, freeslot⟩

/-- Whether the search of `add` ends at a slot. -/
def addSlot [DecidableEq K] (hw : Hashable K) (set : BSet K) (key : K) (hash : ℤ) (x : AddState) :
    Option (Option AddResult) :=
  match set.table[x.i]? with
  | none => some none
  | some entry =>
    if entry.key.isNull then
      match x.freeslot with
      | none => some (some (.unused x.i))
      | some j => some (some (.free j))
    else if entry.hash = hash then
      match testKey hw entry.key key with
      | none => some none
      | some true => some (some .active)
      | some false => none
    else none

def addSearch [DecidableEq K] (hw : Hashable K) (set : BSet K) (key : K) (hash : ℤ) :
    Option AddResult :=
  let (i, perturb) := setStart set.mask hash
  (Probe.search (addStep set hash) (addSlot hw set key hash) (set.mask + 14)
    ⟨i, perturb, none⟩).join

def addEntry [DecidableEq K] (hw : Hashable K) (set : BSet K) (key : K) (hash : ℤ) :
    Option (BSet K) := do
  match ← addSearch hw set key hash with
  | .active => some set
  | .free j =>
    some { set with
      numelements := set.numelements + 1
      table := set.table.set j ⟨.elem key, hash⟩ }
  | .unused i =>
    let set := { set with
      fill := set.fill + 1
      numelements := set.numelements + 1
      table := set.table.set i ⟨.elem key, hash⟩ }
    if set.fill * 5 < set.mask * 3 then some set
    else
      let n : ℤ := set.numelements
      tableResize set (toInt (if n > 50000 then n * 2 else n * 4))

/-- Remove an element; `DISCARD_FOUND` is `true`. -/
def discardEntry [DecidableEq K] (hw : Hashable K) (set : BSet K) (elem : K) (hash : ℤ) :
    Option (Bool × BSet K) := do
  let i ← lookkey hw set elem hash
  let entry ← set.table[i]?
  if !entry.key.isNull then
    some (true, { set with
      numelements := set.numelements - 1
      table := set.table.set i ⟨.dummy, -1⟩ })
  else some (false, set)

/-! ## Iterating -/

/-- The next of `n` entries from slot `i` on that holds an element, and where to go on. -/
def nextSlot (table : List (SetEntry K)) : ℕ → ℤ → Option (Option (SetEntry K × ℤ))
  | 0, _ => some none
  | n + 1, i =>
    if i < 0 then none
    else
      match table[i.toNat]? with
      | none => none
      | some entry =>
        if entry.key.isElem then some (some (entry, toInt (i + 1)))
        else nextSlot table n (i + 1)

/-- One call of `__next__` of an iterator over entries; `none` inside is `StopIteration`. -/
def BSet.nextEntry (set : BSet K) (nxt : ℤ) : Option (Option (SetEntry K × ℤ)) :=
  nextSlot set.table (set.mask + 1 - nxt).toNat nxt

/-- The entries of `n` calls; none of them may be `StopIteration`. -/
def BSet.takeEntries (set : BSet K) : ℕ → ℤ → Option (List (SetEntry K))
  | 0, _ => some []
  | n + 1, nxt => do
    match ← set.nextEntry nxt with
    | none => none
    | some (entry, nxt) => (set.takeEntries n nxt).map (entry :: ·)

/-- The entries that the loops with a counter go through. -/
def BSet.entries (set : BSet K) : Option (List (SetEntry K)) := set.takeEntries set.numelements 0

/-- The element in an entry that an iterator has returned. -/
def SetEntry.elem? (entry : SetEntry K) : Option K :=
  match entry.key with
  | .elem k => some k
  | _ => none

/-! ## Methods -/

namespace BSet

/-- An empty set. -/
def empty : BSet K := ⟨0, 0, minSize - 1, 0, List.replicate minSize ⟨.null, 0⟩⟩

variable [DecidableEq K] (hw : Hashable K)

def add (set : BSet K) (elem : K) : Option (BSet K) := addEntry hw set elem (toLong (hw.hash elem))

/-- `elems` are the elements that the iterator of the argument yields. -/
def update (set : BSet K) (elems : List K) : Option (BSet K) :=
  elems.foldlM (fun set elem => set.add hw elem) set

/-- A set of the elements that an iterator yields. -/
def new (elems : List K) : Option (BSet K) := (empty : BSet K).update hw elems

/-- `update` with another set. -/
def updateSet (set other : BSet K) : Option (BSet K) := do
  let entries ← other.entries
  let elems ← entries.mapM SetEntry.elem?
  set.update hw elems

def discard (set : BSet K) (elem : K) : Option (BSet K) :=
  (discardEntry hw set elem (toLong (hw.hash elem))).map Prod.snd

def contains (set : BSet K) (elem : K) : Option Bool :=
  containsEntry hw set elem (toLong (hw.hash elem))

def containsnot (set : BSet K) (elem : K) : Option Bool := (set.contains hw elem).map not

/-- The loop of `pop`, which goes round in the table. -/
def popSlot (set : BSet K) : ℕ → ℕ → Option (ℕ × K)
  | 0, _ => none
  | fuel + 1, i =>
    match set.table[i]? with
    | none => none
    | some entry =>
      match entry.key with
      | .elem k => some (i, k)
      | _ => set.popSlot fuel (if i + 1 > set.mask then 0 else i + 1)

/-- The element that is removed; `none` inside is the `ValueError` of an empty set. -/
def pop (set : BSet K) : Option (Option K × BSet K) :=
  if set.numelements = 0 then some (none, set)
  else do
    let (i, k) ← set.popSlot (set.mask + 1) (set.finger % (set.mask + 1))
    some (some k, { set with
      numelements := set.numelements - 1
      finger := i + 1
      table := set.table.set i ⟨.dummy, -1⟩ })

/-- The loop of `isdisjoint` over the entries of `other`. The iterator raises `StopIteration` after
the last of them, and nothing catches it: `none` inside. -/
def disjointLoop (set other : BSet K) : ℕ → ℤ → Option (Option Bool)
  | 0, _ => none
  | fuel + 1, nxt => do
    match ← other.nextEntry nxt with
    | none => some none
    | some (entry, nxt) =>
      let k ← entry.elem?
      if ← containsEntry hw set k entry.hash then some (some false)
      else disjointLoop set other fuel nxt

/-- `same` says whether the two arguments are the same object. -/
def isdisjoint (same : Bool) (set other : BSet K) : Option (Option Bool) :=
  if same then some (some (set.numelements = 0))
  else if other.numelements > set.numelements then disjointLoop hw other set (set.mask + 2) 0
  else disjointLoop hw set other (other.mask + 2) 0

/-- The loop that the operators have in common: a step for every entry. -/
def forEntries (other res : BSet K) (f : BSet K → K → ℤ → Option (BSet K)) : Option (BSet K) := do
  let entries ← other.entries
  entries.foldlM (fun res entry => do
    let k ← entry.elem?
    f res k entry.hash) res

/-- `__sub__`. -/
def sub (set other : BSet K) : Option (BSet K) :=
  other.forEntries set fun res k hash => (discardEntry hw res k hash).map Prod.snd

/-- `__and__`. -/
def and (set other : BSet K) : Option (BSet K) :=
  let (set, other) := if other.numelements > set.numelements then (other, set) else (set, other)
  set.forEntries empty fun res k hash => do
    if ← containsEntry hw other k hash then addEntry hw res k hash else some res

/-- `__or__`. -/
def or (set other : BSet K) : Option (BSet K) :=
  let (set, other) := if other.numelements > set.numelements then (other, set) else (set, other)
  other.forEntries set fun res k hash => addEntry hw res k hash

/-- `__xor__`. -/
def xor (set other : BSet K) : Option (BSet K) :=
  other.forEntries set fun res k hash => do
    let (found, res) ← discardEntry hw res k hash
    if found then some res else addEntry hw res k hash

end BSet

/-! ## Sequences of operations -/

/-- The operations. Sets are objects at numbered addresses: `x`, `y` are the arguments, and `dst` is
where a new object is put. -/
inductive SetOp (K : Type) where
  | new (dst : ℕ) (elems : List K)
  | add (x : ℕ) (elem : K)
  | discard (x : ℕ) (elem : K)
  | pop (x : ℕ)
  | update (x : ℕ) (elems : List K)
  | updateSet (x y : ℕ)
  | or (dst x y : ℕ)
  | and (dst x y : ℕ)
  | sub (dst x y : ℕ)
  | xor (dst x y : ℕ)
  | isdisjoint (x y : ℕ)
  | contains (x : ℕ) (elem : K)
  | containsnot (x : ℕ) (elem : K)
  | len (x : ℕ)
  deriving DecidableEq, Repr

/-- What an operation returns, or the exception that it raises. -/
inductive SetResult (K : Type) where
  | unit
  | bool (b : Bool)
  | int (n : ℕ)
  | elem (k : K)
  | valueError (msg : String)
  | stopIteration (msg : String)
  deriving DecidableEq, Repr

/-- The objects, by their addresses. -/
abbrev SetHeap (K : Type) := ℕ → BSet K

variable [DecidableEq K]

def SetOp.run (hw : Hashable K) (σ : SetHeap K) : SetOp K → Option (SetResult K × SetHeap K)
  | .new dst elems => (BSet.new hw elems).map fun s => (.unit, Function.update σ dst s)
  | .add x elem => ((σ x).add hw elem).map fun s => (.unit, Function.update σ x s)
  | .discard x elem => ((σ x).discard hw elem).map fun s => (.unit, Function.update σ x s)
  | .pop x => (σ x).pop.map fun
    | (none, s) => (.valueError "pop from an empty set", Function.update σ x s)
    | (some k, s) => (.elem k, Function.update σ x s)
  | .update x elems => ((σ x).update hw elems).map fun s => (.unit, Function.update σ x s)
  | .updateSet x y =>
    if x = y then some (.unit, σ)
    else ((σ x).updateSet hw (σ y)).map fun s => (.unit, Function.update σ x s)
  | .or dst x y => ((σ x).or hw (σ y)).map fun s => (.unit, Function.update σ dst s)
  | .and dst x y => ((σ x).and hw (σ y)).map fun s => (.unit, Function.update σ dst s)
  | .sub dst x y => ((σ x).sub hw (σ y)).map fun s => (.unit, Function.update σ dst s)
  | .xor dst x y => ((σ x).xor hw (σ y)).map fun s => (.unit, Function.update σ dst s)
  | .isdisjoint x y => ((σ x).isdisjoint hw (x = y) (σ y)).map fun
    | none => (.stopIteration "set iterator terminated", σ)
    | some b => (.bool b, σ)
  | .contains x elem => ((σ x).contains hw elem).map fun b => (.bool b, σ)
  | .containsnot x elem => ((σ x).containsnot hw elem).map fun b => (.bool b, σ)
  | .len x => some (.int (σ x).numelements, σ)

/-- The results of a sequence of operations, and the objects at its end. -/
def runSet (hw : Hashable K) : SetHeap K → List (SetOp K) → Option (List (SetResult K) × SetHeap K)
  | σ, [] => some ([], σ)
  | σ, op :: ops => do
    let (r, σ) ← op.run hw σ
    let (rs, σ) ← runSet hw σ ops
    some (r :: rs, σ)

end Acton.Builtin
