import Acton.Builtin.Hashable
import Acton.ToMathlib.Probe

/-!
# Dictionaries

The dictionaries of the runtime, as `builtin/dict.c` has them. The entries are in an array, in the
order of their insertion. A table with `INIT_SIZE` slots is searched by a scan of the entries; a
larger table has an array of indices that is searched by open addressing from the hash on. Deleted
entries keep their place until the next resize, which copies the others.

* A function returns `none` where the code would read or write memory that it must not (through a
  null pointer, outside of an array, in entries that are not in use), where an `int` counter
  overflows, and where a loop does not stop.
* `long` is unbounded. Where the code converts a `long` to an `int`, so does the model (`toInt`).
* The fields of a table are in front of `tb_indices`, and memory is little-endian: the `int` in
  front of `tb_indices[0]` is the upper half of `tb_nentries`. A deletion in a table of `INIT_SIZE`
  slots can write there, because `$lookdict_index` may not find the index of the entry. This is why
  `nentries` is a field of its own and not the length of `entries`.
* The entries of a table are those below `tb_nentries`; what is above is not read.
* Keys and values are objects: `=` on them is the comparison of pointers.
-/

namespace Acton.Builtin

/-- Entry of the array; the value `DELETED` is `none`. -/
structure Entry (K V : Type) where
  hash : UInt64
  key : K
  value : Option V
  deriving DecidableEq, Repr

structure Table (K V : Type) where
  size : ℕ
  usable : ℤ
  nentries : ℤ
  indices : List ℤ
  entries : List (Entry K V)
  deriving DecidableEq, Repr

structure Dict (K V : Type) where
  numelements : ℕ
  table : Option (Table K V)
  deriving DecidableEq, Repr

def initSize : ℕ := 4
def dkixEmpty : ℤ := -1
def dkixDummy : ℤ := -2

/-! ## Probing -/

section Probing
variable {β : Type}

/-- Slot and perturbation at the start of a search. -/
def firstProbe (size : ℕ) (hash : UInt64) : UInt64 × UInt64 :=
  (hash &&& UInt64.ofNat (size - 1), hash)

/-- Slot and perturbation after a collision. -/
def nextProbe (size : ℕ) (x : UInt64 × UInt64) : UInt64 × UInt64 :=
  let perturb := x.2 >>> 5
  ((x.1 * 5 + perturb + 1) &&& UInt64.ofNat (size - 1), perturb)

/-- The loop over the slots, which goes on as long as `f` has no answer. -/
def probe (size : ℕ) (hash : UInt64) (f : ℕ → Option (Option β)) : Option β :=
  (Probe.search (nextProbe size) (fun x => f x.1.toNat) (size + 13) (firstProbe size hash)).join

/-- Read a slot and look whether the search ends there. -/
def atSlot (indices : List ℤ) (f : ℕ → ℤ → Option (Option β)) (i : ℕ) : Option (Option β) :=
  match indices[i]? with
  | none => some none
  | some ix => f i ix

end Probing
variable {K V : Type}

/-! ## Resizing -/

/-- The entries get a slot each, the first of them with index `ix`. The stored hash of an entry is
only valid if the old table was a hash table. -/
def buildIndices (hw : Hashable K) (oldsize size : ℕ) :
    ℕ → List (Entry K V) → List ℤ → Option (List (Entry K V) × List ℤ)
  | _, [], indices => some ([], indices)
  | ix, ep :: eps, indices => do
    let hash := if oldsize > initSize then ep.hash else hw.hash ep.key
    let i ← probe size hash (atSlot indices fun i x =>
      if x = dkixEmpty then some (some i) else none)
    -- `ix` is an `int`
    if 2 ^ 31 ≤ ix + 1 then none
    else
      let (eps, indices) ← buildIndices hw oldsize size (ix + 1) eps (indices.set i ix)
      some ({ ep with hash := hash } :: eps, indices)

/-- The first `n` entries that are not deleted. -/
def copyEntries : ℕ → List (Entry K V) → Option (List (Entry K V))
  | 0, _ => some []
  | _ + 1, [] => none
  | n + 1, ep :: eps =>
    match ep.value with
    | none => copyEntries (n + 1) eps
    | some _ => (copyEntries n eps).map (ep :: ·)

/-- The entries of the new table, before their indices are built. -/
def Table.newEntries (oldtable : Table K V) (numelements : ℕ) : Option (List (Entry K V)) :=
  if oldtable.nentries = numelements then
    if numelements ≤ oldtable.entries.length then some (oldtable.entries.take numelements) else none
  else if numelements < 2 ^ 31 then copyEntries numelements oldtable.entries else none

def dictresize (hw : Hashable K) (d : Dict K V) : Option (Dict K V) := do
  let numelements := d.numelements
  let minsize := 3 * numelements
  let newsize := Probe.growSize minsize minsize initSize
  let usable : ℤ := 2 * newsize / 3 - numelements
  let indices := List.replicate newsize dkixEmpty
  if numelements = 0 then
    some { d with table := some ⟨newsize, usable, numelements, indices, []⟩ }
  else
    let oldtable ← d.table
    let entries ← oldtable.newEntries numelements
    let (entries, indices) ←
      if newsize > initSize then buildIndices hw oldtable.size newsize 0 entries indices
      else some (entries, indices)
    some { d with table := some ⟨newsize, usable, numelements, indices, entries⟩ }

/-! ## Looking up -/

namespace Table

/-- The slot of an index, or `DKIX_EMPTY`. -/
def lookdictIndex (table : Table K V) (hash : UInt64) (index : ℕ) : Option ℤ :=
  probe table.size hash (atSlot table.indices fun i ix =>
    if ix = index then some (some (toInt i))
    else if ix = dkixEmpty then some (some dkixEmpty)
    else none)

/-- The search of a table without hashes: the `n` entries from `ix` on. -/
def linearSearch [DecidableEq K] (hw : Hashable K) (entries : List (Entry K V)) (key : K) :
    ℕ → ℕ → Option (Option (ℕ × V))
  | 0, _ => some none
  | n + 1, ix =>
    match entries[ix]? with
    | none => none
    | some entry =>
      match entry.value with
      | some v =>
        if entry.key = key ∨ hw.eq key entry.key then some (some (ix, v))
        else linearSearch hw entries key n (ix + 1)
      | none => linearSearch hw entries key n (ix + 1)

/-- What the search of a hash table finds in slot `i`, which holds `ix`. -/
def atIndex [DecidableEq K] (hw : Hashable K) (entries : List (Entry K V)) (hash : UInt64) (key : K)
    (_ : ℕ) (ix : ℤ) : Option (Option (Option (ℕ × V))) :=
  if ix = dkixEmpty then some (some none)
  else if 0 ≤ ix then
    match entries[ix.toNat]? with
    | none => some none
    | some entry =>
      match entry.value with
      | some v =>
        if entry.key = key ∨ (entry.hash = hash ∧ hw.eq key entry.key) then
          some (some (some (ix.toNat, v)))
        else none
      | none => none
  else none

/-- Index and value of the entry with a key. -/
def lookdict [DecidableEq K] (hw : Hashable K) (table : Table K V) (hash : UInt64) (key : K) :
    Option (Option (ℕ × V)) :=
  if table.size = initSize then
    linearSearch hw table.entries key (toInt table.nentries).toNat 0
  else
    probe table.size hash (atSlot table.indices (atIndex hw table.entries hash key))

/-- The slot for a key that is not in the table. -/
def findEmptySlot (table : Table K V) (hash : UInt64) : Option ℤ :=
  if table.size = initSize then some table.nentries
  else probe table.size hash (atSlot table.indices fun i ix =>
    if ix ≥ 0 then none else some (some i))

/-- Write `tb_indices[i]`. -/
def setIndex (table : Table K V) (i : ℤ) (v : ℤ) : Option (Table K V) :=
  if 0 ≤ i ∧ i < table.size then some { table with indices := table.indices.set i.toNat v }
  else if i = -1 then some { table with nentries := table.nentries % 2 ^ 32 + 2 ^ 32 * v }
  else none

/-- Mark the slot of an index as `DKIX_DUMMY`. -/
def giveUp (table : Table K V) (hash : UInt64) (ix : ℕ) : Option (Table K V) := do
  let i ← table.lookdictIndex hash ix
  table.setIndex i dkixDummy

/-- Write the entry at `tb_nentries`, which must be the first that is not in use. -/
def addEntry (table : Table K V) (ep : Entry K V) : Option (Table K V) :=
  if table.nentries = table.entries.length ∧ table.entries.length < 2 * table.size / 3 then
    some { table with
      entries := table.entries ++ [ep]
      usable := table.usable - 1
      nentries := table.nentries + 1 }
  else none

/-- Write the value of an entry. -/
def setValue (table : Table K V) (ix : ℕ) (value : Option V) : Table K V :=
  { table with entries := table.entries.modify ix fun entry => { entry with value := value } }

/-- The hash that is computed for a search: none if the table is scanned. -/
def hashFor (hw : Hashable K) (table : Table K V) (key : K) : UInt64 :=
  if table.size > initSize then hw.hash key else 0

end Table
namespace Dict
variable [DecidableEq K]

/-- `$lookdict`, which finds nothing without a table. -/
def lookdict (hw : Hashable K) (dict : Dict K V) (hash : UInt64) (key : K) :
    Option (Option (ℕ × V)) :=
  match dict.table with
  | none => some none
  | some table => table.lookdict hw hash key

/-! ## Storing -/

/-- The part of `insertdict` after the resize. -/
def insertTable [DecidableEq V] (hw : Hashable K) (dict : Dict K V) (hash : UInt64) (key : K)
    (value : V) : Option (Dict K V) := do
  let table ← dict.table
  let hash := if table.size = 2 * initSize then hw.hash key else hash
  match ← table.lookdict hw hash key with
  | none =>
    let newpos ← table.findEmptySlot hash
    let table' ← table.setIndex newpos (toInt table.nentries)
    let table' ← table'.addEntry ⟨hash, key, some value⟩
    some ⟨dict.numelements + 1, some table'⟩
  | some (ix, oldValue) =>
    if oldValue ≠ value then some { dict with table := some (table.setValue ix (some value)) }
    else some dict

def insertdict [DecidableEq V] (hw : Hashable K) (dict : Dict K V) (hash : UInt64) (key : K)
    (value : V) : Option (Dict K V) := do
  let resize :=
    match dict.table with
    | none => true
    | some table => table.usable ≤ 0
  let dict ← if resize then dictresize hw dict else some dict
  dict.insertTable hw hash key value

def setitem [DecidableEq V] (hw : Hashable K) (dict : Dict K V) (key : K) (value : V) :
    Option (Dict K V) :=
  let hash :=
    match dict.table with
    | none => 0
    | some table => table.hashFor hw key
  dict.insertdict hw hash key value

def setdefault [DecidableEq V] (hw : Hashable K) (bNone : V) (dict : Dict K V) (key : K)
    (deflt : Option V) : Option (V × Dict K V) := do
  let deflt := deflt.getD bNone
  let hash := hw.hash key
  match ← dict.lookdict hw hash key with
  | some (_, value) => some (value, dict)
  | none =>
    let dict ← dict.insertdict hw hash key deflt
    some (deflt, dict)

/-- `other` are the items that the iterator of the argument yields. -/
def update [DecidableEq V] (hw : Hashable K) (dict : Dict K V) (other : List (K × V)) :
    Option (Dict K V) :=
  other.foldlM (fun dict item => dict.setitem hw item.1 item.2) dict

/-! ## Looking up -/

/-- The search that `get`, `__contains__` and the others have in common: the table must exist. -/
def lookup (hw : Hashable K) (dict : Dict K V) (key : K) : Option (Option V) := do
  let table ← dict.table
  let res ← table.lookdict hw (table.hashFor hw key) key
  some (res.map Prod.snd)

/-- `B_MappingD_dictD_get_def`. -/
def getDef (hw : Hashable K) (dict : Dict K V) (key : K) (deflt : V) : Option V :=
  match dict.table with
  | none => some deflt
  | some _ => (dict.lookup hw key).map (·.getD deflt)

/-- `B_MappingD_dictD_get`. -/
def get (hw : Hashable K) (bNone : V) (dict : Dict K V) (key : K) : Option V :=
  dict.getDef hw key bNone

/-- `B_dictD_get`, which does not look at an empty table. -/
def dictGet (hw : Hashable K) (dict : Dict K V) (key : K) (deflt : V) : Option V :=
  if dict.numelements = 0 then some deflt else (dict.lookup hw key).map (·.getD deflt)

def contains (hw : Hashable K) (dict : Dict K V) (key : K) : Option Bool :=
  if dict.numelements = 0 then some false else (dict.lookup hw key).map Option.isSome

def containsnot (hw : Hashable K) (dict : Dict K V) (key : K) : Option Bool :=
  (dict.contains hw key).map not

/-- The value, or the text of the `KeyError`. -/
def getitem (hw : Hashable K) (dict : Dict K V) (key : K) : Option (Except String V) :=
  if dict.numelements = 0 then some (.error "getitem: empty dictionary")
  else (dict.lookup hw key).map fun
    | none => .error "getitem: key not in dictionary"
    | some value => .ok value

/-! ## Removing -/

/-- What `pop`, `pop_def` and `__delitem__` have in common: the value of the key, if there is one,
and the dict without it. -/
def remove (hw : Hashable K) (dict : Dict K V) (key : K) : Option (Option V × Dict K V) :=
  if dict.numelements = 0 then some (none, dict)
  else do
    let table ← dict.table
    let hash := table.hashFor hw key
    match ← table.lookdict hw hash key with
    | none => some (none, dict)
    | some (ix, value) =>
      let table ← table.giveUp hash ix
      let table := table.setValue ix none
      let dict : Dict K V := ⟨dict.numelements - 1, some table⟩
      let dict ← if 10 * dict.numelements < table.size then dictresize hw dict else some dict
      some (some value, dict)

/-- `B_MappingD_dictD_pop_def`, and `B_dictD_pop`. -/
def popDef (hw : Hashable K) (dict : Dict K V) (key : K) (deflt : V) : Option (V × Dict K V) :=
  (dict.remove hw key).map fun (value, dict) => (value.getD deflt, dict)

/-- `B_MappingD_dictD_pop`. -/
def pop (hw : Hashable K) (bNone : V) (dict : Dict K V) (key : K) : Option (V × Dict K V) :=
  dict.popDef hw key bNone

def delitem (hw : Hashable K) (dict : Dict K V) (key : K) : Option (Dict K V) :=
  (dict.remove hw key).map Prod.snd

/-- The last of the first `n` entries that is not deleted, and its index. -/
def lastEntry (entries : List (Entry K V)) : ℕ → Option (Option (ℕ × K × V))
  | 0 => some none
  | ix + 1 =>
    match entries[ix]? with
    | none => none
    | some entry =>
      match entry.value with
      | some value => some (some (ix, entry.key, value))
      | none => lastEntry entries ix

def popitem (hw : Hashable K) (dict : Dict K V) : Option (Option (K × V) × Dict K V) :=
  if dict.numelements = 0 then some (none, dict)
  else do
    let table ← dict.table
    match ← lastEntry table.entries (toInt (table.nentries - 1) + 1).toNat with
    | none => some (none, dict)
    | some (ix, key, value) =>
      let table ← (if table.size > initSize then table.giveUp (hw.hash key) ix else some table)
      let table := { table with nentries := ix, entries := table.entries.take ix }
      some (some (key, value), ⟨dict.numelements - 1, some table⟩)

/-! ## Iterating -/

/-- The next of `n` entries from `i` on that is not deleted: its item, and where to go on. -/
def nextEntry (entries : List (Entry K V)) : ℕ → ℕ → Option (Option ((K × V) × ℕ))
  | 0, _ => some none
  | n + 1, i =>
    match entries[i]? with
    | none => none
    | some entry =>
      match entry.value with
      | some value => some (some ((entry.key, value), i + 1))
      | none => nextEntry entries n (i + 1)

/-- One call of `__next__` of an iterator at `nxt`; `none` inside is `StopIteration`. -/
def next (dict : Dict K V) (nxt : ℕ) : Option (Option ((K × V) × ℕ)) :=
  match dict.table with
  | none => some none
  | some table => nextEntry table.entries ((toInt table.nentries).toNat - nxt) nxt

/-- The items that an iterator at `nxt` yields until it stops, in at most `fuel` calls. -/
def yields (dict : Dict K V) : ℕ → ℕ → Option (List (K × V))
  | 0, _ => none
  | fuel + 1, nxt => do
    match ← dict.next nxt with
    | none => some []
    | some (item, nxt) => (dict.yields fuel nxt).map (item :: ·)

/-- The items of a new iterator. -/
def items (dict : Dict K V) : Option (List (K × V)) :=
  let n :=
    match dict.table with
    | none => 0
    | some table => (toInt table.nentries).toNat
  dict.yields (n + 1) 0

end Dict

/-! ## Sequences of operations -/

/-- The operations, with the operands they get. -/
inductive DictOp (K V : Type) where
  | setitem (key : K) (value : V)
  | setdefault (key : K) (deflt : Option V)
  | update (other : List (K × V))
  | delitem (key : K)
  | pop (key : K)
  | popDef (key : K) (deflt : V)
  | popitem
  | get (key : K)
  | getDef (key : K) (deflt : V)
  | dictGet (key : K) (deflt : V)
  | getitem (key : K)
  | contains (key : K)
  | containsnot (key : K)
  | len
  | keys
  | values
  | items
  deriving DecidableEq, Repr

/-- What an operation returns, or the `KeyError` that it raises. -/
inductive DictResult (K V : Type) where
  | unit
  | value (v : V)
  | item (p : Option (K × V))
  | bool (b : Bool)
  | int (n : ℕ)
  | keys (l : List K)
  | values (l : List V)
  | items (l : List (K × V))
  | keyError (key : K) (msg : String)
  deriving DecidableEq, Repr

/-- The result of `__getitem__`. -/
def DictResult.ofGetitem (key : K) : Except String V → DictResult K V
  | .ok v => .value v
  | .error msg => .keyError key msg

variable [DecidableEq K] [DecidableEq V]

def DictOp.run (hw : Hashable K) (bNone : V) (d : Dict K V) :
    DictOp K V → Option (DictResult K V × Dict K V)
  | .setitem key value => (d.setitem hw key value).map (.unit, ·)
  | .setdefault key deflt => (d.setdefault hw bNone key deflt).map fun (v, d) => (.value v, d)
  | .update other => (d.update hw other).map (.unit, ·)
  | .delitem key => (d.delitem hw key).map (.unit, ·)
  | .pop key => (d.pop hw bNone key).map fun (v, d) => (.value v, d)
  | .popDef key deflt => (d.popDef hw key deflt).map fun (v, d) => (.value v, d)
  | .popitem => (d.popitem hw).map fun (p, d) => (.item p, d)
  | .get key => (d.get hw bNone key).map (.value ·, d)
  | .getDef key deflt => (d.getDef hw key deflt).map (.value ·, d)
  | .dictGet key deflt => (d.dictGet hw key deflt).map (.value ·, d)
  | .getitem key => (d.getitem hw key).map (.ofGetitem key ·, d)
  | .contains key => (d.contains hw key).map (.bool ·, d)
  | .containsnot key => (d.containsnot hw key).map (.bool ·, d)
  | .len => some (.int d.numelements, d)
  | .keys => d.items.map fun l => (.keys (l.map Prod.fst), d)
  | .values => d.items.map fun l => (.values (l.map Prod.snd), d)
  | .items => d.items.map fun l => (.items l, d)

/-- An empty dict, as `B_dictD___init__` makes it. -/
def Dict.empty : Dict K V := ⟨0, none⟩

/-- The results of a sequence of operations, and the dict at its end. -/
def runDict (hw : Hashable K) (bNone : V) :
    Dict K V → List (DictOp K V) → Option (List (DictResult K V) × Dict K V)
  | d, [] => some ([], d)
  | d, op :: ops => do
    let (r, d) ← op.run hw bNone d
    let (rs, d) ← runDict hw bNone d ops
    some (r :: rs, d)

end Acton.Builtin
