import Acton.Backend.Nodes
import Acton.Backend.VectorClock

/-!
# Tables

A table is a skiplist of rows by primary key. A row is a cell; a cell has a skiplist of cells, one
level for each clustering key, or columns. Queues are rows too: their cells are the entries, and
they have the states of the consumers besides.

Functions return `none` where the C code fails an assertion or touches memory that it must not
touch: a null pointer, an array outside of its bounds, a row that was freed. A skiplist is the chain
of its nodes, see `Acton.Backend.Nodes`. Other results are the return values.

Left out: locks, the tombstones of rows (nothing is ever added to them), the pointers to queue rows
in `table->queues`, and the freeing of memory other than that of rows.
-/

namespace Acton.Backend

/-! ## Data -/

/-- Columns are words. The last one may be a pointer to a block of memory, which is copied. -/
inductive Column
  | word (w : WORD)
  | blob (bytes : List UInt8)
  deriving DecidableEq, Repr

/-- The size of the memory that a column points to. -/
def Column.size : Column → ℕ
  | word _ => 0
  | blob bytes => bytes.length

/-- The size of the memory that the last column points to. -/
def blobSize (columns : List Column) : ℕ := ((columns.map Column.size).getLast?).getD 0

structure ConsumerState where
  consumerId : WORD
  shardId : WORD
  appId : WORD
  groupId : WORD
  privateReadHead : ℤ
  privateConsumeHead : ℤ
  prhVersion : Option VectorClock
  pchVersion : Option VectorClock
  notified : Bool
  deriving DecidableEq, Repr

/-- The number of columns is the length of the array. -/
structure Cell where
  key : WORD
  cells : Option (List (WORD × Cell))
  columnArray : Option (List Column)
  /-- How much of what the last column points to belongs to it. The column is a word if it is 0. -/
  lastBlobSize : ℕ
  version : Option VectorClock
  consumerState : Option (List (WORD × ConsumerState))
  noEntries : ℤ

/-- A row and its address. Indexes point to rows. -/
structure Row where
  addr : ℕ
  cell : Cell

/-- The numbers of the columns that are keys. Their numbers are the lengths of the lists. -/
structure Schema where
  primaryKeyIdxs : List ℕ
  clusteringKeyIdxs : List ℕ
  indexKeyIdxs : List ℕ
  deriving DecidableEq, Repr

structure Table where
  schema : Schema
  rows : List (WORD × Row)
  indexes : List (List (WORD × ℕ))
  /-- The address of the next row that is allocated. -/
  brk : ℕ

/-- The arguments of a write: the values of all columns, keys first, and the memory that the last
one points to, if it is a blob. -/
structure RowWrite where
  columnValues : List WORD
  noClusteringKeys : ℕ
  lastBlob : List UInt8
  deriving DecidableEq, Repr

def createEmptyRow (key : WORD) : Cell where
  key := key
  cells := none
  columnArray := none
  lastBlobSize := 0
  version := none
  consumerState := none
  noEntries := 0

def createTable (schema : Schema) : Table where
  schema := schema
  rows := []
  indexes := schema.indexKeyIdxs.map fun _ => []
  brk := 0

/-! ## Writes -/

/-- The column of the clustering key `i`. -/
def Schema.colIndex (schema : Schema) (i : ℕ) : ℕ :=
  -- keys beyond those of the schema: the column number is that of the key
  (schema.clusteringKeyIdxs[i]?).getD i

def RowWrite.primaryKey (w : RowWrite) (schema : Schema) : Option WORD := do
  w.columnValues[← schema.primaryKeyIdxs[0]?]?

def RowWrite.clusteringKeys (w : RowWrite) (schema : Schema) : Option (List WORD) :=
  (List.range w.noClusteringKeys).mapM fun i => w.columnValues[schema.colIndex i]?

/-- Copy the columns after the first `n`. -/
def RowWrite.columns (w : RowWrite) (n : ℕ) : List Column :=
  let columns := (w.columnValues.drop n).map Column.word
  if w.lastBlob.isEmpty then columns else columns.dropLast ++ [.blob w.lastBlob]

/-- Set the columns of a cell, and the size of the last one. -/
def Cell.setColumns (columns : List Column) (cell : Cell) : Cell :=
  { cell with columnArray := some columns, lastBlobSize := blobSize columns }

/-- The levels of a new row. The columns are set at the last level, so a row without clustering keys
has none. -/
def createDbRowSchemaless (columns : List Column) : List WORD → Cell → Cell
  | [], cell => cell
  | [k], cell => { cell with cells := some [(k, (createEmptyRow k).setColumns columns)] }
  | k :: ks, cell =>
    { cell with cells := some [(k, createDbRowSchemaless columns ks (createEmptyRow k))] }

/-- Set the version of a cell, if there is a new one. -/
def Cell.setVersion (version : Option VectorClock) (cell : Cell) : Cell :=
  match version with
  | none => cell
  | some v => { cell with version := some (updateOrReplaceVc cell.version v) }

/-- A new cell has a level below it, unless it is the last. -/
def createCell (k : WORD) (last : Bool) : Cell :=
  { createEmptyRow k with cells := if last then none else some [] }

/-- Go down from a cell of an existing row, create the cells that are missing, and set the
columns. -/
def insertCells (columns : List Column) (version : Option VectorClock) : List WORD → Cell →
    Option Cell
  | [], cell =>
    if cell.cells.isSome then none
    else some ((cell.setColumns columns).setVersion version)
  | k :: ks, cell => do
    let cells ← cell.cells
    match ← longSearch k cells with
    | none =>
      let new ← insertCells columns version ks (createCell k ks.isEmpty)
      some { cell with cells := some (← longInsert k new cells) }
    | some p =>
      let n ← cells[p]?
      let c ← insertCells columns version ks n.2
      some { cell with cells := some (cells.set p (n.1, c)) }

/-- Point to the row from the indexes of the columns that the write has. -/
def insertIndexes (columnValues : List WORD) (addr : ℕ) :
    List ℕ → List (List (WORD × ℕ)) → Option (List (List (WORD × ℕ)))
  | i :: idxs, index :: indexes => do
    let rest ← insertIndexes columnValues addr idxs indexes
    match columnValues[i]? with
    | none => some (index :: rest)
    | some k => some ((← longInsert k addr index) :: rest)
  | _, indexes => some indexes

def tableInsert (w : RowWrite) (version : Option VectorClock) (t : Table) : Option Table := do
  guard (t.schema.primaryKeyIdxs.length = 1)
  guard (t.schema.clusteringKeyIdxs.length ≤ w.noClusteringKeys)
  guard (1 + w.noClusteringKeys < w.columnValues.length)
  let pk ← w.primaryKey t.schema
  let keys ← w.clusteringKeys t.schema
  let columns := w.columns (1 + w.noClusteringKeys)
  match ← longSearch pk t.rows with
  | none =>
    let cell := { createDbRowSchemaless columns keys (createEmptyRow pk) with version := version }
    some { t with
      rows := ← longInsert pk ⟨t.brk, cell⟩ t.rows
      indexes := ← insertIndexes w.columnValues t.brk t.schema.indexKeyIdxs t.indexes
      brk := t.brk + 1 }
  | some p =>
    let n ← t.rows[p]?
    let cell ← insertCells columns version keys n.2.cell
    some { t with
      rows := t.rows.set p (n.1, { n.2 with cell := cell })
      indexes := ← insertIndexes w.columnValues n.2.addr t.schema.indexKeyIdxs t.indexes }

/-- Follow the keys down from a cell and change the cell where they lead. `some none` if they do not
lead to a cell. -/
def alterCell (f : Cell → Option Cell) : List WORD → Cell → Option (Option Cell)
  | [], cell => do some (some (← f cell))
  | k :: ks, cell => do
    let cells ← cell.cells
    match ← longSearch k cells with
    | none => some none
    | some p =>
      let n ← cells[p]?
      match ← alterCell f ks n.2 with
      | none => some none
      | some c => some (some { cell with cells := some (cells.set p (n.1, c)) })

/-- Write columns, given with their numbers. The first `n` columns are keys. -/
def setColumns (n : ℕ) : List (ℕ × Column) → List Column → Option (List Column)
  | [], columns => some columns
  | (i, c) :: changes, columns => do
    guard (n ≤ i ∧ i - n < columns.length)
    setColumns n changes (columns.set (i - n) c)

/-- The columns that an update changes, with their numbers. -/
def RowWrite.changes (w : RowWrite) (colIdxs : List ℕ) : List (ℕ × Column) :=
  (colIdxs.drop (1 + w.noClusteringKeys)).zip (w.columns (1 + w.noClusteringKeys))

/-- The size of the last column stays as it is. -/
def updateColumns (n : ℕ) (changes : List (ℕ × Column)) (version : Option VectorClock)
    (cell : Cell) :
    Option Cell := do
  let columns ← setColumns n changes (← cell.columnArray)
  some ({ cell with columnArray := some columns }.setVersion version)

/-- The keys are looked up at the places that the schema has for them. The result is false if there
is no such row. -/
def tableUpdate (w : RowWrite) (colIdxs : List ℕ) (version : Option VectorClock) (t : Table) :
    Option (Table × Bool) := do
  guard (t.schema.primaryKeyIdxs.length = 1)
  guard (t.schema.clusteringKeyIdxs.length ≤ w.noClusteringKeys)
  guard (1 + w.noClusteringKeys < w.columnValues.length)
  guard (colIdxs.length = w.columnValues.length)
  guard (colIdxs[0]? = t.schema.primaryKeyIdxs[0]?)
  guard ((colIdxs.drop 1).take t.schema.clusteringKeyIdxs.length = t.schema.clusteringKeyIdxs)
  let pk ← w.primaryKey t.schema
  match ← longSearch pk t.rows with
  | none => some (t, false)
  | some p =>
    let n ← t.rows[p]?
    let keys ← (List.range w.noClusteringKeys).mapM fun i => do
      w.columnValues[← t.schema.clusteringKeyIdxs[i]?]?
    let write := updateColumns (1 + w.noClusteringKeys) (w.changes colIdxs) version
    match ← alterCell write keys n.2.cell with
    | none => some (t, false)
    | some cell => some ({ t with rows := t.rows.set p (n.1, { n.2 with cell := cell }) }, true)

/-- The last column can be freed if it has a size: it is a pointer to memory, or null. -/
def freeLast (lastBlobSize : ℕ) : Option Column → Bool
  | some (.word w) => lastBlobSize = 0 ∨ w = 0
  | _ => true

mutual
/-- Free a cell and all cells below it. It is false if something is freed that is not allocated. -/
def freeDbCell : Cell → Bool
  | ⟨_, cells, columnArray, lastBlobSize, _, _, _⟩ =>
    freeDbLevel cells && freeLast lastBlobSize (columnArray.bind List.getLast?)

def freeDbLevel : Option (List (WORD × Cell)) → Bool
  | none => true
  | some l => freeDbCells l

def freeDbCells : List (WORD × Cell) → Bool
  | [] => true
  | (_, cell) :: l => freeDbCell cell && freeDbCells l
end

/-- The row is freed; the indexes still point to it. The result is true if there was a row. -/
def tableDeleteRow (pk : WORD) (t : Table) : Option (Table × Bool) := do
  let (rows, row) ← longDelete pk t.rows
  guard (row.all fun row => freeDbCell row.cell)
  some ({ t with rows := rows }, row.isSome)

/-! ## Searches -/

def tableSearch (pk : WORD) (t : Table) : Option (Option Row) := do
  guard (t.schema.primaryKeyIdxs.length = 1)
  match ← longSearch pk t.rows with
  | none => some none
  | some p => some (some (← t.rows[p]?).2)

/-- Follow the keys down from a cell. -/
def followKeys : List WORD → Cell → Option (Option Cell)
  | [], cell => some (some cell)
  | k :: ks, cell => do
    let cells ← cell.cells
    match ← longSearch k cells with
    | none => some none
    | some p => followKeys ks (← cells[p]?).2

def tableSearchClustering (pk : WORD) (keys : List WORD) (t : Table) : Option (Option Cell) := do
  guard (keys ≠ [])
  match ← tableSearch pk t with
  | none => some none
  | some row => followKeys keys row.cell

/-- The results of a range search: the return value, the nodes from `start_row` up to `end_row`, and
the node that `end_row` points to. -/
structure Range (V : Type) where
  noResults : ℤ
  before : List (WORD × V)
  endRow : Option (WORD × V)

/-- From the first node on, to the last one or the first whose key is not less than the end. -/
def rangeLoop {V : Type} (endKey : WORD) : List (WORD × V) → Range V
  | [] => ⟨0, [], none⟩
  | [n] => ⟨1, [], some n⟩
  | n :: n' :: l =>
    if toInt64 n.1 < toInt64 endKey then
      let r := rangeLoop endKey (n' :: l)
      ⟨r.noResults + 1, n :: r.before, r.endRow⟩
    else ⟨1, [], some n⟩

/-- The nodes from a pointer on. -/
def nodesFrom {V : Type} (p : Option ℕ) (l : List (WORD × V)) : List (WORD × V) := p.elim [] l.drop

/-- Go down the keys before the last, which must be the same at the start and at the end of the
range. The result is the cell there and the last keys. -/
def rangeCell : List WORD → List WORD → Cell → Option (Option (Cell × WORD × WORD))
  | [startKey], [endKey], cell => some (some (cell, startKey, endKey))
  | k :: ks, k' :: ks', cell => do
    guard (k = k')
    let cells ← cell.cells
    match ← longSearch k cells with
    | none => some none
    | some p => rangeCell ks ks' (← cells[p]?).2
  | _, _, _ => none

def tableRangeSearchClustering (pk : WORD) (startKeys endKeys : List WORD) (t : Table) :
    Option (Range Cell) := do
  guard (startKeys ≠ [])
  match ← tableSearch pk t with
  | none => some ⟨0, [], none⟩
  | some row =>
    match ← rangeCell startKeys endKeys row.cell with
    | none => some ⟨-1, [], none⟩
    | some (cell, startKey, endKey) =>
      let cells ← cell.cells
      let start ← longSearchHigher startKey cells
      some (rangeLoop endKey (nodesFrom start cells))

end Acton.Backend
