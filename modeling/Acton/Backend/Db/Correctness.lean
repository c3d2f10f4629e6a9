import Acton.Backend.Db
import Acton.ToMathlib.Trace

/-!
# Tables as maps from key paths to columns

A table stands for a map from full key paths, which are a primary key and the clustering keys, to
columns. `table_refines`: insertions, updates and deletions of rows change the map at the key path
that they name, or at all paths of the row, and nowhere else; a search finds what the map has.

This takes that the key columns come first, that rows have as many clustering keys as the schema
says and at least one, that keys are close to each other (`Close`), and that updates keep the sizes
of blobs, which `table_update` does not set. `table_diverges` has a row with more clustering keys,
whose columns are not found, two rows whose keys are `2 ^ 32` apart, and a blob that was updated
with a word.
-/

namespace Acton.Backend
open List Function Cell
open Option hiding guard

/-! ## Operations -/

inductive TableOp
  | insert (w : RowWrite) (version : Option VectorClock)
  | update (w : RowWrite) (colIdxs : List ℕ) (version : Option VectorClock)
  | deleteRow (pk : WORD)

def TableOp.run (t : Table) : TableOp → Option Table
  | insert w version => tableInsert w version t
  | update w colIdxs version => (tableUpdate w colIdxs version t).map Prod.fst
  | deleteRow pk => (tableDeleteRow pk t).map Prod.fst

/-- The columns of a cell, and the size of the last one. -/
def Cell.result (cell : Cell) : Option (List Column × ℕ) :=
  cell.columnArray.map fun columns => (columns, cell.lastBlobSize)

/-- What a search for a key path finds. -/
def searchColumns (path : List WORD) (t : Table) : Option (Option (List Column × ℕ)) :=
  match path with
  | [] => none
  | pk :: keys => (tableSearchClustering pk keys t).map fun cell => cell.bind Cell.result

/-! ## The map that they describe -/

abbrev FlatMap := List WORD → Option (List Column)

/-- The key path of a row: the key columns come first. -/
def RowWrite.path (w : RowWrite) : List WORD := w.columnValues.take (1 + w.noClusteringKeys)

def TableOp.apply (M : FlatMap) : TableOp → FlatMap
  | insert w _ => Function.update M w.path (some (w.columns (1 + w.noClusteringKeys)))
  | update w colIdxs _ =>
    Function.update M w.path ((M w.path).bind
      (setColumns (1 + w.noClusteringKeys) (w.changes colIdxs)))
  | deleteRow pk => fun path => if path.head? = some pk then none else M path

/-! ## Conditions -/

/-- The first columns are the keys: the primary key, and then `d` clustering keys. -/
structure Schema.Leading (schema : Schema) (d : ℕ) : Prop where
  primary : schema.primaryKeyIdxs = [0]
  clustering : schema.clusteringKeyIdxs = (List.range d).map (· + 1)
  pos : 0 < d

/-- What an operation needs: as many clustering keys as the schema has, at least one column, keys in
`S`; an update names the key columns first, and other columns that the row has, and changes no word
to a blob or back and no size of a blob. The row with the key of the header is not deleted from an
empty table. -/
def TableOp.Admissible (d : ℕ) (S : Set WORD) (M : FlatMap) : TableOp → Prop
  | insert w _ => w.noClusteringKeys = d ∧ 1 + d < w.columnValues.length ∧ ∀ k ∈ w.path, k ∈ S
  | update w colIdxs _ => w.noClusteringKeys = d ∧ 1 + d < w.columnValues.length ∧
    colIdxs.length = w.columnValues.length ∧ colIdxs.take (1 + d) = List.range (1 + d) ∧
    (∀ columns, M w.path = some columns → ∃ columns',
      setColumns (1 + d) (w.changes colIdxs) columns = some columns' ∧
      columns'.map Column.size = columns.map Column.size) ∧
    ∀ k ∈ w.path, k ∈ S
  | deleteRow pk => pk ∈ S ∧ ((∀ path, M path = none) → longCmp longMax pk ≠ 0)

/-- The operations are admissible, each for the map that those before it describe. -/
def AdmissibleOps (d : ℕ) (S : Set WORD) : FlatMap → List TableOp → Prop
  | _, [] => True
  | M, op :: ops => op.Admissible d S M ∧ AdmissibleOps d S (op.apply M) ops

/-! ## Cells -/

@[simp] lemma Cell.cells_setVersion (version : Option VectorClock) (c : Cell) :
    (c.setVersion version).cells = c.cells := by
  cases version <;> rfl

@[simp] lemma Cell.columnArray_setVersion (version : Option VectorClock) (c : Cell) :
    (c.setVersion version).columnArray = c.columnArray := by
  cases version <;> rfl

@[simp] lemma Cell.lastBlobSize_setVersion (version : Option VectorClock) (c : Cell) :
    (c.setVersion version).lastBlobSize = c.lastBlobSize := by
  cases version <;> rfl

/-- The columns at the end of a path of clustering keys. -/
def Cell.columnsAt : List WORD → Cell → Option (List Column)
  | [], c => c.columnArray
  | k :: ks, c => (c.cells.bind fun l => find l k).bind (columnsAt ks)

/-- A cell with `d` levels of cells below it, and columns at the last. -/
def Cell.WellFormed (S : Set WORD) : ℕ → Cell → Prop
  | 0, c => c.cells = none ∧ ∃ columns, c.columnArray = some columns ∧
    c.lastBlobSize = blobSize columns
  | d + 1, c => c.columnArray = none ∧ ∃ l, c.cells = some l ∧ Chain S l ∧
    ∀ n ∈ l, WellFormed S d n.2

/-- A cell that is about to be filled: the columns may be missing. -/
def Cell.Ready (S : Set WORD) : ℕ → Cell → Prop
  | 0, c => c.cells = none
  | d + 1, c => c.WellFormed S (d + 1)

section Cells
variable {S : Set WORD} {d : ℕ} {c : Cell} {keys ks : List WORD} {columns : List Column}
  {version : Option VectorClock}

lemma Cell.WellFormed.ready (h : c.WellFormed S d) : c.Ready S d := by
  cases d with
  | zero => exact h.1
  | succ d => exact h

lemma Cell.columnsAt_cons {l : List (WORD × Cell)} (h : c.cells = some l) (k : WORD) :
    c.columnsAt (k :: ks) = (find l k).bind (Cell.columnsAt ks) := by
  rw [columnsAt, h, bind_some]

lemma Cell.WellFormed.congr {c' : Cell} (h : c.WellFormed S d) (hcells : c'.cells = c.cells)
    (hcols : c'.columnArray = c.columnArray) (hsize : c'.lastBlobSize = c.lastBlobSize) :
    c'.WellFormed S d := by
  cases d with
  | zero =>
    obtain ⟨hnone, columns, hcolumns, hblob⟩ := h
    exact ⟨hcells.trans hnone, columns, hcols.trans hcolumns, hsize.trans hblob⟩
  | succ d =>
    obtain ⟨hnone, l, hl, h⟩ := h
    exact ⟨hcols.trans hnone, l, hcells.trans hl, h⟩

lemma freeLast_blobSize (columns : List Column) :
    freeLast (blobSize columns) columns.getLast? := by
  rw [blobSize, getLast?_map]
  cases columns.getLast? with
  | none => rfl
  | some c => cases c <;> simp [freeLast, Column.size]

/-- All that is freed with a cell is allocated. -/
theorem Cell.WellFormed.freeDbCell (h : c.WellFormed S d) : freeDbCell c := by
  induction d generalizing c with
  | zero =>
    obtain ⟨hcells, columns, hcolumns, hblob⟩ := h
    rcases c with ⟨_, cells, columnArray, lastBlobSize, _, _, _⟩
    cases hcells
    cases hcolumns
    cases hblob
    exact freeLast_blobSize columns
  | succ d ih =>
    obtain ⟨hcolumns, l, hcells, -, hl⟩ := h
    rcases c with ⟨_, cells, columnArray, lastBlobSize, _, _, _⟩
    cases hcells
    cases hcolumns
    have hfree : freeDbCells l := by
      induction l with
      | nil => rfl
      | cons n l ihl =>
        obtain ⟨hn, hl⟩ := forall_mem_cons.mp hl
        simp [freeDbCells, ih hn, ihl hl]
    simp [Backend.freeDbCell, freeDbLevel, hfree, freeLast]

lemma followKeys_eq (hS : Close S) (h : c.WellFormed S d) (hlen : ks.length = d)
    (hks : ∀ k ∈ ks, k ∈ S) :
    ∃ r, followKeys ks c = some r ∧
      r.bind Cell.result = (c.columnsAt ks).map fun columns => (columns, blobSize columns) := by
  induction ks generalizing c d with
  | nil =>
    subst hlen
    obtain ⟨-, columns, hcolumns, hblob⟩ := h
    exact ⟨some c, rfl, by simp [Cell.result, columnsAt, hcolumns, hblob]⟩
  | cons k ks ih =>
    subst hlen
    obtain ⟨-, l, hl, hchain, hcells⟩ := h
    rw [columnsAt_cons hl]
    simp only [followKeys, hl, bind_eq_bind, bind_some]
    rcases hchain.search_cases hS (hks k (by simp)) with ⟨hfind, hsearch⟩ | ⟨p, v, hfind, hsearch,
      hp⟩
    · exact ⟨none, by simp [hsearch], by simp [hfind]⟩
    · simp only [hsearch, hfind, bind_some, hp]
      exact ih (hcells (k, v) (mem_of_getElem? hp)) rfl fun k' hk' => hks k' (by simp [hk'])

lemma createDbRowSchemaless_spec (columns : List Column) (hc : c.columnArray = none)
    (hkeys : ∀ k ∈ keys, k ∈ S) (hlen : keys.length = d + 1) :
    (createDbRowSchemaless columns keys c).WellFormed S (d + 1) ∧ ∀ ks, ks.length = d + 1 →
        (createDbRowSchemaless columns keys c).columnsAt ks =
          if ks = keys then some columns else none := by
  induction d generalizing keys c with
  | zero =>
    obtain ⟨k, rfl⟩ := length_eq_one_iff.mp hlen
    have hk : k ∈ S := hkeys k (by simp)
    refine ⟨⟨hc, _, rfl, Chain.singleton hk, fun n hn => ?_⟩, fun ks hks => ?_⟩
    · rw [mem_singleton.mp hn]
      exact ⟨rfl, columns, rfl, rfl⟩
    obtain ⟨k', rfl⟩ := length_eq_one_iff.mp hks
    rw [Cell.columnsAt_cons rfl]
    by_cases hk' : k' = k
    · subst hk'
      simp [find, SortedNodes.lookup, Cell.columnsAt, Cell.setColumns]
    · have : toInt64 k ≠ toInt64 k' := fun h => hk' (toInt64_injective h).symm
      simp [find, SortedNodes.lookup, hk', this]
  | succ d ih =>
    obtain ⟨k, keys, rfl⟩ := exists_cons_of_length_eq_add_one hlen
    obtain ⟨k2, keys, rfl⟩ := exists_cons_of_length_eq_add_one (Nat.succ.inj hlen)
    obtain ⟨hwf, hcols⟩ := ih (c := createEmptyRow k) rfl (fun k' hk' => hkeys k' (by simp_all))
      (Nat.succ.inj hlen)
    have hk : k ∈ S := hkeys k (by simp)
    refine ⟨⟨hc, _, rfl, Chain.singleton hk, by simpa using hwf⟩, fun ks hks => ?_⟩
    obtain ⟨k', ks, rfl⟩ := exists_cons_of_length_eq_add_one hks
    rw [Cell.columnsAt_cons rfl]
    by_cases hk' : k' = k
    · subst hk'
      have := hcols ks (Nat.succ.inj hks)
      simp [find, SortedNodes.lookup, this]
    · have : toInt64 k ≠ toInt64 k' := fun h => hk' (toInt64_injective h).symm
      simp [find, SortedNodes.lookup, hk', this]

/-- A path is changed below the key `k`, and the rest is as it was. -/
theorem Cell.replace {l l' : List (WORD × Cell)} {k : WORD} {c' : Cell} {r : Option (List Column)}
    (hc : c.columnArray = none) (hl : c.cells = some l) (hchain : Chain S l')
    (hl' : ∀ k', find l' k' = if k' = k then some c' else find l k')
    (hcells : ∀ n ∈ l, n.2.WellFormed S keys.length) (hc' : c'.WellFormed S keys.length)
    (hcols : ∀ ks, ks.length = keys.length →
      c'.columnsAt ks = if ks = keys then r else (find l k).bind (Cell.columnsAt ks)) :
    ({ c with cells := some l' } : Cell).WellFormed S (keys.length + 1) ∧
      ∀ ks, ks.length = keys.length + 1 → ({ c with cells := some l' } : Cell).columnsAt ks =
        if ks = k :: keys then r else c.columnsAt ks := by
  refine ⟨⟨hc, l', rfl, hchain, hchain.forall_of_find hl' (by simpa using hc') hcells⟩,
    fun ks hks => ?_⟩
  obtain ⟨k', ks, rfl⟩ := exists_cons_of_length_eq_add_one hks
  rw [columnsAt_cons rfl, columnsAt_cons hl, hl']
  by_cases hk : k' = k
  · rw [hk, if_pos rfl, bind_some, hcols ks (Nat.succ.inj hks)]
    simp
  · simp [hk]

/-- A new cell is ready for the levels below it, and empty. -/
theorem createCell_spec (k : WORD) (keys : List WORD) :
    (createCell k keys.isEmpty).Ready S keys.length ∧
      ∀ ks : List WORD, ks.length = keys.length →
        (createCell k keys.isEmpty).columnsAt ks = none := by
  cases keys with
  | nil =>
    refine ⟨rfl, fun ks hks => ?_⟩
    rw [length_eq_zero_iff.mp hks]
    rfl
  | cons k' keys =>
    refine ⟨⟨rfl, [], rfl, Chain.nil, by simp⟩, fun ks hks => ?_⟩
    obtain ⟨k2, ks, rfl⟩ := exists_cons_of_length_eq_add_one hks
    rfl

lemma insertCells_spec (columns : List Column) (version : Option VectorClock) (hS : Close S)
    (h : c.Ready S d) (hlen : keys.length = d) (hkeys : ∀ k ∈ keys, k ∈ S) :
    ∃ c', insertCells columns version keys c = some c' ∧ c'.WellFormed S d ∧
      ∀ ks, ks.length = d → c'.columnsAt ks =
        if ks = keys then some columns else c.columnsAt ks := by
  induction keys generalizing c d with
  | nil =>
    subst hlen
    have hnone : c.cells = none := h
    refine ⟨(c.setColumns columns).setVersion version, ?_, ?_, fun ks hks => ?_⟩
    · rw [insertCells, hnone]
      rfl
    · simp [Cell.WellFormed, Cell.setColumns, hnone]
    · rw [length_eq_zero_iff.mp hks]
      simp [columnsAt, Cell.setColumns]
  | cons k keys ih =>
    subst hlen
    obtain ⟨hc, l, hl, hchain, hcells⟩ := h
    obtain ⟨hk, hkeys'⟩ := forall_mem_cons.mp hkeys
    simp only [insertCells, hl, bind_eq_bind, bind_some]
    rcases hchain.search_cases hS hk with ⟨hfind, hsearch⟩ | ⟨p, v, hfind, hsearch, hp⟩
    · -- the cell is new
      obtain ⟨hready, hempty⟩ := createCell_spec (S := S) k keys
      obtain ⟨c', hc', hwf, hcols⟩ := ih hready rfl hkeys'
      obtain ⟨l', hl', hchain', hfind'⟩ := hchain.insert hS hk c'
      refine ⟨{ c with cells := some l' }, by simp [hsearch, hc', hl'],
        replace hc hl hchain' hfind' hcells hwf fun ks hks => ?_⟩
      rw [hcols ks hks, hempty ks hks, hfind]
      rfl
    · obtain ⟨c', hc', hwf, hcols⟩ := ih (hcells (k, v) (mem_of_getElem? hp)).ready rfl hkeys'
      obtain ⟨hchain', hfind'⟩ := hchain.set hp c'
      refine ⟨{ c with cells := some (l.set p (k, c')) }, by simp [hsearch, hp, hc'],
        replace hc hl hchain' hfind' hcells hwf fun ks hks => ?_⟩
      rw [hcols ks hks, hfind]
      rfl

/-- An update of the columns at the end of a path, if it is there. -/
theorem alterCell_spec {f : Cell → Option Cell} {g : List Column → Option (List Column)}
    (hS : Close S)
    (hf : ∀ (c0 : Cell) cols cols', c0.cells = none → c0.columnArray = some cols →
      g cols = some cols' → ∃ c', f c0 = some c' ∧ c'.cells = none ∧ c'.columnArray = some cols' ∧
        c'.lastBlobSize = c0.lastBlobSize)
    (h : c.WellFormed S d) (hlen : keys.length = d) (hkeys : ∀ k ∈ keys, k ∈ S)
    (hg : ∀ cols, c.columnsAt keys = some cols →
      ∃ cols', g cols = some cols' ∧ cols'.map Column.size = cols.map Column.size) :
    (alterCell f keys c = some none ∧ c.columnsAt keys = none) ∨
      ∃ c', alterCell f keys c = some (some c') ∧ c'.WellFormed S d ∧ ∀ ks, ks.length = d →
          c'.columnsAt ks = if ks = keys then (c.columnsAt keys).bind g else c.columnsAt ks := by
  induction keys generalizing c d with
  | nil =>
    subst hlen
    obtain ⟨hnone, cols, hcols, hblob⟩ := h
    obtain ⟨cols', hcols', hsize⟩ := hg cols hcols
    obtain ⟨c', hc', hnone', harr, hlast⟩ := hf c cols cols' hnone hcols hcols'
    refine .inr ⟨c', by simp [alterCell, hc'], ⟨hnone', cols', harr, ?_⟩, fun ks hks => ?_⟩
    · rw [hlast, hblob, blobSize, blobSize, hsize]
    rw [length_eq_zero_iff.mp hks, if_pos rfl]
    simp only [columnsAt, harr, hcols, bind_some, hcols']
  | cons k keys ih =>
    subst hlen
    obtain ⟨hc, l, hl, hchain, hcells⟩ := h
    obtain ⟨hk, hkeys'⟩ := forall_mem_cons.mp hkeys
    simp only [alterCell, hl, bind_eq_bind, bind_some, columnsAt_cons hl] at hg ⊢
    rcases hchain.search_cases hS hk with ⟨hfind, hsearch⟩ | ⟨p, v, hfind, hsearch, hp⟩
    · exact .inl ⟨by simp [hsearch], by simp [hfind]⟩
    · rw [hfind, bind_some] at hg
      simp only [hsearch, hfind, bind_some, hp]
      rcases ih (hcells (k, v) (mem_of_getElem? hp)) rfl hkeys' hg with
        ⟨hnone, hcols⟩ | ⟨c', hc', hwf, hcols⟩
      · exact .inl ⟨by simp [hnone], hcols⟩
      · obtain ⟨hchain', hfind'⟩ := hchain.set hp c'
        refine .inr ⟨_, by simp [hc'], replace hc hl hchain' hfind' hcells hwf fun ks hks => ?_⟩
        rw [hcols ks hks, hfind]
        rfl

lemma updateColumns_spec (version : Option VectorClock) {n : ℕ} {changes : List (ℕ × Column)}
    (c0 : Cell) (cols cols' : List Column)
    (hcells : c0.cells = none) (hcols : c0.columnArray = some cols)
    (hset : setColumns n changes cols = some cols') :
    ∃ c', updateColumns n changes version c0 = some c' ∧ c'.cells = none ∧
      c'.columnArray = some cols' ∧ c'.lastBlobSize = c0.lastBlobSize :=
  ⟨{ c0 with columnArray := some cols' }.setVersion version, by simp [updateColumns, hcols, hset],
    by simp [hcells], by simp, by simp⟩

end Cells

/-! ## Tables -/

/-- The table holds the map, for paths of `d` clustering keys. -/
structure Holds (d : ℕ) (S : Set WORD) (t : Table) (M : FlatMap) : Prop where
  leading : t.schema.Leading d
  chain : Chain S t.rows
  wellFormed : ∀ n ∈ t.rows, n.2.cell.WellFormed S d
  eq : ∀ pk ks, ks.length = d → M (pk :: ks) =
    (find t.rows pk).bind fun row => row.cell.columnsAt ks
  length : ∀ path, M path ≠ none → path.length = 1 + d

section Tables
variable {S : Set WORD} {d : ℕ} {t : Table} {M : FlatMap} {w : RowWrite}

lemma holds_createTable {schema : Schema} (h : schema.Leading d) :
    Holds d S (createTable schema) fun _ => none where
  leading := h
  chain := Chain.nil
  wellFormed := by simp [createTable]
  eq _ _ _ := rfl
  length _ h := absurd rfl h

lemma mapM_range_eq_take {α : Type} {f : ℕ → Option α} {l : List α} {n : ℕ}
    (hf : ∀ i < n, f i = l[i]?) (h : n ≤ l.length) : (List.range n).mapM f = some (l.take n) := by
  induction n with
  | zero => rfl
  | succ n ih =>
    have hn : f n = some l[n] := (hf n (by omega)).trans (getElem?_eq_getElem h)
    rw [range_succ, mapM_append, ih (fun i hi => hf i (by omega)) (by omega),
      take_succ_eq_append_getElem h]
    simp [hn]

/-- Where the key columns come first, the keys that the code takes are those of the path. -/
theorem RowWrite.path_eq {schema : Schema} (h : schema.Leading w.noClusteringKeys)
    (hlen : 1 + w.noClusteringKeys < w.columnValues.length) :
    ∃ pk keys, w.path = pk :: keys ∧ keys.length = w.noClusteringKeys ∧
      w.columnValues[0]? = some pk ∧ w.clusteringKeys schema = some keys ∧
      ((List.range w.noClusteringKeys).mapM fun i =>
        (schema.clusteringKeyIdxs[i]?).bind fun j => w.columnValues[j]?) = some keys := by
  obtain ⟨pk, rest, hcols⟩ := exists_cons_of_length_pos (Nat.zero_lt_of_lt hlen)
  rw [hcols, length_cons] at hlen
  have hidx (i : ℕ) (hi : i < w.noClusteringKeys) :
      schema.clusteringKeyIdxs[i]? = some (i + 1) := by
    simp [h.clustering, hi]
  refine ⟨pk, rest.take w.noClusteringKeys, ?_, by simp; omega, by rw [hcols]; rfl,
    mapM_range_eq_take (fun i hi => ?_) (by omega), mapM_range_eq_take (fun i hi => ?_) (by omega)⟩
  · rw [path, hcols, Nat.add_comm]
    rfl
  · rw [Schema.colIndex, hidx i hi, hcols]
    rfl
  · rw [hidx i hi, hcols]
    rfl

lemma longInsert_isSome {V : Type} (k : WORD) (v : V) (l : List (WORD × V)) :
    (longInsert k v l).isSome := by
  rw [longInsert]
  induction l with
  | nil => rfl
  | cons n l ih =>
    simp only [SortedNodes.insert, bind_eq_bind, bind_some]
    split
    · simpa using ih
    · split <;> rfl

lemma exists_insertIndexes (columnValues : List WORD) (addr : ℕ) (idxs : List ℕ)
    (indexes : List (List (WORD × ℕ))) :
    ∃ indexes', insertIndexes columnValues addr idxs indexes = some indexes' := by
  induction idxs generalizing indexes with
  | nil => exact ⟨indexes, rfl⟩
  | cons i idxs ih =>
    cases indexes with
    | nil => exact ⟨[], rfl⟩
    | cons index indexes =>
      obtain ⟨rest, hrest⟩ := ih indexes
      simp only [insertIndexes, hrest, bind_eq_bind, bind_some]
      cases columnValues[i]? with
      | none => exact ⟨_, rfl⟩
      | some k =>
        obtain ⟨l, hl⟩ := isSome_iff_exists.mp (longInsert_isSome k addr index)
        exact ⟨l :: rest, by simp [hl]⟩

section
variable (h : Holds d S t M)
include h

lemma Holds.write {rows : List (WORD × Row)} {row : Row} {pk : WORD} {keys : List WORD}
    {new : Option (List Column)} {indexes : List (List (WORD × ℕ))} {brk : ℕ}
    (hchain : Chain S rows) (hfind : ∀ k, find rows k = if k = pk then some row else find t.rows k)
    (hwf : row.cell.WellFormed S d) (hlen : keys.length = d)
    (hrow : ∀ ks : List WORD, ks.length = d →
      row.cell.columnsAt ks = if ks = keys then new else M (pk :: ks)) :
    Holds d S ⟨t.schema, rows, indexes, brk⟩ (Function.update M (pk :: keys) new) where
  leading := h.leading
  chain := hchain
  wellFormed := hchain.forall_of_find (P := fun row : Row => row.cell.WellFormed S d) hfind
    (by simpa using hwf) h.wellFormed
  eq pk' ks hks := by
    rw [update_apply, hfind]
    by_cases hpk : pk' = pk
    · subst hpk
      simp [hrow ks hks]
    · simp [hpk, h.eq pk' ks hks]
  length path hpath := by
    rw [update_apply] at hpath
    split at hpath
    · next heq => simp [heq, hlen, Nat.add_comm]
    · exact h.length path hpath

section
variable (hS : Close S)
include hS

lemma Holds.insert (version : Option VectorClock)
    (hw : (TableOp.insert w version).Admissible d S M) :
    ∃ t', tableInsert w version t = some t' ∧
      Holds d S t' ((TableOp.insert w version).apply M) := by
  obtain ⟨rfl, hlen, hpath⟩ := hw
  obtain ⟨pk, keys, hpk, hkeys, hprimary, hclustering, -⟩ := w.path_eq h.leading hlen
  rw [hpk] at hpath
  obtain ⟨hpkS, hkeysS⟩ := forall_mem_cons.mp hpath
  have hmin : t.schema.clusteringKeyIdxs.length = w.noClusteringKeys := by
    simp [h.leading.clustering]
  simp only [tableInsert, TableOp.apply, RowWrite.primaryKey, hpk, h.leading.primary, hmin,
    hclustering, hlen,
    hprimary, guard, length_singleton, le_refl, if_true, getElem?_cons_zero,
    Option.pure_def, bind_eq_bind, bind_some]
  rcases h.chain.search_cases hS hpkS with ⟨hfind, hsearch⟩ | ⟨p, row, hfind, hsearch, hp⟩
  · -- a new row
    obtain ⟨d, hd⟩ := Nat.exists_eq_add_of_lt h.leading.pos
    obtain ⟨hwf, hcols⟩ := createDbRowSchemaless_spec (S := S) (w.columns (1 + w.noClusteringKeys))
      (c := createEmptyRow pk) rfl hkeysS (hkeys.trans hd)
    obtain ⟨rows, hrows, hchain, hfind'⟩ := h.chain.insert hS hpkS ⟨t.brk, { createDbRowSchemaless
      (w.columns (1 + w.noClusteringKeys)) keys (createEmptyRow pk) with version := version }⟩
    obtain ⟨indexes, hindexes⟩ := exists_insertIndexes w.columnValues t.brk t.schema.indexKeyIdxs
      t.indexes
    refine ⟨⟨t.schema, rows, indexes, t.brk + 1⟩, by simp [hsearch, hrows, hindexes],
      h.write hchain hfind' ?_ hkeys fun ks hks => ?_⟩
    · exact Cell.WellFormed.congr (hd ▸ hwf) rfl rfl rfl
    · rw [h.eq pk ks hks, hfind, bind_none]
      rw [← hcols ks (hks.trans hd)]
      cases ks <;> rfl
  · obtain ⟨cell, hcell, hwf, hcols⟩ := insertCells_spec (w.columns (1 + w.noClusteringKeys))
      version
      hS (h.wellFormed _ (mem_of_getElem? hp)).ready hkeys hkeysS
    obtain ⟨hchain, hfind'⟩ := h.chain.set hp { row with cell := cell }
    obtain ⟨indexes, hindexes⟩ := exists_insertIndexes w.columnValues row.addr t.schema.indexKeyIdxs
      t.indexes
    refine ⟨⟨t.schema, t.rows.set p (pk, { row with cell := cell }), indexes, t.brk⟩,
      by simp [hsearch, hp, hcell, hindexes], h.write hchain hfind' hwf hkeys fun ks hks => ?_⟩
    rw [hcols ks hks, h.eq pk ks hks, hfind]
    rfl

lemma Holds.update {colIdxs : List ℕ} (version : Option VectorClock)
    (hw : (TableOp.update w colIdxs version).Admissible d S M) :
    ∃ r, tableUpdate w colIdxs version t = some r ∧
      Holds d S r.1 ((TableOp.update w colIdxs version).apply M) := by
  obtain ⟨rfl, hlen, hidxs, htake, hset, hpath⟩ := hw
  obtain ⟨pk, keys, hpk, hkeys, hprimary, -, hclustering⟩ := w.path_eq h.leading hlen
  rw [hpk] at hpath hset
  obtain ⟨hpkS, hkeysS⟩ := forall_mem_cons.mp hpath
  have hmin : t.schema.clusteringKeyIdxs.length = w.noClusteringKeys := by
    simp [h.leading.clustering]
  -- the assertions about the column numbers
  have hcol : colIdxs = 0 :: (t.schema.clusteringKeyIdxs ++
      colIdxs.drop (1 + w.noClusteringKeys)) := by
    nth_rewrite 1 [← take_append_drop (1 + w.noClusteringKeys) colIdxs]
    rw [htake, h.leading.clustering, Nat.add_comm, range_succ_eq_map]
    rfl
  have hfirst : colIdxs[0]? = some 0 := by rw [hcol]; rfl
  have hrest : (colIdxs.drop 1).take w.noClusteringKeys = t.schema.clusteringKeyIdxs := by
    rw [hcol, drop_succ_cons, drop_zero, take_left' hmin]
  simp only [tableUpdate, TableOp.apply, RowWrite.primaryKey, hpk, h.leading.primary, hmin,
    hclustering, hlen,
    hprimary, hidxs, hfirst, hrest, guard, length_singleton, le_refl, if_true,
    getElem?_cons_zero, Option.pure_def, bind_eq_bind, bind_some]
  rcases h.chain.search_cases hS hpkS with ⟨hfind, hsearch⟩ | ⟨p, row, hfind, hsearch, hp⟩
  · refine ⟨(t, false), by simp [hsearch], ?_⟩
    have hnone : M (pk :: keys) = none := by rw [h.eq pk keys hkeys, hfind]; rfl
    rw [hnone, bind_none, ← hnone, update_eq_self]
    exact h
  · have hcell := h.eq pk keys hkeys
    rw [hfind, bind_some] at hcell
    rw [hcell] at hset ⊢
    rcases alterCell_spec hS (updateColumns_spec version)
        (h.wellFormed _ (mem_of_getElem? hp)) hkeys hkeysS hset with ⟨halter, hnone⟩ | ⟨c, halter,
          hwf, hcols⟩
    · refine ⟨(t, false), by simp [hsearch, hp, halter], ?_⟩
      rw [hnone, bind_none, ← hnone, ← hcell, update_eq_self]
      exact h
    · obtain ⟨hchain, hfind'⟩ := h.chain.set hp { row with cell := c }
      refine ⟨({ t with rows := t.rows.set p (pk, { row with cell := c }) }, true),
        by simp [hsearch, hp, halter], h.write hchain hfind' hwf hkeys fun ks hks => ?_⟩
      rw [hcols ks hks, h.eq pk ks hks, hfind]
      rfl

lemma Holds.deleteRow {pk : WORD} (hw : (TableOp.deleteRow pk).Admissible d S M) :
    ∃ r, tableDeleteRow pk t = some r ∧ Holds d S r.1 ((TableOp.deleteRow pk).apply M) := by
  obtain ⟨hpk, hempty⟩ := hw
  have hne : t.rows = [] → longCmp longMax pk ≠ 0 := fun hnil => hempty fun path => by
    by_contra hpath
    obtain ⟨k, ks, rfl⟩ := exists_cons_of_length_eq_add_one
      ((h.length path hpath).trans (Nat.add_comm 1 d))
    have hks : ks.length = d := by simpa [Nat.add_comm] using h.length _ hpath
    exact hpath (by rw [h.eq k ks hks, hnil]; rfl)
  obtain ⟨rows, hrows, hchain, hfind⟩ := h.chain.delete hS hpk hne
  -- the cells of the row can be freed
  have hfree : (find t.rows pk).all fun row => freeDbCell row.cell := by
    cases hrow : find t.rows pk with
    | none => rfl
    | some row => exact (h.wellFormed _ (Chain.mem_of_find hrow)).freeDbCell
  refine ⟨({ t with rows := rows }, (find t.rows pk).isSome),
    by simp [tableDeleteRow, hrows, hfree, guard], h.leading,
    hchain, hchain.forall_of_find (P := fun row : Row => row.cell.WellFormed S d) hfind (by simp)
      h.wellFormed, fun k ks hks => ?_, fun path hpath => ?_⟩
  · rw [hfind]
    by_cases hk : k = pk <;> simp [TableOp.apply, hk, h.eq k ks hks]
  · refine h.length path fun hnone => hpath ?_
    simp [TableOp.apply, hnone]

lemma Holds.step {op : TableOp} (hop : op.Admissible d S M) :
    ∃ t', op.run t = some t' ∧ Holds d S t' (op.apply M) := by
  cases op with
  | insert w version => exact h.insert hS version hop
  | update w colIdxs version =>
    obtain ⟨r, hr, h'⟩ := h.update hS version hop
    exact ⟨r.1, by rw [TableOp.run, hr]; rfl, h'⟩
  | deleteRow pk =>
    obtain ⟨r, hr, h'⟩ := h.deleteRow hS hop
    exact ⟨r.1, by rw [TableOp.run, hr]; rfl, h'⟩

lemma Holds.run {ops : List TableOp} (hops : AdmissibleOps d S M ops) :
    ∃ t', Trace.run TableOp.run t ops = some t' ∧ Holds d S t' (ops.foldl TableOp.apply M) := by
  induction ops generalizing t M with
  | nil => exact ⟨t, rfl, h⟩
  | cons op ops ih =>
    obtain ⟨t1, ht1, h1⟩ := h.step hS hops.1
    obtain ⟨t', ht', h'⟩ := ih h1 hops.2
    exact ⟨t', Trace.run_cons_eq_some.mpr ⟨t1, ht1, ht'⟩, h'⟩

lemma Holds.searchColumns_eq {path : List WORD} (hlen : path.length = 1 + d)
    (hpath : ∀ k ∈ path, k ∈ S) : searchColumns path t =
      some ((M path).map fun columns => (columns, blobSize columns)) := by
  obtain ⟨pk, ks, rfl⟩ := exists_cons_of_length_eq_add_one (hlen.trans (Nat.add_comm 1 d))
  have hks : ks.length = d := by simpa [Nat.add_comm] using hlen
  have hne : ks ≠ [] := ne_nil_of_length_pos (hks ▸ h.leading.pos)
  rw [h.eq pk ks hks]
  simp only [searchColumns, tableSearchClustering, tableSearch, guard, h.leading.primary, hne,
    ne_eq,
    not_false_eq_true, if_true, length_singleton, Option.pure_def, bind_eq_bind, bind_some]
  rcases h.chain.search_cases hS (hpath pk (by simp)) with ⟨hfind, hsearch⟩ | ⟨p, row, hfind,
    hsearch, hp⟩
  · simp [hsearch, hfind]
  · obtain ⟨r, hr, hcols⟩ := followKeys_eq hS (h.wellFormed _ (mem_of_getElem? hp)) hks
      fun k hk => hpath k (by simp [hk])
    simp [hsearch, hfind, hp, hr, hcols]

end
end

/-- A sequence of insertions, updates and deletions does not fail, and a search for a full key path
finds the columns that were last written there, with the size of the last one. -/
theorem table_refines {schema : Schema} (hschema : schema.Leading d) (hS : Close S)
    {ops : List TableOp}
    (hops : AdmissibleOps d S (fun _ => none) ops) :
    ∃ t, Trace.run TableOp.run (createTable schema) ops = some t ∧
      ∀ path : List WORD, path.length = 1 + d → (∀ k ∈ path, k ∈ S) →
        searchColumns path t = some ((ops.foldl TableOp.apply (fun _ => none) path).map
          fun columns => (columns, blobSize columns)) := by
  obtain ⟨t, ht, h⟩ := (holds_createTable (S := S) hschema).run hS hops
  exact ⟨t, ht, fun path hlen hpath => h.searchColumns_eq hS hlen hpath⟩

end Tables

/-- Two rows are written to, one with a blob, one cell is updated, and one row is deleted. -/
def exampleOps : List TableOp :=
  [.insert ⟨[1, 2, 7], 1, []⟩ none, .insert ⟨[1, 3, 8], 1, []⟩ none,
    .insert ⟨[4, 3, 5], 1, [1, 2]⟩ none, .update ⟨[1, 2, 9], 1, []⟩ [0, 1, 2] none, .deleteRow 4]

theorem table_refines_exampleOps : ∃ t,
    Trace.run TableOp.run (createTable ⟨[0], [1], []⟩) exampleOps = some t ∧
      searchColumns [1, 2] t = some (some ([.word 9], 0)) ∧
      searchColumns [1, 3] t = some (some ([.word 8], 0)) ∧ searchColumns [4, 3] t = some none := by
  have hops : AdmissibleOps 1 smallKeys (fun _ => none) exampleOps := by
    refine ⟨⟨rfl, by decide, forall_mem_smallKeys (by decide)⟩,
      ⟨rfl, by decide, forall_mem_smallKeys (by decide)⟩,
      ⟨rfl, by decide, forall_mem_smallKeys (by decide)⟩,
      ⟨rfl, by decide, rfl, rfl, fun columns h => ?_, forall_mem_smallKeys (by decide)⟩,
      ⟨by decide, fun h => ?_⟩, trivial⟩
    · have : some [Column.word 7] = some columns := h
      cases this
      exact ⟨_, rfl, rfl⟩
    · exact absurd (h [1, 2]) (by decide)
  have hschema : (⟨[0], [1], []⟩ : Schema).Leading 1 := ⟨rfl, rfl, by decide⟩
  obtain ⟨t, ht, h⟩ := table_refines hschema close_smallKeys hops
  exact ⟨t, ht, h [1, 2] rfl (forall_mem_smallKeys (by decide)),
    h [1, 3] rfl (forall_mem_smallKeys (by decide)),
    h [4, 3] rfl (forall_mem_smallKeys (by decide))⟩

/-- A row with more clustering keys than the schema has is not found: the second key is read from
the column of the first. Rows whose keys are `2 ^ 32` apart are one row: the second overwrites the
first. A blob that was updated with a word is freed as a blob. -/
theorem table_diverges :
    (Trace.run TableOp.run (createTable ⟨[0], [1], []⟩) [.insert ⟨[1, 5, 6, 42], 2, []⟩ none]).bind
        (searchColumns [1, 5, 6]) = some none ∧
      (Trace.run TableOp.run (createTable ⟨[0], [1], []⟩)
        [.insert ⟨[0, 1, 7], 1, []⟩ none, .insert ⟨[0x100000000, 1, 8], 1, []⟩ none]).bind
          (searchColumns [0, 1]) = some (some ([.word 8], 0)) ∧
      (Trace.run TableOp.run (createTable ⟨[0], [1], []⟩)
        [.insert ⟨[4, 3, 5], 1, [1, 2]⟩ none, .update ⟨[4, 3, 9], 1, []⟩ [0, 1, 2] none,
          .deleteRow 4]).isNone := by
  refine ⟨by decide, by decide, rfl⟩

end Acton.Backend
