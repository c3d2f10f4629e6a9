import Acton.Backend.Queue.Heads

/-!
# Reading from a queue

Producers enqueue entries while a consumer subscribes and reads. The threads can be interleaved
between the parts of their calls: a producer takes a number, goes into `table_insert` and leaves it,
a consumer looks the number of entries up, moves its head, and then searches for the entries.

* `reading_correct`: a queue that is new delivers the entries in the order of their numbers, each
  once, and no assertion fails, if and only if the consumer never searches for an entry whose
  producer has its number and has not yet inserted it, and no two threads meet in the cells.
* `reading_diverges`: the assertion in `read_queue` fails, or a later entry is delivered in place of
  the one that is missing, and then once more.
* `replayQueue_correct`: a replay returns the entries after its start if and only if it starts at
  `-1` or there is nothing to replay.
-/

namespace Acton.Backend
open List
open Option hiding guard

/-! ## Threads -/

/-- Where the consumer is in `readQueue`, if it has subscribed. -/
inductive Phase
  | absent
  | idle
  | looked (maxEntries noEntries : ℤ)
  | planned (plan : ReadPlan)
  deriving DecidableEq, Repr

/-- The table, the producers that have taken a number, and the consumer. The last two fields are not
part of the program: the entries in the order of their numbers, and what the consumer has
received. -/
structure Threads where
  table : Table
  pending : List (ℤ × Entry)
  /-- The number of the producer that is in `table_insert`, which takes no lock. -/
  inserting : Option ℤ
  phase : Phase
  enqueued : List Entry
  received : List ReadResult

inductive QueueEvent
  | reserve (e : Entry)
  /-- The producer that has the number calls `table_insert`. -/
  | enter (entryId : ℤ)
  /-- The call of `table_insert` is over. -/
  | insert (entryId : ℤ)
  | subscribe (shardId appId groupId : WORD)
  | lookup (maxEntries : ℤ)
  | advance
  | search
  deriving DecidableEq, Repr

/-- The consumer returns from `readQueue`. -/
def Threads.receive (s : Threads) (t : Table) : Except DbErr ReadResult → Threads
  | .ok r => { s with table := t, phase := .idle, received := s.received ++ [r] }
  | .error _ => { s with table := t, phase := .idle }

/-- One part of a call. Nothing happens if no thread is there to do it. There is no next state if an
assertion fails, or if a thread goes into the cells of the queue while an entry is being inserted
into them. -/
def Threads.step (queueId consumerId : WORD) (s : Threads) : QueueEvent → Option Threads
  | .reserve e => do
    match ← enqueueReserve queueId s.table with
    | (t, .ok entryId) =>
      some { s with table := t, pending := s.pending ++ [(entryId, e)], enqueued := s.enqueued ++
        [e] }
    | (t, .error _) => some { s with table := t }
  | .enter entryId => do
    if s.pending.any (·.1 = entryId) then
      guard (s.inserting = none)
      some { s with inserting := some entryId }
    else some s
  | .insert entryId =>
    match s.inserting.bind fun i => s.pending.find? fun x => x.1 = i ∧ i = entryId with
    | some (_, e) => do
      let (t, _) ← enqueueInsert e entryId queueId s.table
      some { s with
        table := t
        pending := s.pending.filter (·.1 ≠ entryId)
        inserting := none }
    | none => some s
  | .subscribe shardId appId groupId =>
    match s.phase with
    | .absent => do
      match ← subscribeQueue (getConsumerState consumerId shardId appId groupId) queueId
        s.table with
      | (t, .ok _) => some { s with table := t, phase := .idle }
      | (t, .error _) => some { s with table := t }
    | _ => some s
  | .lookup maxEntries =>
    match s.phase with
    | .idle => do
      match ← readLookup consumerId queueId s.table with
      | .ok noEntries => some { s with phase := .looked maxEntries noEntries }
      | .error _ => some s
    | _ => some s
  | .advance =>
    match s.phase with
    | .looked maxEntries noEntries => do
      match ← readAdvance consumerId queueId maxEntries noEntries s.table with
      | (t, .ok (.inl plan)) => some { s with table := t, phase := .planned plan }
      | (t, .ok (.inr r)) => some (s.receive t (.ok r))
      | (t, .error err) => some (s.receive t (.error err))
    | _ => some s
  | .search =>
    match s.phase with
    | .planned plan => do
      guard (s.inserting = none)
      let (t, r) ← readSearch consumerId queueId plan s.table
      some (s.receive t r)
    | _ => some s

/-- A queue was created. -/
def Threads.start (t : Table) : Threads := ⟨t, [], none, .absent, [], []⟩

/-! ## What must be delivered -/

/-- The columns of an entry, as they are stored. -/
def Entry.columns (e : Entry) : List Column := (RowWrite.mk e.columnValues 0 e.lastBlob).columns 0

/-- The number of an entry that was found, and its columns. -/
def content (n : WORD × Cell) : ℤ × Option (List Column) := (toInt64 n.1, n.2.columnArray)

def numbered (enqueued : List Entry) : List (ℤ × Option (List Column)) :=
  enqueued.mapIdx fun i e => ((i : ℤ), some e.columns)

/-- The head after the batches. -/
def lastHead (received : List ReadResult) : ℤ :=
    (received.getLast?.map ReadResult.newHead).getD (-1)

/-- In each batch the number of entries and the head are those of the entries in it, from the head
before. -/
def Batches : ℤ → List ReadResult → Prop
  | _, [] => True
  | head, r :: received => r.entriesRead = r.newHead - head ∧
    r.entries.map (fun n => toInt64 n.1) = (List.range r.entries.length).map
    (fun i : ℕ => head + 1 + i) ∧
    (r.entries.length : ℤ) = r.entriesRead ∧ Batches r.newHead received

/-- All entries up to the head were delivered, in the order of their numbers. -/
structure Threads.Delivered (s : Threads) : Prop where
  batches : Batches (-1) s.received
  entries : (s.received.flatMap fun r => r.entries.map content) =
    (numbered s.enqueued).take (lastHead s.received + 1).toNat
  enqueued : lastHead s.received < s.enqueued.length

/-- A search for an entry that is not there yet. -/
def Threads.Early (s : Threads) (e : QueueEvent) : Prop :=
  e = .search ∧ ∃ plan, s.phase = .planned plan ∧ ∃ x ∈ s.pending, x.1 ≤ plan.newHead

/-- A search, or the insertion of another entry, while an entry is being inserted. -/
def Threads.Overlaps (s : Threads) (e : QueueEvent) : Prop :=
  s.inserting ≠ none ∧ ((e = .search ∧ ∃ plan, s.phase = .planned plan) ∨
    ∃ x ∈ s.pending, e = .enter x.1)

/-! ## Searches for a range -/

/-- The keys of entries, and of the first one, which no reader gets. -/
def entryKeys : Set WORD := {k | -2 ≤ toInt64 k ∧ toInt64 k < 2 ^ 31 - 2}

lemma close_entryKeys : Close entryKeys where
  ne_longMax := by
    rintro k ⟨-, hk⟩ rfl
    exact absurd hk (by decide)
  sub_lt a ha b hb := by
    obtain ⟨-, ha⟩ := ha
    obtain ⟨hb, -⟩ := hb
    omega

lemma ofInt64_mem_entryKeys {z : ℤ} (h1 : -2 ≤ z) (h2 : z < 2 ^ 31 - 2) :
    toInt64 (ofInt64 z) = z ∧ ofInt64 z ∈ entryKeys := by
  have hz : toInt64 (ofInt64 z) = z := toInt64_ofInt64 (by omega) (by omega)
  exact ⟨hz, by rw [entryKeys, Set.mem_ofPred_eq, hz]; exact ⟨h1, h2⟩⟩

section Range
variable {V : Type} {l : List (WORD × V)} {a : ℤ} {endKey : WORD}

lemma nodes_rangeLoop_subset (endKey : WORD) (l : List (WORD × V)) :
    (rangeLoop endKey l).nodes ⊆ l := by
  induction l with
  | nil => simp [rangeLoop, Range.nodes]
  | cons n l ih =>
    cases l with
    | nil => simp [rangeLoop, Range.nodes]
    | cons n' l =>
      rw [rangeLoop]
      split
      · exact cons_subset_cons n ih
      · simp [Range.nodes]

/-- A search that points to a node has it in the result. -/
lemma rangeLoop_cons (endKey : WORD) (n : WORD × V) (l : List (WORD × V)) :
    1 ≤ (rangeLoop endKey (n :: l)).noResults ∧ n ∈ (rangeLoop endKey (n :: l)).nodes := by
  induction l generalizing n with
  | nil => simp [rangeLoop, Range.nodes]
  | cons n' l ih =>
    rw [rangeLoop]
    split
    · have := (ih n').1
      exact ⟨by simp only; omega, by simp [Range.nodes]⟩
    · simp [Range.nodes]

lemma exists_head (hl : SortedNodes.Sorted toInt64 l) (ha : ∀ n ∈ l, a ≤ toInt64 n.1)
    (hmem : ∃ m ∈ l, toInt64 m.1 = a) :
    ∃ n l', l = n :: l' ∧ toInt64 n.1 = a ∧ SortedNodes.Sorted toInt64 l' ∧
      ∀ m ∈ l', a < toInt64 m.1 := by
  obtain ⟨m, hm, hma⟩ := hmem
  obtain ⟨n, l, rfl⟩ := exists_cons_of_ne_nil (ne_nil_of_mem hm)
  obtain ⟨hlt, hl⟩ := pairwise_cons.mp hl
  have hn : toInt64 n.1 = a := by
    have hna := ha n (by simp)
    rcases mem_cons.mp hm with rfl | hm
    · exact hma
    · have := hlt m hm
      omega
  exact ⟨n, l, rfl, hn, hl, fun m hm => hn ▸ hlt m hm⟩

/-- If all numbers of the range are there, the loop finds exactly these. -/
theorem rangeLoop_spec (k : ℕ) (hl : SortedNodes.Sorted toInt64 l) (ha : ∀ n ∈ l, a ≤ toInt64 n.1)
    (hend : toInt64 endKey = a + k) (hall : ∀ i : ℕ, i ≤ k → ∃ n ∈ l, toInt64 n.1 = a + i) :
    (rangeLoop endKey l).noResults = k + 1 ∧ (rangeLoop endKey l).nodes.map (fun n => toInt64 n.1) =
        (List.range (k + 1)).map (fun i : ℕ => a + i) := by
  induction k generalizing a l with
  | zero =>
    obtain ⟨n, l, rfl, hn, -, -⟩ := exists_head hl ha (by simpa using hall 0 (le_refl 0))
    have hend' : ¬ toInt64 n.1 < toInt64 endKey := by omega
    cases l with
    | nil => simp [rangeLoop, Range.nodes, hn]
    | cons n' l => simp only [rangeLoop, if_neg hend']; simp [Range.nodes, hn]
  | succ k ih =>
    obtain ⟨n, l, rfl, hn, hl, hlt⟩ := exists_head hl ha (by simpa using hall 0 (Nat.zero_le _))
    -- the other numbers are those of the other nodes
    have hall' : ∀ i : ℕ, i ≤ k → ∃ m ∈ l, toInt64 m.1 = a + 1 + i := by
      intro i hi
      obtain ⟨m, hm, hma⟩ := hall (i + 1) (by omega)
      rcases mem_cons.mp hm with rfl | hm
      · push_cast at hma
        omega
      · exact ⟨m, hm, by push_cast at hma; omega⟩
    obtain ⟨hno, hnodes⟩ := ih hl (fun m hm => hlt m hm) (by push_cast at hend; omega) hall'
    obtain ⟨n', l, rfl⟩ : ∃ n' l', l = n' :: l' := by
      obtain ⟨m, hm, -⟩ := hall' 0 (Nat.zero_le k)
      exact exists_cons_of_ne_nil (ne_nil_of_mem hm)
    have hend' : toInt64 n.1 < toInt64 endKey := by push_cast at hend; omega
    simp only [rangeLoop, if_pos hend', Range.nodes, cons_append, map_cons] at hno hnodes ⊢
    refine ⟨by rw [hno]; push_cast; omega, ?_⟩
    rw [hnodes, hn, range_succ_eq_map (n := k + 1)]
    rw [map_cons, List.map_map]
    congr 1
    · exact (Int.add_zero a).symm
    · refine map_congr_left fun i _ => ?_
      simp only [Function.comp_apply, Nat.succ_eq_add_one]
      omega

end Range

/-! ## The parts of the calls -/

/-- What the threads see of the table: the cells of the queue, the number of entries and the head of
the consumer, if it has subscribed. -/
structure View (S : Set WORD) (t : Table) (queueId consumerId : WORD) (cells : List (WORD × Cell))
    (noEntries : ℤ) (head : Option ℤ) : Prop where
  ok : t.Ok S
  schema : t.schema = ⟨[0], [1], []⟩
  row : ∃ row, find t.rows queueId = some row ∧ row.cell.cells = some cells ∧
    row.cell.noEntries = noEntries
  subscribers : ∃ row l, find t.rows queueId = some row ∧ row.cell.consumerState = some l
  consumer : (consumerIn t queueId consumerId).map ConsumerState.privateReadHead = head

variable {e : Entry}
namespace View
variable {S : Set WORD} {t t' : Table} {queueId consumerId : WORD} {cells : List (WORD × Cell)}
  {noEntries : ℤ} {head : Option ℤ} {p : ℕ} {row : Row} {cell : Cell}

lemma set (h : View S t queueId consumerId cells noEntries head) (cell : Cell) (hok : t'.Ok S)
    (hp : t.rows[p]? = some (queueId, row)) (hrows : t'.rows = t.rows.set p (queueId,
      { row with cell := cell }))
    (hschema : t'.schema = t.schema) (hcons : cell.consumerState = row.cell.consumerState)
    {cells' : List (WORD × Cell)} (hcells : cell.cells = some cells') :
    View S t' queueId consumerId cells' cell.noEntries head := by
  have hfind : find t'.rows queueId = some { row with cell := cell } := by
    rw [hrows, h.ok.chain.find_set_self hp]
  have hrow := h.ok.chain.find_of_mem (mem_of_getElem? hp)
  obtain ⟨_, l, hrow', hl⟩ := h.subscribers
  rw [hrow] at hrow'
  cases hrow'
  refine ⟨hok, hschema.trans h.schema, ⟨_, hfind, hcells, rfl⟩, ⟨_, l, hfind, hcons.trans hl⟩, ?_⟩
  rw [← h.consumer, consumerIn, consumerIn, hfind, hrow, bind_some, bind_some, hcons]

variable (hS : Close S) (hq : queueId ∈ S) (hc : consumerId ∈ S)
  (h : View S t queueId consumerId cells noEntries head)
include hS hq h

lemma reserve : ∃ t', enqueueReserve queueId t = some (t', .ok noEntries) ∧
    View S t' queueId consumerId cells (noEntries + 1) head := by
  obtain ⟨row, hfind, hcells, hno⟩ := h.row
  obtain ⟨p, hp, heq⟩ := withQueue_of_find hS hq h.ok.chain hfind reserveEntry
  rw [reserveEntry, map_some, hno] at heq
  have hok := (Keeps.enqueueReserve hS h.ok hq _ _ heq).1
  exact ⟨_, heq, h.set _ hok hp rfl rfl rfl hcells⟩

lemma notify : withQueue queueId notifySubscribers t = some (t, .ok ()) := by
  obtain ⟨row, l, hfind, hl⟩ := h.subscribers
  obtain ⟨p, hp, heq⟩ := withQueue_of_find hS hq h.ok.chain hfind notifySubscribers
  rw [heq, notifySubscribers_eq, hl, map_some, map_some, Chain.set_self hp]

lemma insert {entryId : ℤ} (hcols : e.columnValues ≠ []) {cells' : List (WORD × Cell)}
    (hsearch : longSearch (ofInt64 entryId) cells = some none)
    (hinsert : longInsert (ofInt64 entryId)
      ((createCell (ofInt64 entryId) true).setColumns e.columns) cells = some cells') :
    ∃ t', enqueueInsert e entryId queueId t = some (t', .ok ()) ∧
      View S t' queueId consumerId cells' noEntries head := by
  obtain ⟨row, hfind, hcells, hno⟩ := h.row
  obtain ⟨p, hsearch', hp⟩ := h.ok.chain.search_of_find hS hq hfind
  have hlen : 1 + 1 < (queueId :: ofInt64 entryId :: e.columnValues).length := by
    have := length_pos_iff.mpr hcols
    simp only [length_cons]
    omega
  have hcell : insertCells e.columns none [ofInt64 entryId] row.cell =
      some { row.cell with cells := some cells' } := by
    simp only [insertCells, hcells, hsearch, isEmpty_nil, bind_eq_bind, bind_some]
    rw [if_neg (by simp [createCell]), bind_some, Cell.setVersion, hinsert]
    rfl
  have hins : tableInsert ⟨queueId :: ofInt64 entryId :: e.columnValues, 1, e.lastBlob⟩ none t =
    some { t with
      rows := t.rows.set p (queueId, { row with cell := { row.cell with cells := some cells' } })
      } := by
    have hcolumns : RowWrite.columns ⟨queueId :: ofInt64 entryId :: e.columnValues, 1, e.lastBlob⟩
      (1 + 1) =
      e.columns := rfl
    simp only [tableInsert, RowWrite.primaryKey, RowWrite.clusteringKeys, h.schema, hlen, hcolumns,
      guard,
      length_singleton, le_refl, if_true, getElem?_cons_zero, Option.pure_def,
      bind_eq_bind, bind_some]
    simp [Schema.colIndex, hsearch', hp, hcell, insertIndexes]
  obtain ⟨hok, -, -⟩ := h.ok.tableInsert hS hq hfind hins
  have hview := h.set { row.cell with cells := some cells' } hok hp rfl rfl rfl rfl
  rw [hno] at hview
  refine ⟨_, ?_, hview⟩
  rw [enqueueInsert, hins, bind_eq_bind, bind_some]
  exact hview.notify hS hq

include hc

lemma readConsumer_eq {α : Type} {cs : ConsumerState}
    (hcs : consumerIn t queueId consumerId = some cs) :
    ∃ row, row.noEntries = noEntries ∧ ∀ f : Cell → ConsumerState → Option (Except DbErr α),
      readConsumer consumerId queueId f t = f row cs := by
  obtain ⟨row, hfind, -, hno⟩ := h.row
  simp only [consumerIn, hfind, bind_some, bind_eq_some_iff] at hcs
  obtain ⟨l, hl, hcs⟩ := hcs
  obtain ⟨p, hsearch, hp⟩ := h.ok.chain.search_of_find hS hq hfind
  have hchain := (h.ok.ok _ (mem_of_getElem? hp)).chain l hl
  obtain ⟨p', hsearch', hp'⟩ := hchain.search_of_find hS hc hcs
  exact ⟨row.cell, hno, fun f => by simp [readConsumer, hsearch, hp, hl, hsearch', hp']⟩

lemma lookup (hhead : head ≠ none) : readLookup consumerId queueId t = some (.ok noEntries) := by
  obtain ⟨cs, hcs⟩ : ∃ cs, consumerIn t queueId consumerId = some cs := by
    rw [← h.consumer, ne_eq, map_eq_none_iff] at hhead
    exact ne_none_iff_exists'.mp hhead
  obtain ⟨row, hno, hread⟩ := h.readConsumer_eq hS hq hc hcs
  rw [readLookup, hread, hno]

lemma update {α : Type} {f : ConsumerState → Option (ConsumerState × Except DbErr α)}
    {cs cs' : ConsumerState} {r : Except DbErr α} (hcs : consumerIn t queueId consumerId = some cs)
    (hf : f cs = some (cs', r))
    (hkeeps : Keeps (Table.Ok S) Table.Forward (withQueue queueId (withConsumer consumerId f)) t) :
    ∃ t', withQueue queueId (withConsumer consumerId f) t = some (t', r) ∧
      View S t' queueId consumerId cells noEntries (some cs'.privateReadHead) := by
  obtain ⟨row, hfind, hcells, hno⟩ := h.row
  obtain ⟨put, heq, -, hput⟩ := withQueue_withConsumer hS h.ok hq hc hcs f
  rw [hf, map_some] at heq
  obtain ⟨hcs', hschema, hrow⟩ := hput cs'
  obtain ⟨l, hrow⟩ := hrow row hfind
  have hsubscribed := hcs'
  simp only [consumerIn, bind_eq_some_iff] at hsubscribed
  obtain ⟨row', hrow', l', hl', -⟩ := hsubscribed
  exact ⟨_, heq, (hkeeps _ _ heq).1, hschema.trans h.schema, ⟨_, hrow, hcells, hno⟩,
    ⟨row', l', hrow', hl'⟩, by rw [hcs', map_some]⟩

/-- A consumer that was not there is there with the head of a new one. -/
theorem subscribe (hhead : head = none) (shardId appId groupId : WORD) :
    ∃ t', subscribeQueue (getConsumerState consumerId shardId appId groupId) queueId t =
        some (t', .ok ()) ∧ View S t' queueId consumerId cells noEntries (some (-1)) := by
  obtain ⟨row, hfind, hcells, hno⟩ := h.row
  obtain ⟨_, l, hfind', hl⟩ := h.subscribers
  rw [hfind] at hfind'
  cases hfind'
  obtain ⟨p, hp, heq⟩ := withQueue_of_find hS hq h.ok.chain hfind _
  have hchain := (h.ok.ok _ (mem_of_getElem? hp)).chain l hl
  have habsent : find l consumerId = none := by
    have hnone := h.consumer.trans hhead
    rwa [map_eq_none_iff, consumerIn, hfind, bind_some, hl, bind_some] at hnone
  have hsearch : longSearch consumerId l = some none := by
    rcases hchain.search_cases hS hc with ⟨-, hsearch⟩ | ⟨p, v, hsome, -⟩
    · exact hsearch
    · rw [habsent] at hsome
      cases hsome
  obtain ⟨l', hinsert, -, hfind'⟩ :=
    hchain.insert hS hc (getConsumerState consumerId shardId appId groupId)
  have hid : (getConsumerState consumerId shardId appId groupId).consumerId = consumerId := rfl
  have hsub : subscribeQueue (getConsumerState consumerId shardId appId groupId) queueId t = some
      ({ t with
        rows := t.rows.set p (queueId,
          { row with cell := { row.cell with consumerState := some l' } }) }, .ok ()) := by
    rw [subscribeQueue, heq]
    simp [hl, hid, hsearch, hinsert]
  have hrow := h.ok.chain.find_set_self hp
    { row with cell := { row.cell with consumerState := some l' } }
  refine ⟨_, hsub, (Keeps.subscribeQueue hS h.ok hq hc shardId appId groupId _ _ hsub).1, h.schema,
    ⟨_, hrow, hcells, hno⟩, ⟨_, l', hrow, rfl⟩, ?_⟩
  rw [consumerIn, hrow, bind_some, bind_some, hfind', if_pos rfl]
  rfl

omit h in
lemma advance {head maxEntries n : ℤ}
    (h : View S t queueId consumerId cells noEntries (some head)) (hmax : 1 ≤ maxEntries)
    (hn : n ≤ noEntries) (hhead : head ≤ n - 1) :
    ∃ t' version, View S t' queueId consumerId cells noEntries
        (some (min (head + maxEntries) (n - 1))) ∧
      readAdvance consumerId queueId maxEntries n t = some (t', .ok (
        if head = n - 1 then .inr ⟨true, head, 0, [], version⟩
        else .inl ⟨n, head + 1, min (head + maxEntries) (n - 1), version⟩)) := by
  obtain ⟨cs, hcs, rfl⟩ := map_eq_some_iff.mp h.consumer
  obtain ⟨row, hfind, -, hno⟩ := h.row
  have hle : ∀ row', find t.rows queueId = some row' → n ≤ row'.cell.noEntries := by
    intro row' hrow'
    rw [hfind] at hrow'
    cases hrow'
    omega
  have hkeeps := Keeps.readAdvance hS h.ok hq hc (by omega : 0 ≤ maxEntries) hle
  by_cases heq : cs.privateReadHead = n - 1
  · have hf : advanceHead maxEntries n cs =
        some (cs, .ok (.inr ⟨true, cs.privateReadHead, 0, [], cs.prhVersion⟩)) := by
      simp [advanceHead, heq]
    obtain ⟨t', ht', hview⟩ := h.update hS hq hc hcs hf hkeeps
    rw [show cs.privateReadHead = min (cs.privateReadHead + maxEntries) (n - 1) by omega] at hview
    exact ⟨t', cs.prhVersion, hview, by rw [if_pos heq]; exact ht'⟩
  · have hf : advanceHead maxEntries n cs = some
        ({ cs with privateReadHead := min (cs.privateReadHead + maxEntries) (n - 1) },
          .ok (.inl ⟨n, cs.privateReadHead + 1, min (cs.privateReadHead + maxEntries) (n - 1),
          cs.prhVersion⟩)) := by
      simp [advanceHead, hhead, heq]
    obtain ⟨t', ht', hview⟩ := h.update hS hq hc hcs hf hkeeps
    exact ⟨t', cs.prhVersion, hview, by rw [if_neg heq]; exact ht'⟩

omit hc in
lemma searchEntries_eq (a b : ℤ) : searchEntries queueId a b t =
    (longSearchHigher (ofInt64 a) cells).map fun start =>
      rangeLoop (ofInt64 b) (nodesFrom start cells) := by
  obtain ⟨row, hfind, hcells, -⟩ := h.row
  obtain ⟨p, hsearch, hp⟩ := h.ok.chain.search_of_find hS hq hfind
  simp only [searchEntries, tableRangeSearchClustering, tableSearch, rangeCell, h.schema, hsearch,
    hp, hcells,
    guard, length_singleton, ne_eq, reduceCtorEq, not_false_eq_true, if_true, Option.pure_def,
    bind_eq_bind, bind_some]
  cases longSearchHigher (ofInt64 a) cells <;> rfl

lemma search (hhead : head ≠ none) {plan : ReadPlan} {r : ReadResult}
    (hr : searchPlan plan queueId t = some r) :
    ∃ t', readSearch consumerId queueId plan t = some (t', .ok r) ∧
      View S t' queueId consumerId cells noEntries head := by
  rw [readSearch, hr, bind_eq_bind, bind_some]
  split
  · obtain ⟨cs, hcs⟩ : ∃ cs, consumerIn t queueId consumerId = some cs := by
      rw [← h.consumer, ne_eq, map_eq_none_iff] at hhead
      exact ne_none_iff_exists'.mp hhead
    obtain ⟨t', ht', hview⟩ := h.update hS hq hc
      (f := fun cs => some ({ cs with notified := false }, .ok r)) hcs rfl
      (Keeps.withQueueConsumer hS h.ok hq hc fun _ _ _ _ hok => Keeps.clearNotified hok r)
    refine ⟨t', ht', ?_⟩
    rwa [← h.consumer, hcs]
  · exact ⟨t, rfl, h⟩

end View

/-! ## The entries in the cells -/

/-- The entries that were inserted are in the cells, the others are not. -/
structure Stored (enqueued : List Entry) (pending : List (ℤ × Entry)) (cells : List (WORD × Cell)) :
    Prop where
  chain : Chain entryKeys cells
  length : enqueued.length ≤ 2 ^ 31 - 2
  columns : ∀ e ∈ enqueued, e.columnValues ≠ []
  keys : ∀ n ∈ cells, toInt64 n.1 < enqueued.length ∧ toInt64 n.1 ≠ -1
  /-- The node that a new queue has. -/
  first : ∃ n ∈ cells, toInt64 n.1 = -2
  taken : ∀ x ∈ pending, 0 ≤ x.1 ∧ enqueued[x.1.toNat]? = some x.2
  waiting : ∀ x ∈ pending, find cells (ofInt64 x.1) = none
  stored : ∀ (i : ℕ) e, enqueued[i]? = some e → (∀ x ∈ pending, x.1 ≠ i) →
    ∃ cell, find cells (ofInt64 i) = some cell ∧ cell.columnArray = some e.columns

namespace Stored
variable {enqueued : List Entry} {pending : List (ℤ × Entry)} {cells : List (WORD × Cell)}
variable {x : ℤ × Entry}
section
variable (h : Stored enqueued pending cells)
include h

lemma lt_length (hx : x ∈ pending) : 0 ≤ x.1 ∧ x.1 < enqueued.length := by
  obtain ⟨h0, hget⟩ := h.taken x hx
  obtain ⟨hlt, -⟩ := List.getElem?_eq_some_iff.mp hget
  omega

lemma reserve (he : e.columnValues ≠ []) (hlen : enqueued.length + 1 ≤ 2 ^ 31 - 2) :
    Stored (enqueued ++ [e]) (pending ++ [((enqueued.length : ℤ), e)]) cells where
  chain := h.chain
  length := by simpa using hlen
  columns e' he' := by
    rcases mem_append.mp he' with he' | he'
    · exact h.columns e' he'
    · rwa [mem_singleton.mp he']
  keys n hn := by
    have := h.keys n hn
    simp only [length_append, length_singleton]
    omega
  first := h.first
  taken x hx := by
    rcases mem_append.mp hx with hx | hx
    · obtain ⟨h0, hget⟩ := h.taken x hx
      obtain ⟨hlt, -⟩ := List.getElem?_eq_some_iff.mp hget
      exact ⟨h0, by rw [getElem?_append_left hlt, hget]⟩
    · rw [mem_singleton.mp hx]
      simp
  waiting x hx := by
    rcases mem_append.mp hx with hx | hx
    · exact h.waiting x hx
    · rw [mem_singleton.mp hx, eq_none_iff_forall_ne_some]
      intro v hv
      -- the number is beyond those of the cells
      have hkey := (h.keys _ (Chain.mem_of_find hv)).1
      rw [(ofInt64_mem_entryKeys (by omega) (by omega)).1] at hkey
      exact lt_irrefl _ hkey
  stored i e' he' hi := by
    have hne : i ≠ enqueued.length := fun heq => hi ((enqueued.length : ℤ), e) (by simp)
      (by simp [heq])
    have hlt : i < enqueued.length := by
      obtain ⟨hlt, -⟩ := List.getElem?_eq_some_iff.mp he'
      rw [length_append, length_singleton] at hlt
      omega
    rw [getElem?_append_left hlt] at he'
    exact h.stored i e' he' fun x hx => hi x (by simp [hx])

lemma insert (hx : x ∈ pending) : longSearch (ofInt64 x.1) cells = some none ∧ ∃ cells',
      longInsert (ofInt64 x.1) ((createCell (ofInt64 x.1) true).setColumns x.2.columns) cells =
          some cells' ∧
        Stored enqueued (pending.filter (·.1 ≠ x.1)) cells' := by
  obtain ⟨h0, hlt⟩ := h.lt_length hx
  have hlen := h.length
  obtain ⟨hkey, hmem⟩ := ofInt64_mem_entryKeys (z := x.1) (by omega) (by omega)
  have hwait := h.waiting x hx
  refine ⟨?_, ?_⟩
  · rcases h.chain.search_cases close_entryKeys hmem with ⟨-, hsearch⟩ | ⟨p, v, hsome, -, -⟩
    · exact hsearch
    · rw [hwait] at hsome
      cases hsome
  · obtain ⟨cells', hins, hchain, hfind⟩ := h.chain.insert close_entryKeys hmem
      ((createCell (ofInt64 x.1) true).setColumns x.2.columns)
    -- keys of other numbers are other keys
    have hne : ∀ z : ℤ, 0 ≤ z → z < enqueued.length → z ≠ x.1 → ofInt64 z ≠ ofInt64 x.1 := by
      intro z h1 h2 hz heq
      have := (ofInt64_mem_entryKeys (z := z) (by omega) (by omega)).1
      rw [heq, hkey] at this
      exact hz this.symm
    refine ⟨cells', hins, hchain, h.length, h.columns, fun n hn => ?_, ?_, fun y hy => ?_,
      fun y hy => ?_, fun i e he hi => ?_⟩
    · have hn' := hchain.find_of_mem hn
      rw [hfind] at hn'
      split at hn'
      · next heq =>
        rw [heq, hkey]
        omega
      · exact h.keys (n.1, n.2) (Chain.mem_of_find hn')
    · obtain ⟨n, hn, hfirst⟩ := h.first
      have hnx : n.1 ≠ ofInt64 x.1 := fun heq => by
        rw [heq, hkey] at hfirst
        omega
      exact ⟨n, Chain.mem_of_find (by rw [hfind, if_neg hnx, h.chain.find_of_mem hn]), hfirst⟩
    · exact h.taken y (mem_of_mem_filter hy)
    · obtain ⟨hy, hyx⟩ := mem_filter.mp hy
      obtain ⟨h1, h2⟩ := h.lt_length hy
      rw [hfind, if_neg (hne y.1 h1 h2 (by simpa using hyx))]
      exact h.waiting y hy
    · rw [hfind]
      split
      · next heq =>
        -- the entry that is inserted now
        have hix : (i : ℤ) = x.1 := by
          by_contra hix
          obtain ⟨hi', -⟩ := List.getElem?_eq_some_iff.mp he
          exact hne i (by omega) (by omega) hix heq
        have hex := (h.taken x hx).2
        rw [← hix, Int.toNat_natCast, he] at hex
        cases hex
        exact ⟨_, rfl, rfl⟩
      · next hkey =>
        refine h.stored i e he fun y hy hyi => ?_
        by_cases hyx : y.1 = x.1
        · exact hkey (by rw [← hyi, hyx])
        · exact hi y (mem_filter.mpr ⟨hy, by simpa using hyx⟩) hyi

lemma eq_ofInt64 {n : WORD × Cell} (hn : n ∈ cells) : n.1 = ofInt64 (toInt64 n.1) := by
  obtain ⟨h1, h2⟩ := h.chain.mem n hn
  exact toInt64_injective (ofInt64_mem_entryKeys h1 h2).1.symm

lemma content_eq {n : WORD × Cell} (hn : n ∈ cells) (h0 : 0 ≤ toInt64 n.1) :
    content n = (toInt64 n.1, enqueued[(toInt64 n.1).toNat]?.map Entry.columns) := by
  have hlt := (h.keys n hn).1
  have hfind : find cells (ofInt64 (toInt64 n.1)) = some n.2 := by
    rw [← h.eq_ofInt64 hn]
    exact h.chain.find_of_mem hn
  have he : enqueued[(toInt64 n.1).toNat]? = some enqueued[(toInt64 n.1).toNat] :=
    getElem?_eq_getElem (by omega)
  obtain ⟨cell, hcell, hcols⟩ := h.stored _ _ he fun x hx hxn => by
    have hwait := h.waiting x hx
    rw [hxn, Int.toNat_of_nonneg h0, hfind] at hwait
    cases hwait
  rw [Int.toNat_of_nonneg h0, hfind] at hcell
  cases hcell
  rw [content, hcols, he]
  rfl

end

lemma numbered_slice {a k : ℕ} (hk : a + k ≤ enqueued.length) :
    ((List.range k).map (fun i : ℕ => (a : ℤ) + i)).map
        (fun z => (z, enqueued[z.toNat]?.map Entry.columns)) =
      ((numbered enqueued).drop a).take k := by
  refine ext_getElem? fun j => ?_
  rw [List.map_map, getElem?_map, getElem?_take, getElem?_drop, numbered, getElem?_mapIdx]
  split
  · next hj =>
    have hget : enqueued[a + j]? = some enqueued[a + j] := getElem?_eq_getElem (by omega)
    rw [getElem?_range hj, hget]
    simp [show ((a : ℤ) + j).toNat = a + j by omega, hget]
  · next hj => simp [hj]

/-- A search for entries that are all there finds them. It can begin at a smaller number if there
are no entries in between. -/
theorem search (h : Stored enqueued pending cells) {a b : ℕ} (hab : a ≤ b)
    (hb : b < enqueued.length)
    (hready : ∀ x ∈ pending, (b : ℤ) < x.1) {z : ℤ} (hz : -2 ≤ z) (hza : z ≤ a)
    (hgap : ∀ n ∈ cells, z ≤ toInt64 n.1 → a ≤ toInt64 n.1) :
    ∃ start, longSearchHigher (ofInt64 z) cells = some start ∧
      (rangeLoop (ofInt64 b) (nodesFrom start cells)).noResults = b - a + 1 ∧
      (rangeLoop (ofInt64 b) (nodesFrom start cells)).nodes.map (fun n => toInt64 n.1) =
        (List.range (b - a + 1)).map (fun i : ℕ => (a : ℤ) + i) ∧
      (rangeLoop (ofInt64 b) (nodesFrom start cells)).nodes.map content =
        ((numbered enqueued).drop a).take (b - a + 1) := by
  have hlen := h.length
  obtain ⟨hz, hzS⟩ := ofInt64_mem_entryKeys (z := z) (by omega) (by omega)
  obtain ⟨hb', -⟩ := ofInt64_mem_entryKeys (z := b) (by omega) (by omega)
  obtain ⟨start, hstart, hsorted, hmem⟩ := h.chain.searchHigher close_entryKeys hzS
  simp only [hz] at hmem
  have hge : ∀ n, n ∈ cells ∧ z ≤ toInt64 n.1 → a ≤ toInt64 n.1 := fun n hn => hgap n hn.1 hn.2
  -- all numbers from the first on are there
  have hall : ∀ i : ℕ, i ≤ b - a → ∃ n ∈ nodesFrom start cells, toInt64 n.1 = (a : ℤ) + i := by
    intro i hi
    have hkey := (ofInt64_mem_entryKeys (z := ((a + i : ℕ) : ℤ)) (by omega) (by omega)).1
    obtain ⟨cell, hcell, -⟩ := h.stored (a + i) _ (getElem?_eq_getElem (by omega)) fun x hx => by
      have := hready x hx
      omega
    refine ⟨(ofInt64 ((a + i : ℕ) : ℤ), cell), (hmem _).mpr ⟨Chain.mem_of_find hcell, ?_⟩, ?_⟩
    · simp only [hkey]
      omega
    · simp only [hkey]
      omega
  obtain ⟨hno, hkeys⟩ := rangeLoop_spec (b - a) hsorted (fun n hn => hge n ((hmem n).mp hn))
    (show toInt64 (ofInt64 b) = a + (b - a : ℕ) by omega) hall
  refine ⟨start, hstart, by rw [nodesFrom, hno]; omega, hkeys, ?_⟩
  rw [← numbered_slice (by omega), ← hkeys, List.map_map]
  refine map_congr_left fun n hn => ?_
  have hn := (hmem n).mp (nodes_rangeLoop_subset _ _ hn)
  have := hge n hn
  exact h.content_eq hn.1 (by omega)

lemma not_mem_search (h : Stored enqueued pending cells) (hx : x ∈ pending) (start : Option ℕ)
    (endKey : WORD) :
    x.1 ∉ (rangeLoop endKey (nodesFrom start cells)).nodes.map (fun n => toInt64 n.1) := by
  intro hmem
  obtain ⟨n, hn, hkey⟩ := mem_map.mp hmem
  have hcells : n ∈ cells := by
    have := nodes_rangeLoop_subset _ _ hn
    cases start with
    | none => cases this
    | some p => exact mem_of_mem_drop this
  have hwait := h.waiting x hx
  rw [← hkey, ← h.eq_ofInt64 hcells, h.chain.find_of_mem (v := n.2) hcells] at hwait
  cases hwait

end Stored

/-! ## The invariant -/

/-- The head of the consumer. It is ahead of what has been received while the consumer searches. -/
def Threads.readHead (s : Threads) : Option ℤ :=
  match s.phase with
  | .absent => none
  | .planned plan => some plan.newHead
  | _ => some (lastHead s.received)

def Threads.PhaseOk (s : Threads) : Prop :=
  match s.phase with
  | .absent => s.received = []
  | .idle => True
  | .looked maxEntries noEntries =>
    1 ≤ maxEntries ∧ lastHead s.received ≤ noEntries - 1 ∧ noEntries ≤ s.enqueued.length
  | .planned plan =>
    plan.startIndex = lastHead s.received + 1 ∧ plan.startIndex ≤ plan.newHead ∧
      plan.newHead < s.enqueued.length

structure Threads.Inv (S : Set WORD) (queueId consumerId : WORD) (s : Threads) : Prop where
  delivered : s.Delivered
  view : ∃ cells, View S s.table queueId consumerId cells s.enqueued.length s.readHead ∧
    Stored s.enqueued s.pending cells
  ahead : ∀ x ∈ s.pending, lastHead s.received < x.1
  phase : s.PhaseOk

/-! ## Batches -/

section Batches
variable {head : ℤ} {received : List ReadResult} {r : ReadResult}

/-- The batch goes on from a head. -/
structure ReadResult.Follows (r : ReadResult) (head : ℤ) : Prop where
  entriesRead : r.entriesRead = r.newHead - head
  keys : r.entries.map (fun n => toInt64 n.1) =
    (List.range r.entries.length).map (fun i : ℕ => head + 1 + i)
  length : (r.entries.length : ℤ) = r.entriesRead

lemma batches_concat : Batches head (received ++ [r]) ↔
    Batches head received ∧ r.Follows ((received.getLast?.map ReadResult.newHead).getD head) := by
  induction received generalizing head with
  | nil => exact ⟨fun ⟨h1, h2, h3, _⟩ => ⟨trivial, h1, h2, h3⟩,
      fun ⟨_, h⟩ => ⟨h.1, h.2, h.3, trivial⟩⟩
  | cons r' received ih =>
    rw [cons_append, Batches, Batches, ih, and_assoc, and_assoc, and_assoc, getLast?_cons]
    cases received.getLast? <;> rfl

lemma Batches.le (h : Batches head received) :
    head ≤ (received.getLast?.map ReadResult.newHead).getD head := by
  induction received generalizing head with
  | nil => exact le_refl head
  | cons r received ih =>
    obtain ⟨h1, -, h2, h⟩ := h
    rw [getLast?_cons]
    have := ih h
    cases hlast : received.getLast? with
    | none => simp; omega
    | some r' => simp [hlast] at this ⊢; omega

@[simp] lemma lastHead_concat : lastHead (received ++ [r]) = r.newHead := by simp [lastHead]

end Batches
section Invariant
variable {S : Set WORD} {queueId consumerId : WORD} {s : Threads}

lemma Threads.Delivered.neg_one_le (h : s.Delivered) : -1 ≤ lastHead s.received := h.batches.le

lemma Threads.Delivered.receive {t : Table} {r : ReadResult} (h : s.Delivered)
    (hr : r.Follows (lastHead s.received)) (hlt : r.newHead < s.enqueued.length)
    (hentries : r.entries.map content =
      ((numbered s.enqueued).drop (lastHead s.received + 1).toNat).take r.entries.length) :
    (s.receive t (.ok r)).Delivered := by
  have hneg := h.neg_one_le
  refine ⟨batches_concat.mpr ⟨h.batches, hr⟩, ?_, by simpa [Threads.receive] using hlt⟩
  simp only [Threads.receive, flatMap_append, flatMap_singleton, lastHead_concat]
  rw [h.entries, hentries]
  have hnew : (r.newHead + 1).toNat = (lastHead s.received + 1).toNat + r.entries.length := by
    have := hr.entriesRead
    have := hr.length
    omega
  rw [hnew, take_add]

lemma Threads.Delivered.enqueue (h : s.Delivered) {s' : Threads} (hr : s'.received = s.received)
    (he : s'.enqueued = s.enqueued ++ [e]) : s'.Delivered := by
  refine ⟨hr ▸ h.batches, ?_, ?_⟩
  · have hlen := h.enqueued
    have htake : (numbered (s.enqueued ++ [e])).take (lastHead s.received + 1).toNat =
        (numbered s.enqueued).take (lastHead s.received + 1).toNat := by
      rw [numbered, mapIdx_append, take_append_of_le_length]
      · rfl
      · rw [length_mapIdx]
        omega
    rw [hr, he, htake, h.entries]
  · have := h.enqueued
    rw [hr, he, length_append, length_singleton]
    omega

/-- The entries that an event enqueues. -/
def QueueEvent.entries : QueueEvent → List Entry
  | reserve e => [e]
  | _ => []

/-- Entries have columns, and readers ask for at least one entry. -/
def QueueEvent.Admissible : QueueEvent → Prop
  | reserve e => e.columnValues ≠ []
  | lookup maxEntries => 1 ≤ maxEntries
  | _ => True

namespace Threads.Inv
variable (hS : Close S) (hq : queueId ∈ S) (hc : consumerId ∈ S) (h : s.Inv S queueId consumerId)
include hS hq h

lemma reserve (he : e.columnValues ≠ []) (hlen : s.enqueued.length + 1 ≤ 2 ^ 31 - 2) :
    ∃ s', s.step queueId consumerId (.reserve e) = some s' ∧ s'.Inv S queueId consumerId ∧
      s'.enqueued = s.enqueued ++ [e] := by
  obtain ⟨cells, hview, hstored⟩ := h.view
  obtain ⟨t', ht', hview'⟩ := hview.reserve hS hq
  have hlast := h.delivered.enqueued
  refine ⟨{ s with
    table := t'
    pending := s.pending ++ [((s.enqueued.length : ℤ), e)]
    enqueued := s.enqueued ++ [e] }, by simp [step, ht'], ?_, rfl⟩
  refine ⟨h.delivered.enqueue rfl rfl, ⟨cells, ?_, hstored.reserve he hlen⟩, fun x hx => ?_, ?_⟩
  · rw [length_append, length_singleton]
    exact_mod_cast hview'
  · rcases mem_append.mp hx with hx | hx
    · exact h.ahead x hx
    · rw [mem_singleton.mp hx]
      exact hlast
  · have hphase := h.phase
    unfold PhaseOk at hphase ⊢
    simp only [length_append, length_singleton]
    cases hp : s.phase with
    | absent => simpa only [hp] using hphase
    | idle => trivial
    | looked | planned =>
      simp only [hp] at hphase ⊢
      omega

omit hS hq in
lemma enter {entryId : ℤ} (hoverlaps : ¬ s.Overlaps (.enter entryId)) :
    ∃ s', s.step queueId consumerId (.enter entryId) = some s' ∧ s'.Inv S queueId consumerId ∧
      s'.enqueued = s.enqueued := by
  by_cases hx : s.pending.any (·.1 = entryId)
  · have hnone : s.inserting = none := by
      by_contra hsome
      obtain ⟨x, hx, heq⟩ := any_eq_true.mp hx
      exact hoverlaps ⟨hsome, .inr ⟨x, hx, by rw [of_decide_eq_true heq]⟩⟩
    refine ⟨{ s with inserting := some entryId }, ?_, ?_, rfl⟩
    · simp only [step, hx, hnone, guard, if_true]
      rfl
    · exact ⟨⟨h.delivered.batches, h.delivered.entries, h.delivered.enqueued⟩, h.view, h.ahead,
        h.phase⟩
  · exact ⟨s, by simp only [step, if_neg hx], h, rfl⟩

lemma insert (entryId : ℤ) :
    ∃ s', s.step queueId consumerId (.insert entryId) = some s' ∧ s'.Inv S queueId consumerId ∧
      s'.enqueued = s.enqueued := by
  cases hx : s.inserting.bind fun i => s.pending.find? fun x => x.1 = i ∧ i = entryId with
  | none => exact ⟨s, by simp only [step, hx], h, rfl⟩
  | some x =>
    obtain ⟨i, -, hfind⟩ := bind_eq_some_iff.mp hx
    obtain rfl : x.1 = entryId := by
      have hboth : x.1 = i ∧ i = entryId := by simpa using find?_some hfind
      exact hboth.1.trans hboth.2
    have hmem := mem_of_find?_eq_some hfind
    obtain ⟨cells, hview, hstored⟩ := h.view
    obtain ⟨hsearch, cells', hins, hstored'⟩ := hstored.insert hmem
    have hcols := hstored.columns x.2 (mem_of_getElem? (hstored.taken x hmem).2)
    obtain ⟨t', ht', hview'⟩ := hview.insert hS hq hcols hsearch hins
    refine ⟨{ s with
      table := t'
      pending := s.pending.filter (·.1 ≠ x.1)
      inserting := none }, ?_, ?_, rfl⟩
    · simp only [step, hx, ht']
      rfl
    · exact ⟨⟨h.delivered.batches, h.delivered.entries, h.delivered.enqueued⟩,
        ⟨cells', hview', hstored'⟩,
        fun y hy => h.ahead y (mem_of_mem_filter hy), h.phase⟩

include hc

lemma subscribe (shardId appId groupId : WORD) :
    ∃ s', s.step queueId consumerId (.subscribe shardId appId groupId) = some s' ∧
      s'.Inv S queueId consumerId ∧ s'.enqueued = s.enqueued := by
  cases hp : s.phase with
  | idle | looked | planned => exact ⟨s, by simp [step, hp], h, rfl⟩
  | absent =>
    obtain ⟨cells, hview, hstored⟩ := h.view
    have hphase := h.phase
    simp only [PhaseOk, hp] at hphase
    obtain ⟨t', ht', hview'⟩ := hview.subscribe hS hq hc (by rw [readHead, hp]) shardId appId
      groupId
    refine ⟨{ s with table := t', phase := .idle }, by simp [step, hp, ht'], ?_, rfl⟩
    refine ⟨⟨h.delivered.batches, h.delivered.entries, h.delivered.enqueued⟩, ⟨cells, ?_, hstored⟩,
      h.ahead, trivial⟩
    simpa [readHead, lastHead, hphase] using hview'

lemma lookup {maxEntries : ℤ} (hmax : 1 ≤ maxEntries) :
    ∃ s', s.step queueId consumerId (.lookup maxEntries) = some s' ∧ s'.Inv S queueId consumerId ∧
      s'.enqueued = s.enqueued := by
  cases hp : s.phase with
  | absent | looked | planned => exact ⟨s, by simp [step, hp], h, rfl⟩
  | idle =>
    obtain ⟨cells, hview, hstored⟩ := h.view
    have hlookup := hview.lookup hS hq hc (by simp [readHead, hp])
    have hlast := h.delivered.enqueued
    refine ⟨{ s with phase := .looked maxEntries s.enqueued.length }, by simp [step, hp,
      hlookup], ?_, rfl⟩
    refine ⟨⟨h.delivered.batches, h.delivered.entries, h.delivered.enqueued⟩,
      ⟨cells, ?_, hstored⟩, h.ahead,
      hmax, by simp only; omega, le_refl _⟩
    rwa [readHead, hp] at hview

lemma advance : ∃ s', s.step queueId consumerId .advance = some s' ∧ s'.Inv S queueId consumerId ∧
    s'.enqueued = s.enqueued := by
  cases hp : s.phase with
  | absent | idle | planned => exact ⟨s, by simp [step, hp], h, rfl⟩
  | looked maxEntries noEntries =>
    obtain ⟨cells, hview, hstored⟩ := h.view
    have hphase := h.phase
    simp only [PhaseOk, readHead, hp] at hphase hview
    obtain ⟨hmax, hhead, hno⟩ := hphase
    obtain ⟨t', version, hview', heq⟩ := hview.advance hS hq hc hmax hno hhead
    have hlast := h.delivered.enqueued
    split at heq
    · -- nothing to read
      next hcomplete =>
      refine ⟨s.receive t' (.ok ⟨true, lastHead s.received, 0, [], version⟩), by simp [step, hp,
        heq], ?_, rfl⟩
      refine ⟨h.delivered.receive ⟨by simp, by simp, by simp⟩ hlast (by simp), ⟨cells, ?_, hstored⟩,
        by simpa [receive] using h.ahead, trivial⟩
      rw [show min (lastHead s.received + maxEntries) (noEntries - 1) =
        lastHead s.received by omega] at hview'
      simpa [readHead, receive] using hview'
    · next hmore =>
      refine ⟨{ s with
        table := t'
        phase := .planned ⟨noEntries, lastHead s.received + 1,
          min (lastHead s.received + maxEntries) (noEntries - 1), version⟩ }, by simp [step, hp,
          heq], ?_, rfl⟩
      exact ⟨⟨h.delivered.batches, h.delivered.entries, h.delivered.enqueued⟩,
        ⟨cells, hview', hstored⟩, h.ahead,
        rfl, by simp only; omega, by simp only; omega⟩

omit hc in
/-- The result of a search, with the numbers as natural numbers. -/
theorem searchPlan_eq {plan : ReadPlan} (hp : s.phase = .planned plan) :
    ∃ cells, View S s.table queueId consumerId cells s.enqueued.length s.readHead ∧
      Stored s.enqueued s.pending cells ∧ ∃ a b : ℕ, a ≤ b ∧ b < s.enqueued.length ∧
        (a : ℤ) = lastHead s.received + 1 ∧ (b : ℤ) = plan.newHead ∧
        searchPlan plan queueId s.table = ((longSearchHigher (ofInt64 a) cells).map fun start =>
            rangeLoop (ofInt64 b) (nodesFrom start cells)).bind fun r =>
              if r.noResults = plan.newHead - lastHead s.received then
                some ⟨plan.newHead = plan.noEntries - 1, plan.newHead, r.noResults, r.nodes,
                  plan.prhVersion⟩
              else none := by
  obtain ⟨cells, hview, hstored⟩ := h.view
  have hphase := h.phase
  have hneg := h.delivered.neg_one_le
  simp only [PhaseOk, hp] at hphase
  obtain ⟨hstart, hle, hlt⟩ := hphase
  refine ⟨cells, hview, hstored, plan.startIndex.toNat,
    plan.newHead.toNat, by omega, by omega, by omega, by omega, ?_⟩
  rw [searchPlan, hview.searchEntries_eq hS hq, Int.toNat_of_nonneg (by omega),
    Int.toNat_of_nonneg (by omega),
    bind_eq_bind]
  congr 1
  funext r
  rw [hstart, show plan.newHead - (lastHead s.received + 1) + 1 =
    plan.newHead - lastHead s.received by omega]
  by_cases hno : r.noResults = plan.newHead - lastHead s.received <;> simp [guard, hno]

lemma search (hearly : ¬ s.Early .search) (hoverlaps : ¬ s.Overlaps .search) :
    ∃ s', s.step queueId consumerId .search = some s' ∧ s'.Inv S queueId consumerId ∧
      s'.enqueued = s.enqueued := by
  cases hp : s.phase with
  | absent | idle | looked => exact ⟨s, by simp [step, hp], h, rfl⟩
  | planned plan =>
    have hnone : s.inserting = none := by
      by_contra hsome
      exact hoverlaps ⟨hsome, .inl ⟨rfl, plan, hp⟩⟩
    obtain ⟨cells, hview, hstored, a, b, hab, hb, ha, hb', hplan⟩ := h.searchPlan_eq hS hq hp
    have hready : ∀ x ∈ s.pending, (b : ℤ) < x.1 := by
      intro x hx
      by_contra hlt
      exact hearly ⟨rfl, plan, hp, x, hx, by omega⟩
    obtain ⟨start, hstart, hno, hkeys, hcontent⟩ := hstored.search hab hb hready
      (by omega) le_rfl fun _ _ hle => hle
    have hlen := congrArg List.length hkeys
    rw [length_map, length_map, length_range] at hlen
    rw [hstart, map_some, bind_some, hno, show (b : ℤ) - a + 1 =
      plan.newHead - lastHead s.received by omega,
      if_pos rfl] at hplan
    obtain ⟨t', ht', hview'⟩ := hview.search hS hq hc (by simp [readHead, hp]) hplan
    refine ⟨s.receive t' (.ok ⟨plan.newHead = plan.noEntries - 1, plan.newHead,
      plan.newHead - lastHead s.received, (rangeLoop (ofInt64 b) (nodesFrom start cells)).nodes,
      plan.prhVersion⟩), by simp [step, hp, ht', hnone, guard], ?_, rfl⟩
    refine ⟨h.delivered.receive ⟨rfl, ?_, ?_⟩ ?_ ?_, ⟨cells, ?_, hstored⟩, fun x hx => ?_, trivial⟩
    · simp only
      rw [hkeys, hlen, ha]
    · simp only
      rw [hlen]
      omega
    · simp only
      omega
    · simp only
      rw [hcontent, hlen, ← ha, Int.toNat_natCast]
    · simpa [readHead, receive, hp] using hview'
    · have := hready x hx
      simp only [receive, lastHead_concat]
      omega

omit hS hq hc h in
/-- Threads that meet in the cells have no next state. -/
theorem not_overlaps {e : QueueEvent} {s' : Threads} (hs' : s.step queueId consumerId e = some s') :
    ¬ s.Overlaps e := by
  rintro ⟨hsome, ⟨rfl, plan, hp⟩ | ⟨x, hx, rfl⟩⟩
  · simp [step, hp, guard, hsome] at hs'
  · have hany : s.pending.any (·.1 = x.1) := any_eq_true.mpr ⟨x, hx, by simp⟩
    simp [step, hany, guard, hsome] at hs'

/-- After a search for an entry that is not there, the assertion fails or something else is
delivered. -/
theorem not_early {e : QueueEvent}
    (hG : ∃ s', s.step queueId consumerId e = some s' ∧ s'.Delivered) : ¬ s.Early e := by
  rintro ⟨rfl, plan, hp, x, hx, hle⟩
  obtain ⟨cells, hview, hstored, a, b, hab, hb, ha, hb', hplan⟩ := h.searchPlan_eq hS hq hp
  obtain ⟨s', hs', hdelivered⟩ := hG
  have hnone : s.inserting = none := by
    by_contra hsome
    exact not_overlaps hs' ⟨hsome, .inl ⟨rfl, plan, hp⟩⟩
  cases hr : searchPlan plan queueId s.table with
  | none => simp [step, hp, readSearch, hr] at hs'
  | some r =>
    obtain ⟨t', ht', -⟩ := hview.search hS hq hc (by simp [readHead, hp]) hr
    simp only [step, hp, ht', guard, hnone, if_true, Option.pure_def, bind_eq_bind, bind_some,
      Option.some.injEq] at hs'
    subst hs'
    obtain ⟨hread, hkeys, hlen⟩ := (batches_concat.mp hdelivered.batches).2
    rw [hplan, bind_eq_some_iff] at hr
    obtain ⟨range, hrange, hr⟩ := hr
    obtain ⟨start, -, rfl⟩ := map_eq_some_iff.mp hrange
    split at hr
    · cases hr
      have hahead := h.ahead x hx
      -- the number of the entry is one of those of the batch
      refine hstored.not_mem_search hx start (ofInt64 b) (hkeys ▸ mem_map.mpr ?_)
      refine ⟨(x.1 - (lastHead s.received + 1)).toNat, mem_range.mpr ?_, ?_⟩
      · change _ = plan.newHead - lastHead s.received at hread
        omega
      · change lastHead s.received + 1 + _ = _
        omega
    · cases hr

end Threads.Inv

/-- The step lemma: an event keeps the invariant if it is not a search for an entry that is not
there, and no two threads are in the cells. -/
theorem Threads.Inv.step (hS : Close S) (hq : queueId ∈ S) (hc : consumerId ∈ S)
    (h : s.Inv S queueId consumerId) {e : QueueEvent} (he : e.Admissible)
    (hlen : s.enqueued.length + e.entries.length ≤ 2 ^ 31 - 2) (hearly : ¬ s.Early e)
    (hoverlaps : ¬ s.Overlaps e) :
    ∃ s', s.step queueId consumerId e = some s' ∧ s'.Inv S queueId consumerId ∧
      s'.enqueued = s.enqueued ++ e.entries := by
  cases e with
  | reserve e => exact h.reserve hS hq he hlen
  | enter entryId => simpa [QueueEvent.entries] using h.enter hoverlaps
  | insert entryId => simpa [QueueEvent.entries] using h.insert hS hq entryId
  | subscribe shardId appId groupId =>
    simpa [QueueEvent.entries] using h.subscribe hS hq hc shardId appId groupId
  | lookup maxEntries => simpa [QueueEvent.entries] using h.lookup hS hq hc he
  | advance => simpa [QueueEvent.entries] using h.advance hS hq hc
  | search => simpa [QueueEvent.entries] using h.search hS hq hc hearly hoverlaps

end Invariant

/-! ## A new queue -/

section Start
variable {S : Set WORD} {queueId : WORD} {t t₁ : Table} {version : Option VectorClock}

lemma start_inv (hS : Close S) (hq : queueId ∈ S) (h : t.Ok S)
    (hschema : t.schema = ⟨[0], [1], []⟩)
    (hcreate : createQueue queueId version t = some (t₁, .ok ())) (consumerId : WORD) :
    (Threads.start t₁).Inv S queueId consumerId := by
  have hok1 := h.createQueue hS hq hcreate
  obtain ⟨hschema1, -, keys, row, hkeys, hcells, hno, hcons, hfind⟩ :=
    (createQueue_cases hS h hq hcreate).resolve_left (by simp)
  rw [hschema] at hkeys
  cases hkeys
  have hfind := (hfind queueId).trans (if_pos rfl)
  have hview : View S t₁ queueId consumerId [(ofInt64 (-2),
      (createEmptyRow (ofInt64 (-2))).setColumns [.word 0])] 0 none := by
    refine ⟨hok1, hschema1.trans hschema, ⟨_, hfind, hcells, hno⟩, ⟨_, [], hfind, hcons⟩, ?_⟩
    rw [consumerIn, hfind, bind_some, hcons]
    rfl
  have hkey := ofInt64_mem_entryKeys (z := -2) (by decide) (by decide)
  refine ⟨⟨trivial, rfl, by simp [Threads.start, lastHead]⟩, ⟨_, hview, ?_⟩,
    by simp [Threads.start], rfl⟩
  exact ⟨Chain.singleton hkey.2, by simp [Threads.start], by simp [Threads.start],
    by simp [Threads.start, hkey.1], by simp [hkey.1], by simp [Threads.start],
    by simp [Threads.start], by simp [Threads.start]⟩

end Start

section Runs
variable {S : Set WORD} {queueId consumerId : WORD}

/-- What holds along a run: the invariant, and bounds on the entries that are still to come. -/
def Threads.Runs (S : Set WORD) (queueId consumerId : WORD) (events : List QueueEvent)
    (s : Threads) : Prop :=
  s.Inv S queueId consumerId ∧ (∀ e ∈ events, e.Admissible) ∧
    s.enqueued.length + (events.flatMap QueueEvent.entries).length ≤ 2 ^ 31 - 2

lemma Threads.Runs.step (hS : Close S) (hq : queueId ∈ S) (hc : consumerId ∈ S) {s : Threads}
    {e : QueueEvent} {es : List QueueEvent} (h : s.Runs S queueId consumerId (e :: es))
    (hearly : ¬ s.Early e) (hoverlaps : ¬ s.Overlaps e) :
    ∃ s', s.step queueId consumerId e = some s' ∧ s'.Runs S queueId consumerId es := by
  obtain ⟨hinv, hadm, hlen⟩ := h
  rw [flatMap_cons, length_append] at hlen
  obtain ⟨s', hs', hinv', heq⟩ :=
    hinv.step hS hq hc (hadm e (by simp)) (by omega) hearly hoverlaps
  refine ⟨s', hs', hinv', fun e' he' => hadm e' (by simp [he']), ?_⟩
  rw [heq, length_append]
  omega

/-- The entries are delivered in the order of their numbers, each once and with the right heads and
counts, and no assertion fails, if and only if the consumer never searches for an entry that has its
number and is not there, and nobody searches or inserts while an entry is being inserted. The
consumer subscribes at any time. -/
theorem reading_correct {t t₁ : Table} {version : Option VectorClock} {events : List QueueEvent}
    (hS : Close S) (hq : queueId ∈ S) (hc : consumerId ∈ S) (h : t.Ok S)
    (hschema : t.schema = ⟨[0], [1], []⟩)
    (hcreate : createQueue queueId version t = some (t₁, .ok ()))
    (hevents : ∀ e ∈ events, e.Admissible)
    (hlen : (events.flatMap QueueEvent.entries).length ≤ 2 ^ 31 - 2) :
    Trace.Guarded (Threads.step queueId consumerId)
        (fun s e => ∃ s', s.step queueId consumerId e = some s' ∧ s'.Delivered) (.start t₁) events ↔
      Trace.Guarded (Threads.step queueId consumerId) (fun s e => ¬ s.Early e ∧ ¬ s.Overlaps e)
        (.start t₁) events := by
  refine Trace.guarded_congr (I := fun events s => s.Runs S queueId consumerId events)
    (fun e es s hI => ?_) (fun e es s s' hI hG hstep => ?_)
    ⟨start_inv hS hq h hschema hcreate consumerId, hevents, by simpa [Threads.start] using hlen⟩
  · constructor
    · rintro ⟨s', hs', hdelivered⟩
      exact ⟨hI.1.not_early hS hq hc ⟨s', hs', hdelivered⟩, Threads.Inv.not_overlaps hs'⟩
    · rintro ⟨hearly, hoverlaps⟩
      obtain ⟨s', hs', hI'⟩ := hI.step hS hq hc hearly hoverlaps
      exact ⟨s', hs', hI'.1.delivered⟩
  · obtain ⟨s1, hs1, hI'⟩ := hI.step hS hq hc (hI.1.not_early hS hq hc hG)
      (Threads.Inv.not_overlaps hstep)
    rw [hstep] at hs1
    cases hs1
    exact hI'

/-- Two producers take turns, the consumer 3 subscribes and reads twice. -/
def exampleEvents : List QueueEvent :=
  [.reserve ⟨[7], []⟩, .reserve ⟨[8], []⟩, .enter 1, .subscribe 0 0 0, .insert 1, .enter 0,
    .insert 0, .lookup 1, .advance, .search, .lookup 5, .advance, .reserve ⟨[9], []⟩, .search]

theorem reading_correct_exampleEvents : (Trace.Guarded (Threads.step 2 3)
        (fun s e => ∃ s', s.step 2 3 e = some s' ∧ s'.Delivered) (.start exampleQueue)
        exampleEvents ↔
      Trace.Guarded (Threads.step 2 3) (fun s e => ¬ s.Early e ∧ ¬ s.Overlaps e)
        (.start exampleQueue) exampleEvents) ∧
    (Trace.run (Threads.step 2 3) (.start exampleQueue) exampleEvents).map
        (fun s => s.received.map fun r => (r.newHead, r.entries.map content)) =
      some [(0, [(0, some [.word 7])]), (1, [(1, some [.word 8])])] := by
  refine ⟨@reading_correct smallKeys 2 3 _ _ none exampleEvents close_smallKeys (by decide)
    (by decide) ok_createTable rfl rfl ?_ (by decide), rfl⟩
  simp [exampleEvents, QueueEvent.Admissible]

/-- The number of an entry is taken before the entry is there. If the consumer searches for it in
between, the assertion fails; if the next entry is already there, this is delivered instead, and
delivered again when it is its turn. -/
theorem reading_diverges : (Trace.run (Threads.step 2 3) (.start exampleQueue)
        [.subscribe 0 0 0, .reserve ⟨[7], []⟩, .lookup 1, .advance, .search]).isNone ∧
      (Trace.run (Threads.step 2 3) (.start exampleQueue)
          [.subscribe 0 0 0, .reserve ⟨[7], []⟩, .reserve ⟨[8], []⟩, .enter 1, .insert 1, .lookup 1,
            .advance, .search, .enter 0, .insert 0, .lookup 1, .advance, .search]).map
          (fun s => s.received.map fun r => (r.newHead, r.entries.map content)) =
        some [(0, [(1, some [.word 8])]), (1, [(1, some [.word 8])])] :=
  ⟨rfl, rfl⟩

end Runs

/-! ## Replays -/

section Replay
variable {S : Set WORD} {queueId consumerId : WORD} {t : Table} {cells : List (WORD × Cell)}
  {enqueued : List Entry} {pending : List (ℤ × Entry)} {cs : ConsumerState}
  {start maxEntries offset newReplayOffset : ℤ}

/-- The result has the entries after `start` up to the head, or the first of them. -/
def ReadResult.Replays (r : ReadResult) (enqueued : List Entry) (start head maxEntries : ℤ) :
    Prop :=
  r.entries.map content = ((numbered enqueued).drop (start + 1).toNat).take
    (min maxEntries (head - max start (-1))).toNat

lemma nonneg_of_mem_numbered {x : ℤ × Option (List Column)} (hx : x ∈ numbered enqueued) :
    0 ≤ x.1 := by
  obtain ⟨i, hi, rfl⟩ := mem_mapIdx.mp hx
  exact Int.natCast_nonneg i

/-- A search from below the entries begins with the node that a new queue has. -/
theorem Stored.search_below (h : Stored enqueued pending cells)
    (hnear : enqueued.length - 2 ^ 31 ≤ start) (hstart : start ≤ -2) (endKey : WORD) :
    ∃ p, longSearchHigher (ofInt64 start) cells = some p ∧
      1 ≤ (rangeLoop endKey (nodesFrom p cells)).noResults ∧
      ∃ n ∈ (rangeLoop endKey (nodesFrom p cells)).nodes, toInt64 n.1 = -2 := by
  obtain ⟨n, l, rfl, hn, -, -⟩ :=
    exists_head h.chain.sorted (fun n hn => (h.chain.mem n hn).1) h.first
  have hcmp : longCmp n.1 (ofInt64 start) = -2 - start := by
    rw [longCmp, hn, toInt64_ofInt64 (by omega) (by omega)]
    exact Int.bmod_eq_of_le (by omega) (by omega)
  refine ⟨some 0, ?_, (rangeLoop_cons _ _ _).1, n, (rangeLoop_cons _ _ _).2, hn⟩
  rw [longSearchHigher_eq, takeWhile_cons_of_neg (by simp only [hcmp, decide_eq_true_eq]; omega)]
  rfl

/-- A search from an entry or `-1` finds a node, if there are entries after it. -/
theorem Stored.search_isSome (h : Stored enqueued pending cells) (hstart : -1 ≤ start) {head : ℤ}
    (hlt : start < head) (hhead : head < enqueued.length)
    (hpending : ∀ x ∈ pending, head < x.1) (endKey : WORD) :
    ∃ p, longSearchHigher (ofInt64 start) cells = some p ∧
      1 ≤ (rangeLoop endKey (nodesFrom p cells)).noResults := by
  have hlen := h.length
  obtain ⟨hz, hzS⟩ := ofInt64_mem_entryKeys (z := start) (by omega) (by omega)
  obtain ⟨p, hp, -, hmem⟩ := h.chain.searchHigher close_entryKeys hzS
  obtain ⟨i, rfl⟩ := Int.eq_ofNat_of_zero_le (show 0 ≤ head by omega)
  obtain ⟨cell, hcell, -⟩ := h.stored i _ (getElem?_eq_getElem (by omega)) fun x hx heq => by
    have := hpending x hx
    omega
  have hin : (ofInt64 i, cell) ∈ nodesFrom p cells := (hmem _).mpr ⟨Chain.mem_of_find hcell, by
    rw [hz, (ofInt64_mem_entryKeys (by omega) (by omega)).1]
    omega⟩
  obtain ⟨n, l, hnl⟩ := exists_cons_of_ne_nil (ne_nil_of_mem hin)
  exact ⟨p, hp, hnl ▸ (rangeLoop_cons endKey n l).1⟩

/-- The search of a replay begins with the entry at `start`, which is not counted. So the assertion
fails, or something else is replayed, unless there is no such entry or nothing to replay. -/
theorem replayQueue_correct (hS : Close S) (hq : queueId ∈ S) (hc : consumerId ∈ S)
    (h : View S t queueId consumerId cells enqueued.length (some cs.privateReadHead))
    (hstored : Stored enqueued pending cells)
    (hpending : ∀ x ∈ pending, cs.privateReadHead < x.1)
    (hcs : consumerIn t queueId consumerId = some cs)
    (hhead : cs.privateReadHead < enqueued.length)
    (hoffset : cs.privateConsumeHead + offset = start)
    (hnear : enqueued.length - 2 ^ 31 ≤ start) (hle : start ≤ cs.privateReadHead) :
    (∃ r, replayQueue consumerId queueId offset maxEntries newReplayOffset t = some (.ok r) ∧
        r.Replays enqueued start cs.privateReadHead maxEntries) ↔
      start = cs.privateReadHead ∨ (start = -1 ∧ 1 ≤ maxEntries) := by
  obtain ⟨row, hno, hread⟩ := h.readConsumer_eq hS hq hc hcs
  rw [replayQueue, hread, hno, hoffset]
  simp only [guard, hle, show cs.privateReadHead ≤ enqueued.length - 1 by omega, if_true,
    Option.pure_def, bind_eq_bind, bind_some]
  by_cases heq : start = cs.privateReadHead
  · refine iff_of_true ⟨_, if_pos heq, ?_⟩ (.inl heq)
    rw [ReadResult.Replays, heq, show (min maxEntries
      (cs.privateReadHead - max cs.privateReadHead (-1))).toNat = 0 by omega, take_zero]
    rfl
  rw [if_neg heq, h.searchEntries_eq hS hq]
  by_cases hbelow : start ≤ -2
  · -- the node that is no entry is in the result
    obtain ⟨p, hp, -, n, hn, hkey⟩ := hstored.search_below hnear hbelow
      (ofInt64 (min (start + maxEntries) cs.privateReadHead))
    rw [hp, map_some, bind_some]
    refine iff_of_false ?_ (by omega)
    rintro ⟨r, hr, hreplays⟩
    split at hr
    · cases hr
      have hin := mem_map_of_mem (f := content) hn
      rw [show map content _ = _ from hreplays] at hin
      have := nonneg_of_mem_numbered (mem_of_mem_drop (mem_of_mem_take hin))
      simp only [content, hkey] at this
      omega
    · cases hr
  by_cases hmax : 1 ≤ maxEntries
  · obtain ⟨b, hb⟩ :=
      Int.eq_ofNat_of_zero_le (show 0 ≤ min (start + maxEntries) cs.privateReadHead by omega)
    obtain ⟨r, hr, hcount, -, hnodes⟩ := hstored.search (a := start.toNat) (b := b) (by omega)
      (by omega) (fun x hx => by have := hpending x hx; omega) (z := start) (by omega) (by omega)
      fun n hn hle => by
        have := (hstored.keys n hn).2
        omega
    rw [hb, hr, map_some, bind_some]
    by_cases hneg : start = -1
    · rw [if_pos (by omega), bind_some]
      refine iff_of_true ⟨_, rfl, hnodes.trans ?_⟩ (.inr ⟨hneg, hmax⟩)
      congr 2 <;> omega
    · rw [if_neg (by omega)]
      exact iff_of_false (by rintro ⟨r, ⟨⟩, -⟩) (by omega)
  · -- more nodes are found than are asked for
    obtain ⟨p, hp, hcount⟩ := hstored.search_isSome (by omega)
      (lt_of_le_of_ne hle heq) hhead hpending
      (ofInt64 (min (start + maxEntries) cs.privateReadHead))
    rw [hp, map_some, bind_some, if_neg (by omega)]
    exact iff_of_false (by rintro ⟨r, ⟨⟩, -⟩) (by omega)

/-- The cells of a queue with two entries. -/
def exampleCells : List (WORD × Cell) :=
  [(ofInt64 (-2), (createEmptyRow (ofInt64 (-2))).setColumns [.word 0]),
    (0, (createCell 0 true).setColumns [.word 7]), (1, (createCell 1 true).setColumns [.word 8])]

/-- The consumer 3 has read both entries and consumed none. -/
def exampleConsumer : ConsumerState := { getConsumerState 3 0 0 0 with privateReadHead := 1 }

def exampleRead : Table :=
  { exampleQueue with
    rows := exampleQueue.rows.map fun n => (n.1, { n.2 with cell := { n.2.cell with
      cells := some exampleCells
      consumerState := some [(3, exampleConsumer)]
      noEntries := 2 } }) }

theorem replayQueue_correct_exampleRead :
    (∃ r, replayQueue 3 2 0 5 0 exampleRead = some (.ok r) ∧
      r.Replays [⟨[7], []⟩, ⟨[8], []⟩] (-1) 1 5) ∧
    ((replayQueue 3 2 0 5 0 exampleRead).bind fun r => r.toOption.map fun r =>
      r.entries.map content) = some [(0, some [.word 7]), (1, some [.word 8])] := by
  have hview : View smallKeys exampleRead 2 3 exampleCells 2 (some 1) := by
    refine ⟨⟨rfl, Chain.singleton (by decide), fun n hn => ?_⟩, rfl, ⟨_, rfl, rfl, rfl⟩,
      ⟨_, _, rfl, rfl⟩, rfl⟩
    obtain rfl := mem_singleton.mp hn
    refine ⟨by decide, ?_, ?_⟩
    · rintro l ⟨⟩
      exact Chain.singleton (by decide)
    · rintro l ⟨⟩ n hn
      obtain rfl := mem_singleton.mp hn
      exact ⟨by decide, by decide, by decide, rfl⟩
  have hkey := ofInt64_mem_entryKeys (z := -2) (by decide) (by decide)
  have hstored : Stored [⟨[7], []⟩, ⟨[8], []⟩] [] exampleCells := by
    have hsorted : exampleCells.Pairwise fun n m => toInt64 n.1 < toInt64 m.1 := by decide
    refine ⟨⟨hsorted, ?_⟩, by decide, by decide, by decide, by decide, by simp, by simp, ?_⟩
    · intro n hn
      simp only [exampleCells, mem_cons, not_mem_nil, or_false] at hn
      rcases hn with rfl | rfl | rfl
      · exact hkey.2
      · exact ⟨by decide, by decide⟩
      · exact ⟨by decide, by decide⟩
    · rintro (_ | _ | i) e he -
      · cases he
        exact ⟨_, rfl, rfl⟩
      · cases he
        exact ⟨_, rfl, rfl⟩
      · cases he
  exact ⟨(@replayQueue_correct smallKeys 2 3 _ _ _ _ exampleConsumer (-1) 5 0 0 close_smallKeys
    (by decide) (by decide) hview hstored (by simp) rfl (by decide) rfl (by decide)
    (by decide)).mpr (.inr ⟨rfl, by decide⟩), rfl⟩

/-- After the first entry is consumed, the assertion fails. -/
theorem replayQueue_diverges : (consumeQueue 3 2 0 exampleRead).map (fun r =>
    (r.2.toOption, (replayQueue 3 2 0 5 0 r.1).isNone)) = some (some 0, true) := rfl

end Replay
end Acton.Backend
