import Acton.Backend.Db

/-!
# Queues

A queue is a row of a table. Its entries are the cells below it, with the numbers of the entries as
keys; a cell with the key -2 is there from the start. For each consumer the row has the numbers of
the last entries that the consumer has read and consumed, the private heads.

`enqueue` and `read_queue` can run in several threads. They are given as the parts between which
other threads can run: the number of an entry is taken under a lock, and the entry is inserted after
the lock is released; a reader gets the number of entries first, moves its head under a lock, and
then searches for the entries.

Left out: consumer groups, except for their notifications.
-/

namespace Acton.Backend

inductive DbErr
  | noTable
  | noQueue
  | noConsumer
  | queueComplete
  | queueHeadInvalid
  | duplicateQueue
  | duplicateConsumer
  deriving DecidableEq, Repr

/-! ## Looking up -/

section Lookup
variable {α : Type}

/-- Use the row of a queue. -/
def withQueue (queueId : WORD) (f : Cell → Option (Cell × Except DbErr α)) (t : Table) :
    Option (Table × Except DbErr α) := do
  match ← longSearch queueId t.rows with
  | none => some (t, .error .noQueue)
  | some p =>
    let n ← t.rows[p]?
    let (cell, r) ← f n.2.cell
    some ({ t with rows := t.rows.set p (n.1, { n.2 with cell := cell }) }, r)

/-- Use the state of a consumer. Rows that are not queues have no states. -/
def withConsumer (consumerId : WORD)
    (f : ConsumerState → Option (ConsumerState × Except DbErr α)) (row : Cell) :
    Option (Cell × Except DbErr α) := do
  let consumers ← row.consumerState
  match ← longSearch consumerId consumers with
  | none => some (row, .error .noConsumer)
  | some p =>
    let n ← consumers[p]?
    let (cs, r) ← f n.2
    some ({ row with consumerState := some (consumers.set p (n.1, cs)) }, r)

/-- Read a queue and the state of a consumer. -/
def readConsumer (consumerId queueId : WORD) (f : Cell → ConsumerState → Option (Except DbErr α))
    (t : Table) : Option (Except DbErr α) := do
  match ← longSearch queueId t.rows with
  | none => some (.error .noQueue)
  | some p =>
    let row := (← t.rows[p]?).2.cell
    let consumers ← row.consumerState
    match ← longSearch consumerId consumers with
    | none => some (.error .noConsumer)
    | some q => f row (← consumers[q]?).2

end Lookup

/-! ## Creation, deletion and subscription -/

def createQueue (queueId : WORD) (version : Option VectorClock) (t : Table) :
    Option (Table × Except DbErr Unit) := do
  match ← longSearch queueId t.rows with
  | some _ => some (t, .error .duplicateQueue)
  | none =>
    -- the first entry, which no reader gets
    let t ← tableInsert ⟨[queueId, ofInt64 (-2), 0], 1, []⟩ none t
    withQueue queueId (fun row =>
      some ({ row with consumerState := some [] }.setVersion version, .ok ())) t

def getConsumerState (consumerId shardId appId groupId : WORD) : ConsumerState where
  consumerId := consumerId
  shardId := shardId
  appId := appId
  groupId := groupId
  privateReadHead := -1
  privateConsumeHead := -1
  prhVersion := none
  pchVersion := none
  notified := false

def subscribeQueue (cs : ConsumerState) (queueId : WORD) (t : Table) :
    Option (Table × Except DbErr Unit) :=
  withQueue queueId (fun row => do
    let consumers ← row.consumerState
    match ← longSearch cs.consumerId consumers with
    | some _ => some (row, .error .duplicateConsumer)
    | none =>
      let consumers ← longInsert cs.consumerId cs consumers
      some ({ row with consumerState := some consumers }, .ok ())) t

/-! ## Enqueueing -/

/-- The test for members of groups compares a word, which is a pointer, with 0. It always succeeds,
and nobody is notified. -/
def notifySubscriber (cs : ConsumerState) : ConsumerState :=
  if 0 ≤ cs.groupId then cs else { cs with notified := true }

lemma notifySubscriber_eq (cs : ConsumerState) : notifySubscriber cs = cs := if_pos (UInt64.zero_le)

/-- The columns of an entry. -/
structure Entry where
  columnValues : List WORD
  lastBlob : List UInt8
  deriving DecidableEq, Repr

def notifySubscribers (row : Cell) : Option (Cell × Except DbErr Unit) := do
  let consumers := (← row.consumerState).map fun n => (n.1, notifySubscriber n.2)
  some ({ row with consumerState := some consumers }, .ok ())

lemma notifySubscribers_eq (row : Cell) :
    notifySubscribers row = row.consumerState.map fun _ => (row, .ok ()) := by
  cases row with
  | mk key cells columnArray lastBlobSize version consumers noEntries =>
    cases consumers <;> simp [notifySubscribers, notifySubscriber_eq]

def reserveEntry (row : Cell) : Option (Cell × Except DbErr ℤ) :=
  some ({ row with noEntries := row.noEntries + 1 }, .ok row.noEntries)

/-- Take the number of the entry. -/
def enqueueReserve (queueId : WORD) (t : Table) : Option (Table × Except DbErr ℤ) :=
  withQueue queueId reserveEntry t

/-- Insert the entry and notify the consumers. -/
def enqueueInsert (e : Entry) (entryId : ℤ) (queueId : WORD) (t : Table) :
    Option (Table × Except DbErr Unit) := do
  let t ← tableInsert ⟨queueId :: ofInt64 entryId :: e.columnValues, 1, e.lastBlob⟩ none t
  withQueue queueId notifySubscribers t

def enqueue (e : Entry) (queueId : WORD) (t : Table) : Option (Table × Except DbErr Unit) := do
  match ← enqueueReserve queueId t with
  | (t, .error err) => some (t, .error err)
  | (t, .ok entryId) => enqueueInsert e entryId queueId t

/-! ## Notifications -/

/-- A consumer, local with a callback or remote with a socket, to which writing can fail. -/
structure Subscriber where
  state : ConsumerState
  callback : Bool
  sockfd : ℕ
  written : Bool

namespace Subscriber

def Connected (s : Subscriber) : Prop := s.callback ∨ s.sockfd ≠ 0

/-- The function `notify_subscriber`, and whether the notification is sent. -/
def notify (s : Subscriber) : Subscriber × Bool :=
  if 0 ≤ s.state.groupId then (s, false)
  else if s.state.notified then (s, false)
  else if s.callback ∨ s.sockfd ≠ 0 ∧ s.written then
    ({ s with state := { s.state with notified := true } }, true)
  else (s, false)

lemma notify_eq (s : Subscriber) : s.notify = (s, false) := if_pos UInt64.zero_le

/-- The notification of a consumer that has none, and its flag. -/
structure Notified (s : Subscriber) (r : Subscriber × Bool) : Prop where
  sent : s.Connected → s.state.notified = false → r.2 = true
  flag : r.1.state.notified = (s.state.notified || r.2)

end Subscriber

/-- The subscribers of the queue and then those of its groups, before and after an entry. -/
def notifyEnqueued (consumers : List Subscriber) (groups : List (List Subscriber)) :
    List (Subscriber × Subscriber × Bool) :=
  (consumers ++ groups.flatten).map fun s => (s, s.notify)

/-- The consumers are notified as they should be only if there is none to notify. -/
theorem notifyEnqueued_correct (consumers : List Subscriber) (groups : List (List Subscriber)) :
    (∀ r ∈ notifyEnqueued consumers groups, r.1.Notified r.2 ∧
      r.2.1.state = notifySubscriber r.1.state) ↔
      ∀ s ∈ consumers ++ groups.flatten, s.Connected → s.state.notified = true := by
  simp only [notifyEnqueued, List.forall_mem_map, Subscriber.notify_eq, notifySubscriber_eq,
    and_true]
  refine forall₂_congr fun s _ => ⟨fun h hs => ?_, fun h => ⟨fun hs hn => ?_, by simp⟩⟩
  · by_contra hn
    exact absurd (h.sent hs (by simpa using hn)) (by simp)
  · rw [h hs] at hn
    cases hn

/-- A local consumer without a group. -/
theorem notifyEnqueued_diverges :
    (notifyEnqueued [⟨getConsumerState 3 0 0 (ofInt64 (-1)), true, 0, true⟩] []).map
      (fun r => (r.1.callback, r.2.1.state.notified, r.2.2)) = [(true, false, false)] := rfl

/-! ## Reading -/

/-- What a reader gets: whether it has read everything, the head, the number of entries, and the
entries from `start_row` to `end_row`. -/
structure ReadResult where
  complete : Bool
  newHead : ℤ
  entriesRead : ℤ
  entries : List (WORD × Cell)
  prhVersion : Option VectorClock

def Range.nodes {V : Type} (r : Range V) : List (WORD × V) := r.before ++ r.endRow.toList

/-- What a reader does after it has its new head. -/
structure ReadPlan where
  noEntries : ℤ
  startIndex : ℤ
  newHead : ℤ
  prhVersion : Option VectorClock
  deriving DecidableEq, Repr

def readLookup (consumerId queueId : WORD) (t : Table) : Option (Except DbErr ℤ) :=
  readConsumer consumerId queueId (fun row _ => some (.ok row.noEntries)) t

/-- Move the head. There is no plan if there is nothing to read. -/
def advanceHead (maxEntries noEntries : ℤ) (cs : ConsumerState) :
    Option (ConsumerState × Except DbErr (ReadPlan ⊕ ReadResult)) := do
  guard (cs.privateReadHead ≤ noEntries - 1)
  if cs.privateReadHead = noEntries - 1 then
    some (cs, .ok (.inr ⟨true, cs.privateReadHead, 0, [], cs.prhVersion⟩))
  else
    let newHead := min (cs.privateReadHead + maxEntries) (noEntries - 1)
    some ({ cs with privateReadHead := newHead },
      .ok (.inl ⟨noEntries, cs.privateReadHead + 1, newHead, cs.prhVersion⟩))

def readAdvance (consumerId queueId : WORD) (maxEntries noEntries : ℤ) (t : Table) :
    Option (Table × Except DbErr (ReadPlan ⊕ ReadResult)) :=
  withQueue queueId (withConsumer consumerId (advanceHead maxEntries noEntries)) t

/-- The entries from a number on, up to another. -/
def searchEntries (queueId : WORD) (startIndex endIndex : ℤ) (t : Table) : Option (Range Cell) :=
  tableRangeSearchClustering queueId [ofInt64 startIndex] [ofInt64 endIndex] t

/-- Search for the entries of the plan; as many must be found as there are numbers. -/
def searchPlan (plan : ReadPlan) (queueId : WORD) (t : Table) : Option ReadResult := do
  let r ← searchEntries queueId plan.startIndex plan.newHead t
  guard (r.noResults = plan.newHead - plan.startIndex + 1)
  some ⟨plan.newHead = plan.noEntries - 1, plan.newHead, r.noResults, r.nodes, plan.prhVersion⟩

def readSearch (consumerId queueId : WORD) (plan : ReadPlan) (t : Table) :
    Option (Table × Except DbErr ReadResult) := do
  let r ← searchPlan plan queueId t
  if r.complete then
    withQueue queueId
      (withConsumer consumerId fun cs => some ({ cs with notified := false }, .ok r)) t
  else some (t, .ok r)

def readQueue (consumerId queueId : WORD) (maxEntries : ℤ) (t : Table) :
    Option (Table × Except DbErr ReadResult) := do
  match ← readLookup consumerId queueId t with
  | .error err => some (t, .error err)
  | .ok noEntries =>
    match ← readAdvance consumerId queueId maxEntries noEntries t with
    | (t, .error err) => some (t, .error err)
    | (t, .ok (.inr r)) => some (t, .ok r)
    | (t, .ok (.inl plan)) => readSearch consumerId queueId plan t

/-- Read from an offset, or from the head if it is negative, and leave the head where it is. -/
def peekQueue (consumerId queueId : WORD) (maxEntries offset : ℤ) (t : Table) :
    Option (Except DbErr ReadResult) :=
  readConsumer consumerId queueId (fun row cs => do
    let startOffset := if 0 ≤ offset then offset else cs.privateReadHead
    guard (startOffset ≤ row.noEntries - 1)
    if startOffset = row.noEntries - 1 then some (.ok ⟨true, startOffset, 0, [], cs.prhVersion⟩)
    else
      let newHead := min (startOffset + maxEntries) (row.noEntries - 1)
      let r ← searchPlan ⟨row.noEntries, startOffset + 1, newHead, cs.prhVersion⟩ queueId t
      some (.ok r)) t

/-- Read again what has been read and not consumed. The variable of the caller for the new offset
keeps its value if there is nothing to replay. -/
def replayQueue (consumerId queueId : WORD) (replayOffset maxEntries newReplayOffset : ℤ)
    (t : Table) : Option (Except DbErr ReadResult) :=
  readConsumer consumerId queueId (fun row cs => do
    let startIndex := cs.privateConsumeHead + replayOffset
    guard (cs.privateReadHead ≤ row.noEntries - 1)
    guard (startIndex ≤ cs.privateReadHead)
    if startIndex = cs.privateReadHead then some (.ok ⟨true, newReplayOffset, 0, [], none⟩)
    else
      let newOffset := min (startIndex + maxEntries) cs.privateReadHead
      let r ← searchEntries queueId startIndex newOffset t
      -- one less than `readQueue` expects for the same entries
      guard (r.noResults = newOffset - startIndex)
      some (.ok ⟨newOffset = cs.privateReadHead, newOffset, r.noResults, r.nodes, none⟩)) t

/-! ## Heads -/

def consumeHead (newHead : ℤ) (cs : ConsumerState) : Option (ConsumerState × Except DbErr ℤ) := do
  let cs := { cs with notified := false }
  guard (cs.privateConsumeHead ≤ cs.privateReadHead)
  if cs.privateReadHead < newHead then some (cs, .error .queueHeadInvalid)
  else if newHead = cs.privateConsumeHead then some (cs, .error .queueComplete)
  else some ({ cs with privateConsumeHead := newHead }, .ok newHead)

def consumeQueue (consumerId queueId : WORD) (newHead : ℤ) (t : Table) :
    Option (Table × Except DbErr ℤ) :=
  withQueue queueId (withConsumer consumerId (consumeHead newHead)) t

def setReadHead (noEntries newHead : ℤ) (version : Option VectorClock) (cs : ConsumerState) :
    Option (ConsumerState × Except DbErr Unit) := do
  guard (newHead ≤ noEntries - 1)
  let v ← version
  guard (cs.privateReadHead ≤ newHead ∧ cs.privateConsumeHead ≤ newHead)
  let prhVersion := updateOrReplaceVc cs.prhVersion v
  some ({ cs with privateReadHead := newHead, prhVersion := some prhVersion }, .ok ())

def setPrivateReadHead (consumerId queueId : WORD) (newHead : ℤ) (version : Option VectorClock)
    (t : Table) : Option (Table × Except DbErr Unit) :=
  withQueue queueId
    (fun row => withConsumer consumerId (setReadHead row.noEntries newHead version) row) t

def setConsumeHead (noEntries newHead : ℤ) (version : Option VectorClock) (cs : ConsumerState) :
    Option (ConsumerState × Except DbErr Unit) := do
  guard (newHead ≤ noEntries - 1)
  let v ← version
  guard (newHead ≤ cs.privateReadHead ∧ cs.privateConsumeHead ≤ newHead)
  if cs.privateConsumeHead ≤ newHead then
    let pchVersion := updateOrReplaceVc cs.pchVersion v
    some ({ cs with privateConsumeHead := newHead, pchVersion := some pchVersion }, .ok ())
  else some (cs, .ok ())

def setPrivateConsumeHead (consumerId queueId : WORD) (newHead : ℤ) (version : Option VectorClock)
    (t : Table) : Option (Table × Except DbErr Unit) :=
  withQueue queueId
    (fun row => withConsumer consumerId (setConsumeHead row.noEntries newHead version) row) t

/-! ## Tables of a database -/

abbrev Tables := List (WORD × Table)

/-- Use a table. -/
def withTable {α : Type} (tableKey : WORD) (f : Table → Option (Table × Except DbErr α))
    (ts : Tables) :
    Option (Tables × Except DbErr α) := do
  match ← longSearch tableKey ts with
  | none => some (ts, .error .noTable)
  | some p =>
    let n ← ts[p]?
    let (t, r) ← f n.2
    some (ts.set p (n.1, t), r)

end Acton.Backend
