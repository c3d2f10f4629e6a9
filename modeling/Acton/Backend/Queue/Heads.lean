import Acton.Backend.Queue
import Acton.ToMathlib.Trace

/-!
# The heads of consumers

The heads of a consumer stay in order: the consume head is at least -1 and not beyond the read head,
which is not beyond the last entry. `heads_correct`: if the ids are close to each other, a sequence
of calls keeps this, moves no consume head backwards and changes nothing where a call is rejected,
if and only if no call of `consumeQueue` has a number below the consume head. Such calls are not
rejected: `heads_diverge` has one that sets the consume head to -5.

What a call does is shown from the inside out: for the state of the consumer, for the row of the
queue, for the table and for the tables of the database (`Keeps`).
-/

namespace Acton.Backend
open Option List

/-! ## Calls -/

inductive QueueOp
  | subscribe (shardId appId groupId : WORD)
  | enqueue (e : Entry)
  | readQueue (maxEntries : ℤ)
  | peekQueue (maxEntries offset : ℤ)
  | replayQueue (replayOffset maxEntries newReplayOffset : ℤ)
  | consumeQueue (newHead : ℤ)
  | setPrivateReadHead (newHead : ℤ) (version : Option VectorClock)
  | setPrivateConsumeHead (newHead : ℤ) (version : Option VectorClock)

/-- A call: the table, the queue and the consumer, and the other arguments. -/
structure QueueCall where
  tableKey : WORD
  queueId : WORD
  consumerId : WORD
  op : QueueOp

/-- Only whether a call was rejected is kept of its result. -/
def forget {α : Type} (r : Table × Except DbErr α) : Table × Except DbErr Unit :=
  (r.1, r.2.map fun _ => ())

def QueueOp.run (queueId consumerId : WORD) (t : Table) : QueueOp →
    Option (Table × Except DbErr Unit)
  | subscribe shardId appId groupId =>
    subscribeQueue (getConsumerState consumerId shardId appId groupId) queueId t
  | enqueue e => Backend.enqueue e queueId t
  | readQueue maxEntries => (Backend.readQueue consumerId queueId maxEntries t).map forget
  | peekQueue maxEntries offset =>
    (Backend.peekQueue consumerId queueId maxEntries offset t).map fun r => forget (t, r)
  | replayQueue replayOffset maxEntries newReplayOffset =>
    (Backend.replayQueue consumerId queueId replayOffset maxEntries newReplayOffset t).map fun r =>
      forget (t, r)
  | consumeQueue newHead => (Backend.consumeQueue consumerId queueId newHead t).map forget
  | setPrivateReadHead newHead version => Backend.setPrivateReadHead consumerId queueId newHead
      version t
  | setPrivateConsumeHead newHead version =>
    Backend.setPrivateConsumeHead consumerId queueId newHead version t

def QueueCall.run (ts : Tables) (c : QueueCall) : Option (Tables × Except DbErr Unit) :=
  withTable c.tableKey (c.op.run c.queueId c.consumerId) ts

/-- The tables after a call. -/
def QueueCall.step (ts : Tables) (c : QueueCall) : Option Tables := (c.run ts).map Prod.fst

/-! ## The order of the heads -/

structure ConsumerState.Ok (noEntries : ℤ) (cs : ConsumerState) : Prop where
  neg_one_le : -1 ≤ cs.privateConsumeHead
  consume_le_read : cs.privateConsumeHead ≤ cs.privateReadHead
  read_le : cs.privateReadHead ≤ noEntries - 1
  not_notified : cs.notified = false

structure Cell.Ok (S : Set WORD) (row : Cell) : Prop where
  noEntries_nonneg : 0 ≤ row.noEntries
  chain : ∀ l, row.consumerState = some l → Chain S l
  ok : ∀ l, row.consumerState = some l → ∀ n ∈ l, n.2.Ok row.noEntries

structure Table.Ok (S : Set WORD) (t : Table) : Prop where
  primary : t.schema.primaryKeyIdxs = [0]
  chain : Chain S t.rows
  ok : ∀ n ∈ t.rows, n.2.cell.Ok S

/-- In all tables the keys are in `S`, and the heads of all consumers are in order. -/
structure Tables.Ok (S : Set WORD) (ts : Tables) : Prop where
  chain : Chain S ts
  ok : ∀ n ∈ ts, n.2.Ok S

/-! ## No consume head moves backwards -/

/-- What is in the first chain is in the second, with a related value. -/
def FindRel {V : Type} (R : V → V → Prop) (l l' : List (WORD × V)) : Prop :=
  ∀ k v, find l k = some v → ∃ v', find l' k = some v' ∧ R v v'

def ConsumerState.Forward (cs cs' : ConsumerState) : Prop :=
  cs.privateConsumeHead ≤ cs'.privateConsumeHead

def Cell.Forward (row row' : Cell) : Prop := ∀ l, row.consumerState = some l →
    ∃ l', row'.consumerState = some l' ∧ FindRel ConsumerState.Forward l l'

def Table.Forward (t t' : Table) : Prop :=
  FindRel (fun r r' : Row => r.cell.Forward r'.cell) t.rows t'.rows

def Tables.Forward (ts ts' : Tables) : Prop := FindRel Table.Forward ts ts'

/-- The state of a consumer of a queue. -/
def consumerIn (t : Table) (queueId consumerId : WORD) : Option ConsumerState :=
  (find t.rows queueId).bind fun row => row.cell.consumerState.bind fun l => find l consumerId

def consumerAt (ts : Tables) (tableKey queueId consumerId : WORD) : Option ConsumerState :=
  (find ts tableKey).bind fun t => consumerIn t queueId consumerId

/-- A call of `consumeQueue` with a number below the consume head. -/
def QueueCall.Backward (ts : Tables) (c : QueueCall) : Prop :=
  ∃ newHead cs, c.op = .consumeQueue newHead ∧
    consumerAt ts c.tableKey c.queueId c.consumerId = some cs ∧ newHead < cs.privateConsumeHead

section Find
variable {V : Type} {R : V → V → Prop} {S : Set WORD} {l : List (WORD × V)} {k : WORD} {v v' : V}
    {p : ℕ}

lemma FindRel.refl (hR : ∀ v, R v v) (l : List (WORD × V)) : FindRel R l l := fun _ v h =>
    ⟨v, h, hR v⟩

lemma FindRel.trans {l' l'' : List (WORD × V)} (hR : ∀ {a b c}, R a b → R b c → R a c)
    (h : FindRel R l l') (h' : FindRel R l' l'') : FindRel R l l'' := by
  intro k v hv
  obtain ⟨v', hv', hr⟩ := h k v hv
  obtain ⟨v'', hv'', hr'⟩ := h' k v' hv'
  exact ⟨v'', hv'', hR hr hr'⟩

lemma FindRel.set (hR : ∀ v, R v v) (h : Chain S l) (hp : l[p]? = some (k, v)) (hv : R v v') :
    FindRel R l (l.set p (k, v')) := by
  intro k1 v1 hv1
  rw [(h.set hp v').2]
  split
  · next heq =>
    subst heq
    have := h.find_of_mem (mem_of_getElem? hp)
    rw [hv1, Option.some.injEq] at this
    exact ⟨v', rfl, this ▸ hv⟩
  · exact ⟨v1, hv1, hR v1⟩

lemma Chain.forall_set {P : V → Prop} (hl : ∀ n ∈ l, P n.2) (hv' : P v') (k : WORD) (p : ℕ) :
    ∀ n ∈ l.set p (k, v'), P n.2 := by
  intro n hn
  rcases mem_or_eq_of_mem_set hn with hn | rfl
  · exact hl n hn
  · exact hv'

end Find

lemma Cell.Forward.refl (row : Cell) : row.Forward row := fun l hl =>
  ⟨l, hl, FindRel.refl (fun cs => le_refl cs.privateConsumeHead) l⟩

lemma Cell.Forward.trans {a b c : Cell} (h : a.Forward b) (h' : b.Forward c) : a.Forward c := by
  intro l hl
  obtain ⟨l', hl', hrel⟩ := h l hl
  obtain ⟨l'', hl'', hrel'⟩ := h' l' hl'
  refine ⟨l'', hl'', FindRel.trans (fun {a b c} hab hbc => ?_) hrel hrel'⟩
  exact Int.le_trans hab hbc

lemma Table.Forward.refl (t : Table) : t.Forward t :=
    FindRel.refl (fun r => Cell.Forward.refl r.cell) t.rows

lemma Table.Forward.trans {a b c : Table} (h : a.Forward b) (h' : b.Forward c) : a.Forward c :=
  FindRel.trans (fun hab hbc => Cell.Forward.trans hab hbc) h h'

/-! ## Calls that keep the order -/

/-- The call keeps the state in order, moves nothing backwards, and changes nothing if it is
rejected. -/
def Keeps {σ α : Type} (Ok : σ → Prop) (Forward : σ → σ → Prop) (f : σ →
    Option (σ × Except DbErr α))
    (s : σ) : Prop :=
  ∀ s' r, f s = some (s', r) → Ok s' ∧ Forward s s' ∧ ∀ e, r = .error e → s' = s

variable {t : Table}
section Keeps
variable {S : Set WORD} (hS : Close S) {α : Type} {k : WORD} (hk : k ∈ S)
include hS hk

lemma withTable_of_find {ts : Tables} (h : Chain S ts) {t : Table} (hfind : find ts k = some t)
    (f : Table → Option (Table × Except DbErr α)) :
    ∃ p, ts[p]? = some (k, t) ∧ withTable k f ts = (f t).map fun r => (ts.set p (k, r.1), r.2) := by
  obtain ⟨p, hsearch, hp⟩ := h.search_of_find hS hk hfind
  refine ⟨p, hp, ?_⟩
  cases hf : f t <;> simp [withTable, hsearch, hp, hf]

lemma withTable_cases {ts : Tables} (h : Chain S ts) (f : Table → Option (Table × Except DbErr α)) :
    (find ts k = none ∧ withTable k f ts = some (ts, .error .noTable)) ∨
      ∃ p t, find ts k = some t ∧ ts[p]? = some (k, t) ∧
        withTable k f ts = (f t).map fun r => (ts.set p (k, r.1), r.2) := by
  rcases h.search_cases hS hk with ⟨hfind, hsearch⟩ | ⟨-, t, hfind, -⟩
  · exact .inl ⟨hfind, by simp [withTable, hsearch]⟩
  · obtain ⟨p, hp⟩ := withTable_of_find hS hk h hfind f
    exact .inr ⟨p, t, hfind, hp⟩

lemma withQueue_of_find (h : Chain S t.rows) {row : Row} (hfind : find t.rows k = some row)
    (f : Cell → Option (Cell × Except DbErr α)) :
    ∃ p, t.rows[p]? = some (k, row) ∧ withQueue k f t = (f row.cell).map fun r =>
      ({ t with rows := t.rows.set p (k, { row with cell := r.1 }) }, r.2) := by
  obtain ⟨p, hsearch, hp⟩ := h.search_of_find hS hk hfind
  refine ⟨p, hp, ?_⟩
  cases hf : f row.cell <;> simp [withQueue, hsearch, hp, hf]

lemma withQueue_cases (h : Chain S t.rows) (f : Cell → Option (Cell × Except DbErr α)) :
    (find t.rows k = none ∧ withQueue k f t = some (t, .error .noQueue)) ∨
      ∃ p row, find t.rows k = some row ∧ t.rows[p]? = some (k, row) ∧
        withQueue k f t = (f row.cell).map fun r =>
          ({ t with rows := t.rows.set p (k, { row with cell := r.1 }) }, r.2) := by
  rcases h.search_cases hS hk with ⟨hfind, hsearch⟩ | ⟨-, row, hfind, -⟩
  · exact .inl ⟨hfind, by simp [withQueue, hsearch]⟩
  · obtain ⟨p, hp⟩ := withQueue_of_find hS hk h hfind f
    exact .inr ⟨p, row, hfind, hp⟩

lemma withConsumer_cases {row : Cell} {l : List (WORD × ConsumerState)}
    (hl : row.consumerState = some l)
    (h : Chain S l) (f : ConsumerState → Option (ConsumerState × Except DbErr α)) :
    (find l k = none ∧ withConsumer k f row = some (row, .error .noConsumer)) ∨
      ∃ p cs, find l k = some cs ∧ l[p]? = some (k, cs) ∧ withConsumer k f row = (f cs).map fun r =>
          ({ row with consumerState := some (l.set p (k, r.1)) }, r.2) := by
  rcases h.search_cases hS hk with ⟨hfind, hsearch⟩ | ⟨p, cs, hfind, hsearch, hp⟩
  · exact .inl ⟨hfind, by simp [withConsumer, hl, hsearch]⟩
  · refine .inr ⟨p, cs, hfind, hp, ?_⟩
    cases hf : f cs <;> simp [withConsumer, hl, hsearch, hp, hf]

lemma Keeps.withConsumer {row : Cell} (h : row.Ok S) {f : ConsumerState →
    Option (ConsumerState × Except DbErr α)}
    (hf : ∀ cs, (row.consumerState.bind fun l => find l k) = some cs → cs.Ok row.noEntries →
      Keeps (ConsumerState.Ok row.noEntries) ConsumerState.Forward f cs) :
    Keeps (Cell.Ok S) Cell.Forward (withConsumer k f) row := by
  intro row' r hr
  cases hl : row.consumerState with
  | none => simp [Backend.withConsumer, hl] at hr
  | some l =>
    have hchain := h.chain l hl
    rcases withConsumer_cases hS hk hl hchain f with ⟨-, heq⟩ | ⟨p, cs, hfind, hp, heq⟩
    · rw [heq] at hr
      cases hr
      exact ⟨h, Cell.Forward.refl row, fun _ _ => rfl⟩
    · rw [heq] at hr
      obtain ⟨⟨cs', r'⟩, hcs', hr⟩ := map_eq_some_iff.mp hr
      cases hr
      have hok := h.ok l hl
      obtain ⟨hok', hfwd, herr⟩ :=
        hf cs (by simp [hl, hfind]) (hok _ (mem_of_getElem? hp)) cs' r' hcs'
      refine ⟨⟨h.noEntries_nonneg, fun l' hl' => ?_, fun l' hl' => ?_⟩, fun l1 hl1 => ?_,
        fun e he => ?_⟩
      · cases hl'
        exact (hchain.set hp cs').1
      · cases hl'
        exact Chain.forall_set hok hok' k p
      · rw [hl] at hl1
        cases hl1
        exact ⟨_, rfl, FindRel.set (fun cs => le_refl cs.privateConsumeHead) hchain hp hfwd⟩
      · rw [herr e he, Chain.set_self hp, ← hl]
        cases row
        rfl

lemma Keeps.withQueue (h : t.Ok S) {f : Cell → Option (Cell × Except DbErr α)}
    (hf : ∀ row, find t.rows k = some row → row.cell.Ok S →
      Keeps (Cell.Ok S) Cell.Forward f row.cell) :
    Keeps (Table.Ok S) Table.Forward (withQueue k f) t := by
  intro t' r hr
  rcases withQueue_cases hS hk h.chain f with ⟨-, heq⟩ | ⟨p, row, hfind, hp, heq⟩
  · rw [heq] at hr
    cases hr
    exact ⟨h, Table.Forward.refl t, fun _ _ => rfl⟩
  · rw [heq] at hr
    obtain ⟨⟨cell, r'⟩, hcell, hr⟩ := map_eq_some_iff.mp hr
    cases hr
    obtain ⟨hok, hfwd, herr⟩ := hf row hfind (h.ok _ (mem_of_getElem? hp)) cell r' hcell
    refine ⟨⟨h.primary, (h.chain.set hp _).1, ?_⟩, ?_, fun e he => ?_⟩
    · exact Chain.forall_set (P := fun r : Row => r.cell.Ok S) h.ok hok k p
    · exact FindRel.set (fun r => Cell.Forward.refl r.cell) h.chain hp hfwd
    · rw [herr e he, Chain.set_self hp]

lemma Keeps.withTable {ts : Tables} (h : Tables.Ok S ts) {f : Table →
    Option (Table × Except DbErr α)}
    (hf : ∀ t, find ts k = some t → t.Ok S → Keeps (Table.Ok S) Table.Forward f t) :
    Keeps (Tables.Ok S) Tables.Forward (withTable k f) ts := by
  intro ts' r hr
  rcases withTable_cases hS hk h.chain f with ⟨-, heq⟩ | ⟨p, t, hfind, hp, heq⟩
  · rw [heq] at hr
    cases hr
    exact ⟨h, FindRel.refl Table.Forward.refl ts, fun _ _ => rfl⟩
  · rw [heq] at hr
    obtain ⟨⟨t', r'⟩, ht', hr⟩ := map_eq_some_iff.mp hr
    cases hr
    obtain ⟨hok, hfwd, herr⟩ := hf t hfind (h.ok _ (mem_of_getElem? hp)) t' r' ht'
    refine ⟨⟨(h.chain.set hp _).1, Chain.forall_set h.ok hok k p⟩,
      FindRel.set Table.Forward.refl h.chain hp hfwd, fun e he => ?_⟩
    rw [herr e he, Chain.set_self hp]

end Keeps

/-! ## The heads of one consumer -/

variable {α : Type}
section Consumer
variable {noEntries newHead maxEntries : ℤ} {version : Option VectorClock} {cs : ConsumerState}
section
variable (h : cs.Ok noEntries)
include h

lemma Keeps.consumeHead (hhead : cs.privateConsumeHead ≤ newHead) :
    Keeps (ConsumerState.Ok noEntries) ConsumerState.Forward (consumeHead newHead) cs := by
  intro cs' r hr
  -- clearing the flag changes nothing
  have hcs : { cs with notified := false } = cs := by rw [← h.not_notified]
  simp only [Backend.consumeHead, hcs, bind_eq_bind, bind_eq_some_iff, guard_eq_some'] at hr
  obtain ⟨-, hle, hr⟩ := hr
  split at hr
  · cases hr
    exact ⟨h, le_refl _, fun _ _ => rfl⟩
  · split at hr
    · cases hr
      exact ⟨h, le_refl _, fun _ _ => rfl⟩
    · cases hr
      have hneg := h.neg_one_le
      exact ⟨⟨by simp only; omega, by simp only; omega, h.read_le, rfl⟩, hhead,
        fun _ he => by cases he⟩

lemma Keeps.setReadHead :
    Keeps (ConsumerState.Ok noEntries) ConsumerState.Forward
      (setReadHead noEntries newHead version) cs := by
  intro cs' r hr
  simp only [Backend.setReadHead, bind_eq_bind, bind_eq_some_iff, guard_eq_some'] at hr
  obtain ⟨-, hlt, v, -, -, hle, hr⟩ := hr
  cases hr
  exact ⟨⟨h.neg_one_le, hle.2, hlt, h.not_notified⟩, le_refl _, fun _ he => by cases he⟩

lemma Keeps.setConsumeHead :
    Keeps (ConsumerState.Ok noEntries) ConsumerState.Forward
    (setConsumeHead noEntries newHead version) cs := by
  intro cs' r hr
  simp only [Backend.setConsumeHead, bind_eq_bind, bind_eq_some_iff, guard_eq_some'] at hr
  obtain ⟨-, hlt, v, -, -, hle, hr⟩ := hr
  rw [if_pos hle.2] at hr
  cases hr
  exact ⟨⟨h.neg_one_le.trans hle.2, hle.1, h.read_le, h.not_notified⟩, hle.2,
    fun _ he => by cases he⟩

/-- The head moves forward if no negative number of entries is asked for. The reader may have an old
number of entries. -/
theorem Keeps.advanceHead {n : ℤ} (hmax : 0 ≤ maxEntries) (hn : n ≤ noEntries) :
    Keeps (ConsumerState.Ok noEntries) ConsumerState.Forward (advanceHead maxEntries n) cs := by
  intro cs' r hr
  simp only [Backend.advanceHead, bind_eq_bind, bind_eq_some_iff, guard_eq_some'] at hr
  obtain ⟨-, hle, hr⟩ := hr
  split at hr
  · cases hr
    exact ⟨h, le_refl _, fun _ he => by cases he⟩
  · cases hr
    have hcons := h.consume_le_read
    exact ⟨⟨h.neg_one_le, by simp only; omega, by simp only; omega, h.not_notified⟩, le_refl _,
      fun _ he => by cases he⟩

lemma Keeps.clearNotified (a : α) : Keeps (ConsumerState.Ok noEntries) ConsumerState.Forward
      (fun cs => some ({ cs with notified := false }, Except.ok a)) cs := by
  intro cs' r hr
  cases hr
  exact ⟨⟨h.neg_one_le, h.consume_le_read, h.read_le, rfl⟩, le_refl _, fun _ he => by cases he⟩

end

/-- The head stays if everything is read; otherwise the reader has a plan. -/
theorem advanceHead_cases {cs' : ConsumerState} {r : Except DbErr (ReadPlan ⊕ ReadResult)}
    (h : advanceHead maxEntries noEntries cs = some (cs', r)) :
    (cs' = cs ∧ ∃ res, r = .ok (.inr res)) ∨ cs.privateReadHead < noEntries - 1 ∧ r = .ok (.inl
      ⟨noEntries, cs.privateReadHead + 1, min (cs.privateReadHead + maxEntries) (noEntries - 1),
        cs.prhVersion⟩) := by
  simp only [advanceHead, bind_eq_bind, bind_eq_some_iff, guard_eq_some'] at h
  obtain ⟨-, hle, h⟩ := h
  split at h
  · cases h
    exact .inl ⟨rfl, _, rfl⟩
  · cases h
    exact .inr ⟨by omega, rfl⟩

end Consumer

/-! ## Searches -/

lemma noResults_rangeLoop_nonneg {V : Type} (endKey : WORD) (l : List (WORD × V)) :
    0 ≤ (rangeLoop endKey l).noResults := by
  fun_induction rangeLoop endKey l with
  | case1 => simp
  | case2 => simp
  | case3 n n' l hlt r ih => exact Int.le_add_one ih
  | case4 => simp

lemma noResults_searchEntries_nonneg {queueId : WORD} {a b : ℤ} {r : Range Cell}
    (h : searchEntries queueId a b t = some r) : 0 ≤ r.noResults := by
  simp only [searchEntries, tableRangeSearchClustering, bind_eq_bind, bind_eq_some_iff] at h
  obtain ⟨-, -, row, -, h⟩ := h
  cases row with
  | none =>
    cases h
    exact le_refl _
  | some row =>
    simp only [rangeCell, bind_some, bind_eq_some_iff] at h
    obtain ⟨cells, -, start, -, h⟩ := h
    cases h
    exact noResults_rangeLoop_nonneg _ _

/-- The plans that are carried out do not move a head backwards. -/
theorem le_of_searchPlan {plan : ReadPlan} {queueId : WORD} {r : ReadResult}
    (h : searchPlan plan queueId t = some r) : plan.startIndex - 1 ≤ plan.newHead := by
  simp only [searchPlan, bind_eq_bind, bind_eq_some_iff, guard_eq_some'] at h
  obtain ⟨range, hrange, -, hno, -⟩ := h
  have := noResults_searchEntries_nonneg hrange
  omega

/-! ## Calls on a table -/

variable {version : Option VectorClock}

/-- Insertions of entries leave the states of the consumers and the number of entries alone. -/
theorem insertCells_fields {columns : List Column} {keys : List WORD} {c c' : Cell}
    (h : insertCells columns version keys c = some c') :
    c'.consumerState = c.consumerState ∧ c'.noEntries = c.noEntries := by
  cases keys with
  | nil =>
    simp only [insertCells] at h
    split at h
    · cases h
    · cases h
      cases version <;> exact ⟨rfl, rfl⟩
  | cons k ks =>
    simp only [insertCells, bind_eq_bind, bind_eq_some_iff] at h
    obtain ⟨cells, -, q, -, h⟩ := h
    cases q with
    | none =>
      simp only [bind_eq_some_iff] at h
      obtain ⟨new, -, l, -, h⟩ := h
      cases h
      exact ⟨rfl, rfl⟩
    | some p =>
      simp only [bind_eq_some_iff] at h
      obtain ⟨n, -, c1, -, h⟩ := h
      cases h
      exact ⟨rfl, rfl⟩

lemma Cell.Ok.congr {S : Set WORD} {c c' : Cell} (h : c.Ok S)
    (hfields : c'.consumerState = c.consumerState ∧ c'.noEntries = c.noEntries) : c'.Ok S := by
  obtain ⟨hcons, hno⟩ := hfields
  exact ⟨hno ▸ h.noEntries_nonneg, fun l hl => h.chain l (hcons ▸ hl),
    fun l hl n hn => hno ▸ h.ok l (hcons ▸ hl) n hn⟩

lemma Cell.Forward.congr {c c' : Cell} (h : c'.consumerState = c.consumerState) : c.Forward c' := by
  intro l hl
  exact ⟨l, h.trans hl, FindRel.refl (fun cs => le_refl cs.privateConsumeHead) l⟩

variable {cs : ConsumerState}

lemma ConsumerState.Ok.succ {noEntries : ℤ} (h : cs.Ok noEntries) : cs.Ok (noEntries + 1) :=
  ⟨h.neg_one_le, h.consume_le_read, by have := h.read_le; omega, h.not_notified⟩

section Calls
variable {S : Set WORD} (hS : Close S) {t : Table} {queueId consumerId : WORD}
include hS

lemma Keeps.subscribeQueue (h : t.Ok S) (hq : queueId ∈ S) (hc : consumerId ∈ S)
    (shardId appId groupId : WORD) :
    Keeps (Table.Ok S) Table.Forward
      (subscribeQueue (getConsumerState consumerId shardId appId groupId) queueId) t := by
  refine Keeps.withQueue hS hq h fun row _ hrow cell' r hr => ?_
  cases hl : row.cell.consumerState with
  | none => simp [hl] at hr
  | some l =>
    simp only [hl, bind_eq_bind, bind_some] at hr
    have hchain := hrow.chain l hl
    rcases hchain.search_cases hS hc with ⟨hfind, hsearch⟩ | ⟨p, cs, hfind, hsearch, hp⟩
    · -- the new state is put where nothing was found
      obtain ⟨l', hins, hchain', hfind'⟩ :=
        hchain.insert hS hc (getConsumerState consumerId shardId appId groupId)
      simp only [getConsumerState, hsearch, bind_some] at hr hins
      rw [hins] at hr
      cases hr
      refine ⟨⟨hrow.noEntries_nonneg, fun _ h => by cases h; exact hchain', fun _ h n hn => ?_⟩,
        fun _ h => ?_, fun _ he => by cases he⟩
      · cases h
        have hpos := hrow.noEntries_nonneg
        refine hchain'.forall_of_find (P := fun cs => cs.Ok row.cell.noEntries) hfind'
          (fun cs hcs => ?_)
          (hrow.ok l hl) n hn
        cases hcs
        exact ⟨le_refl _, le_refl _, by simp only [getConsumerState]; omega, rfl⟩
      · rw [hl] at h
        cases h
        refine ⟨l', rfl, fun k cs hk => ⟨cs, ?_, le_refl _⟩⟩
        rw [hfind', if_neg (fun heq => by rw [heq, hfind] at hk; cases hk), hk]
    · simp only [getConsumerState, hsearch, bind_some] at hr
      cases hr
      exact ⟨hrow, Cell.Forward.refl _, fun _ _ => rfl⟩

variable {t' : Table}

lemma tableInsert_entry (h : t.Ok S) (hq : queueId ∈ S) {row : Row}
    (hfind : find t.rows queueId = some row) {values : List WORD} {n : ℕ} {blob : List UInt8}
    (hins : tableInsert ⟨queueId :: values, n, blob⟩ version t = some t') :
    ∃ p cell, t.rows[p]? = some (queueId, row) ∧
      (cell.consumerState = row.cell.consumerState ∧ cell.noEntries = row.cell.noEntries) ∧
      t'.rows = t.rows.set p (queueId, { row with cell := cell }) ∧ t'.schema = t.schema := by
  obtain ⟨p, hsearch, hp⟩ := h.chain.search_of_find hS hq hfind
  simp only [tableInsert, RowWrite.primaryKey, h.primary, getElem?_cons_zero, bind_some,
    bind_eq_bind, bind_eq_some_iff, hsearch, hp] at hins
  obtain ⟨-, -, -, -, -, -, keys, -, cell, hcell, indexes, -, hins⟩ := hins
  cases hins
  exact ⟨p, cell, hp, insertCells_fields hcell, rfl, rfl⟩

lemma Table.Ok.tableInsert (h : t.Ok S) (hq : queueId ∈ S) {row : Row}
    (hfind : find t.rows queueId = some row) {values : List WORD} {n : ℕ} {blob : List UInt8}
    (hins : tableInsert ⟨queueId :: values, n, blob⟩ version t = some t') :
    t'.Ok S ∧ t.Forward t' ∧ ∃ row', find t'.rows queueId = some row' := by
  obtain ⟨p, cell, hp, hfields, hrows, hschema⟩ := tableInsert_entry hS h hq hfind hins
  have hset := h.chain.set hp { row with cell := cell }
  refine ⟨⟨hschema ▸ h.primary, hrows ▸ hset.1, ?_⟩, ?_, { row with cell := cell }, ?_⟩
  · rw [hrows]
    have hcell : Cell.Ok S cell := (h.ok _ (mem_of_getElem? hp)).congr hfields
    exact Chain.forall_set (P := fun r : Row => r.cell.Ok S) h.ok hcell queueId p
  · rw [Table.Forward, hrows]
    exact FindRel.set (fun r => Cell.Forward.refl r.cell) h.chain hp (Cell.Forward.congr hfields.1)
  · rw [hrows, h.chain.find_set_self hp]

lemma Keeps.enqueueReserve (h : t.Ok S) (hq : queueId ∈ S) :
    Keeps (Table.Ok S) Table.Forward (enqueueReserve queueId) t := by
  refine Keeps.withQueue hS hq h fun row _ hrow cell' r hr => ?_
  cases hr
  exact ⟨⟨Int.le_add_one hrow.noEntries_nonneg, hrow.chain, fun l hl n hn =>
    (hrow.ok l hl n hn).succ⟩,
    Cell.Forward.congr rfl, fun _ he => by cases he⟩

lemma notifySubscribers_cases (h : Chain S t.rows) (hq : queueId ∈ S) {r : Except DbErr Unit}
    {row : Row} (hfind : find t.rows queueId = some row)
    (hr : withQueue queueId notifySubscribers t = some (t', r)) : t' = t ∧ r = .ok () := by
  obtain ⟨p, hp, heq⟩ := withQueue_of_find hS hq h hfind notifySubscribers
  rw [heq, notifySubscribers_eq, Option.map_map] at hr
  obtain ⟨l, -, hr⟩ := map_eq_some_iff.mp hr
  cases hr
  refine ⟨?_, rfl⟩
  simp only [Chain.set_self hp]

section
variable (h : t.Ok S)
include h

lemma Keeps.enqueue (hq : queueId ∈ S) (e : Entry) :
    Keeps (Table.Ok S) Table.Forward (enqueue e queueId) t := by
  intro t' r hr
  simp only [Backend.enqueue, bind_eq_bind, bind_eq_some_iff] at hr
  obtain ⟨⟨t1, r1⟩, hreserve, hr⟩ := hr
  obtain ⟨hok1, hfwd1, herr1⟩ := Keeps.enqueueReserve hS h hq t1 r1 hreserve
  cases r1 with
  | error err =>
    cases hr
    exact ⟨hok1, hfwd1, fun _ _ => herr1 err rfl⟩
  | ok entryId =>
    simp only [enqueueInsert, bind_eq_bind, bind_eq_some_iff] at hr
    obtain ⟨t2, hins, hr⟩ := hr
    -- the queue was there, so it still is
    obtain ⟨row, hrow⟩ : ∃ row, find t1.rows queueId = some row := by
      rcases withQueue_cases hS hq h.chain reserveEntry with ⟨-, heq⟩ | ⟨p, row, -, hp, heq⟩
      · rw [Backend.enqueueReserve, heq] at hreserve
        cases hreserve
      · rw [Backend.enqueueReserve, heq] at hreserve
        cases hreserve
        exact ⟨_, h.chain.find_set_self hp _⟩
    obtain ⟨hok2, hfwd2, row2, hrow2⟩ := hok1.tableInsert hS hq hrow hins
    obtain ⟨rfl, rfl⟩ := notifySubscribers_cases hS hok2.chain hq hrow2 hr
    exact ⟨hok2, hfwd1.trans hfwd2, fun _ he => by cases he⟩

omit hS in
lemma consumerIn_ok (hcs : consumerIn t queueId consumerId = some cs) :
    ∃ noEntries, cs.Ok noEntries := by
  simp only [consumerIn, bind_eq_some_iff] at hcs
  obtain ⟨row, hrow, l, hl, hcs⟩ := hcs
  exact ⟨_, (h.ok _ (Chain.mem_of_find hrow)).ok l hl _ (Chain.mem_of_find hcs)⟩

variable (hq : queueId ∈ S) (hc : consumerId ∈ S)
include hq hc

lemma readConsumer_cases {f : Cell → ConsumerState → Option (Except DbErr α)} {a : α}
    (hr : readConsumer consumerId queueId f t = some (.ok a)) :
    ∃ row cs, find t.rows queueId = some row ∧ consumerIn t queueId consumerId = some cs ∧
      f row.cell cs = some (.ok a) := by
  rcases h.chain.search_cases hS hq with ⟨-, hsearch⟩ | ⟨p, row, hfind, hsearch, hp⟩
  · simp [readConsumer, hsearch] at hr
  · have hrow := h.ok _ (mem_of_getElem? hp)
    cases hl : row.cell.consumerState with
    | none => simp [readConsumer, hsearch, hp, hl] at hr
    | some l =>
      rcases (hrow.chain l hl).search_cases hS hc with ⟨-, hsearch'⟩ | ⟨p', cs, hfind', hsearch',
        hp'⟩
      · simp [readConsumer, hsearch, hp, hl, hsearch'] at hr
      · simp only [readConsumer, hsearch, hp, hl, hsearch', hp', bind_eq_bind, bind_some] at hr
        exact ⟨row, cs, hfind, by simp [consumerIn, hfind, hl, hfind'], hr⟩

/-- A call for a consumer that is there has the result for its state, and puts the new state
back. -/
theorem withQueue_withConsumer (hcs : consumerIn t queueId consumerId = some cs)
    (f : ConsumerState → Option (ConsumerState × Except DbErr α)) :
    ∃ put : ConsumerState → Table,
      withQueue queueId (withConsumer consumerId f) t = (f cs).map (fun r => (put r.1, r.2)) ∧
        put cs = t ∧ ∀ cs', consumerIn (put cs') queueId consumerId = some cs' ∧
          (put cs').schema = t.schema ∧ ∀ row, find t.rows queueId = some row →
            ∃ l, find (put cs').rows queueId =
              some { row with cell := { row.cell with consumerState := l } } := by
  simp only [consumerIn, bind_eq_some_iff] at hcs
  obtain ⟨row, hrow, l, hl, hcs⟩ := hcs
  obtain ⟨p, hp, heq⟩ := withQueue_of_find hS hq h.chain hrow (withConsumer consumerId f)
  have hchain := (h.ok _ (mem_of_getElem? hp)).chain l hl
  obtain ⟨p', cs', hsome, hp', heq'⟩ :=
    (withConsumer_cases hS hc hl hchain f).resolve_left (by simp [hcs])
  rw [hcs] at hsome
  cases hsome
  let cell cs' : Cell := { row.cell with consumerState := some (l.set p' (consumerId, cs')) }
  refine ⟨fun cs' => { t with rows := t.rows.set p (queueId, { row with cell := cell cs' }) },
    by rw [heq, heq', Option.map_map]; rfl, ?_, fun cs' => ⟨?_, rfl, fun row' hrow' => ?_⟩⟩
  · have hcell : cell cs = row.cell := by
      simp only [cell, Chain.set_self hp', ← hl]
      cases row.cell
      rfl
    simp only [hcell, Chain.set_self hp]
  · simp [consumerIn, (h.chain.set hp _).2, (hchain.set hp' _).2, cell]
  · rw [hrow] at hrow'
    cases hrow'
    exact ⟨_, h.chain.find_set_self hp _⟩

lemma Keeps.withQueueConsumer {f : Cell → ConsumerState → Option (ConsumerState × Except DbErr α)}
    (hf : ∀ row cs, find t.rows queueId = some row → consumerIn t queueId consumerId = some cs →
      cs.Ok row.cell.noEntries →
      Keeps (ConsumerState.Ok row.cell.noEntries) ConsumerState.Forward (f row.cell) cs) :
    Keeps (Table.Ok S) Table.Forward
      (Backend.withQueue queueId fun cell => Backend.withConsumer consumerId (f cell) cell) t := by
  refine Keeps.withQueue hS hq h fun row hfind hrow => ?_
  refine Keeps.withConsumer hS hc hrow fun cs hcs => hf row cs hfind ?_
  rw [consumerIn, hfind]
  exact hcs

lemma Keeps.readAdvance {maxEntries noEntries : ℤ} (hmax : 0 ≤ maxEntries)
    (hno : ∀ row, find t.rows queueId = some row → noEntries ≤ row.cell.noEntries) :
    Keeps (Table.Ok S) Table.Forward (readAdvance consumerId queueId maxEntries noEntries) t :=
  Keeps.withQueueConsumer (f := fun _ => _) hS h hq hc fun row _ hfind _ hok =>
    Keeps.advanceHead hok hmax (hno row hfind)

lemma Keeps.readSearch (plan : ReadPlan) :
    Keeps (Table.Ok S) Table.Forward (readSearch consumerId queueId plan) t := by
  intro t' r hr
  simp only [Backend.readSearch, bind_eq_bind, bind_eq_some_iff] at hr
  obtain ⟨res, -, hr⟩ := hr
  split at hr
  · exact Keeps.withQueueConsumer (f := fun _ => _) hS h hq hc
      (fun _ _ _ _ hok => Keeps.clearNotified hok res) t' r hr
  · cases hr
    exact ⟨h, Table.Forward.refl t, fun _ he => by cases he⟩

lemma Keeps.readQueue (maxEntries : ℤ) :
    Keeps (Table.Ok S) Table.Forward (readQueue consumerId queueId maxEntries) t := by
  intro t' r hr
  simp only [Backend.readQueue, bind_eq_bind, bind_eq_some_iff] at hr
  obtain ⟨r1, hlookup, hr⟩ := hr
  cases r1 with
  | error err =>
    cases hr
    exact ⟨h, Table.Forward.refl t, fun _ _ => rfl⟩
  | ok noEntries =>
    obtain ⟨⟨t2, r2⟩, hadvance, hr⟩ := bind_eq_some_iff.mp hr
    obtain ⟨row, cs, hfind, hcs, hrow⟩ := readConsumer_cases hS h hq hc hlookup
    have hadvance' := hadvance
    obtain ⟨put, heq, hself, hput⟩ := withQueue_withConsumer hS h hq hc hcs
      (Backend.advanceHead maxEntries noEntries)
    rw [Backend.readAdvance, heq] at hadvance'
    obtain ⟨⟨cs2, r2⟩, hcs2, hpair⟩ := map_eq_some_iff.mp hadvance'
    cases hpair
    rcases advanceHead_cases hcs2 with ⟨rfl, res, rfl⟩ | ⟨hlt, rfl⟩
    · cases hr
      rw [hself]
      exact ⟨h, Table.Forward.refl t, fun _ _ => rfl⟩
    · -- the entries of the plan were found, so their number is not negative
      have hmax : 0 ≤ maxEntries := by
        simp only [Backend.readSearch, bind_eq_bind, bind_eq_some_iff] at hr
        obtain ⟨res, hres, -⟩ := hr
        have := le_of_searchPlan hres
        simp only at this
        omega
      have hno : ∀ row, find t.rows queueId = some row → noEntries ≤ row.cell.noEntries := by
        intro row' hfind'
        rw [hfind] at hfind'
        cases hfind'
        simp only [Option.some.injEq, Except.ok.injEq] at hrow
        exact hrow.ge
      obtain ⟨hok2, hfwd2, -⟩ := Keeps.readAdvance hS h hq hc hmax hno _ _ hadvance
      obtain ⟨hok, hfwd, -⟩ := Keeps.readSearch hS hok2 hq hc _ t' r hr
      refine ⟨hok, hfwd2.trans hfwd, fun err he => ?_⟩
      subst he
      simp only [Backend.readSearch, bind_eq_bind, bind_eq_some_iff] at hr
      obtain ⟨res, -, hr⟩ := hr
      split at hr
      · obtain ⟨put', heq', -⟩ := withQueue_withConsumer hS hok2 hq hc (hput cs2).1
          (fun cs => some ({ cs with notified := false }, Except.ok res))
        rw [heq'] at hr
        cases hr
      · cases hr

end

lemma createQueue_cases (h : t.Ok S) (hq : queueId ∈ S) {r : Except DbErr Unit}
    (hr : createQueue queueId version t = some (t', r)) :
    (t' = t ∧ r = .error .duplicateQueue) ∨ t'.schema = t.schema ∧ Chain S t'.rows ∧ ∃ keys row,
      (RowWrite.mk [queueId, ofInt64 (-2), 0] 1 []).clusteringKeys t.schema = some keys ∧
      row.cell.cells = (createDbRowSchemaless [.word 0] keys (createEmptyRow queueId)).cells ∧
      row.cell.noEntries = 0 ∧ row.cell.consumerState = some [] ∧
      ∀ k, find t'.rows k = if k = queueId then some row else find t.rows k := by
  rcases h.chain.search_cases hS hq with ⟨-, hsearch⟩ | ⟨p, row, -, hsearch, -⟩
  · simp only [createQueue, tableInsert, RowWrite.primaryKey, h.primary, hsearch,
      getElem?_cons_zero, bind_some, bind_eq_bind, bind_eq_some_iff] at hr
    obtain ⟨t1, ⟨-, -, -, -, -, -, keys, hkeys, rows, hrows, indexes, -, ht1⟩, hr⟩ := hr
    obtain ⟨l, hl, hchain, hfind⟩ := h.chain.insert hS hq _
    rw [hl] at hrows
    cases hrows
    cases ht1
    obtain ⟨p, hp, heq⟩ := withQueue_of_find hS hq (t :=
      ⟨t.schema, rows, indexes, t.brk + 1⟩) hchain
      ((hfind queueId).trans (if_pos rfl)) (fun row =>
        some ({ row with consumerState := some [] }.setVersion version, Except.ok ()))
    rw [heq] at hr
    cases hr
    obtain ⟨hchain', hfind'⟩ := hchain.set hp _
    refine .inr ⟨rfl, hchain', keys, _, hkeys, ?_, ?_, ?_, fun k => (hfind' k).trans
      (ite_congr rfl (fun _ => rfl) fun hk => (hfind k).trans (if_neg hk))⟩
    · cases version <;> rfl
    · cases version <;> rcases keys with _ | ⟨_, _ | _⟩ <;> rfl
    · cases version <;> rfl
  · simp only [createQueue, hsearch, bind_eq_bind, bind_some] at hr
    cases hr
    exact .inl ⟨rfl, rfl⟩

lemma Table.Ok.createQueue (h : t.Ok S) (hq : queueId ∈ S) {r : Except DbErr Unit}
    (hr : createQueue queueId version t = some (t', r)) : t'.Ok S := by
  rcases createQueue_cases hS h hq hr with
    ⟨rfl, -⟩ | ⟨hschema, hchain, keys, row, -, -, hno, hcons, hfind⟩
  · exact h
  · refine ⟨hschema ▸ h.primary, hchain, hchain.forall_of_find (P := fun row : Row => row.cell.Ok S)
      hfind (fun row' hrow' => ?_) h.ok⟩
    cases hrow'
    exact ⟨hno.ge, by simp [hcons, Chain.nil], by simp [hcons]⟩

end Calls

/-! ## Runs -/

section Runs
variable {S : Set WORD} (hS : Close S) {ts : Tables} {c : QueueCall}

/-- The ids of the call are in `S`. -/
def QueueCall.Within (S : Set WORD) (c : QueueCall) : Prop :=
  c.tableKey ∈ S ∧ c.queueId ∈ S ∧ c.consumerId ∈ S

lemma Keeps.forget {Ok : Table → Prop} {Forward : Table → Table → Prop}
    {f : Table → Option (Table × Except DbErr α)} (h : Keeps Ok Forward f t) :
    Keeps Ok Forward (fun t => (f t).map forget) t := by
  intro t' r hr
  obtain ⟨⟨t1, r1⟩, hf, hr⟩ := map_eq_some_iff.mp hr
  cases hr
  obtain ⟨hok, hfwd, herr⟩ := h t1 r1 hf
  refine ⟨hok, hfwd, fun e he => ?_⟩
  cases r1 with
  | error e1 => exact herr e1 rfl
  | ok a => cases he

lemma Keeps.read (h : t.Ok S) (f : Table → Option (Except DbErr α)) :
    Keeps (Table.Ok S) Table.Forward (fun t => (f t).map fun r => Backend.forget (t, r)) t := by
  intro t' r hr
  obtain ⟨r1, -, hr⟩ := map_eq_some_iff.mp hr
  cases hr
  exact ⟨h, Table.Forward.refl t, fun _ _ => rfl⟩

include hS

/-- The step lemma, one case for each kind of call. -/
theorem keeps_run (h : Tables.Ok S ts) (hc : c.Within S) (hback : ¬ c.Backward ts) :
    Keeps (Tables.Ok S) Tables.Forward (fun ts => c.run ts) ts := by
  obtain ⟨htable, hqueue, hcons⟩ := hc
  refine Keeps.withTable hS htable h fun t hfind ht => ?_
  cases hop : c.op with
  | subscribe shardId appId groupId =>
    exact Keeps.subscribeQueue hS ht hqueue hcons shardId appId groupId
  | enqueue e => exact Keeps.enqueue hS ht hqueue e
  | readQueue maxEntries => exact (Keeps.readQueue hS ht hqueue hcons maxEntries).forget
  | peekQueue maxEntries offset | replayQueue replayOffset maxEntries newReplayOffset =>
    exact Keeps.read ht _
  | consumeQueue newHead =>
    refine (Keeps.withQueueConsumer (f := fun _ => _) hS ht hqueue hcons fun _ cs _ hcs hok =>
      Keeps.consumeHead hok ?_).forget
    by_contra hlt
    exact hback ⟨newHead, cs, hop, by rw [consumerAt, hfind]; exact hcs, not_le.mp hlt⟩
  | setPrivateReadHead newHead version =>
    exact Keeps.withQueueConsumer (f := fun row =>
      Backend.setReadHead row.noEntries newHead version) hS
      ht hqueue hcons fun _ _ _ _ hok => Keeps.setReadHead hok
  | setPrivateConsumeHead newHead version =>
    exact Keeps.withQueueConsumer (f := fun row =>
      Backend.setConsumeHead row.noEntries newHead version)
      hS ht hqueue hcons fun _ _ _ _ hok => Keeps.setConsumeHead hok

omit hS in
lemma consumerAt_of_forward {ts' : Tables} {tableKey queueId consumerId : WORD}
    (h : Tables.Forward ts ts') (hcs : consumerAt ts tableKey queueId consumerId = some cs) :
    ∃ cs', consumerAt ts' tableKey queueId consumerId = some cs' ∧ cs.Forward cs' := by
  simp only [consumerAt, consumerIn, bind_eq_some_iff] at hcs
  obtain ⟨t, ht, row, hrow, l, hl, hcs⟩ := hcs
  obtain ⟨t', ht', htfwd⟩ := h tableKey t ht
  obtain ⟨row', hrow', hfwd⟩ := htfwd queueId row hrow
  obtain ⟨l', hl', hrel⟩ := hfwd l hl
  obtain ⟨cs', hcs', hle⟩ := hrel consumerId cs hcs
  exact ⟨cs', by simp [consumerAt, consumerIn, ht', hrow', hl', hcs'], hle⟩

/-- A consume head that is moved backwards is not rejected. -/
theorem not_keeps_of_backward (h : Tables.Ok S ts) (hc : c.Within S) (hback : c.Backward ts) :
    ¬ Keeps (Tables.Ok S) Tables.Forward (fun ts => c.run ts) ts := by
  obtain ⟨newHead, cs, hop, hat, hlt⟩ := hback
  obtain ⟨t, hfind, hin⟩ := bind_eq_some_iff.mp hat
  obtain ⟨p, hp, heq⟩ := withTable_of_find hS hc.1 h.chain hfind (c.op.run c.queueId c.consumerId)
  have ht := h.ok _ (mem_of_getElem? hp)
  obtain ⟨put, heq', -, hput⟩ := withQueue_withConsumer hS ht hc.2.1 hc.2.2 hin
    (consumeHead newHead)
  -- the consume head is not beyond the read head, so the call goes through
  obtain ⟨_, hok⟩ := consumerIn_ok ht hin
  have hle := hok.consume_le_read
  have hhead : consumeHead newHead cs =
      some ({ cs with notified := false, privateConsumeHead := newHead }, .ok newHead) := by
    simp [consumeHead, hle, show ¬ cs.privateReadHead < newHead by omega,
      show ¬ newHead = cs.privateConsumeHead by omega]
  intro hkeeps
  have hrun : c.run ts = some (ts.set p (c.tableKey, put { cs with
      notified := false, privateConsumeHead := newHead }), .ok ()) := by
    rw [QueueCall.run, heq, hop, QueueOp.run, consumeQueue, heq', hhead]
    rfl
  obtain ⟨-, hfwd, -⟩ := hkeeps _ _ hrun
  obtain ⟨cs', hcs', hle'⟩ := consumerAt_of_forward hfwd hat
  rw [consumerAt, h.chain.find_set_self hp, bind_some, (hput _).1] at hcs'
  cases hcs'
  exact absurd hlt (not_lt.mpr hle')

/-- All calls keep the heads in order, move no consume head backwards and change nothing where they
are rejected, if and only if no call of `consumeQueue` is for a number below the consume head. -/
theorem heads_correct {calls : List QueueCall} (hts : Tables.Ok S ts)
    (hcalls : ∀ c ∈ calls, c.Within S) :
    Trace.Guarded QueueCall.step (fun ts c => Keeps (Tables.Ok S) Tables.Forward
    (fun ts => c.run ts) ts)
        ts calls ↔
      Trace.Guarded QueueCall.step (fun ts c => ¬ c.Backward ts) ts calls := by
  refine Trace.guarded_congr (I := fun calls ts => Tables.Ok S ts ∧ ∀ c ∈ calls, c.Within S)
    (fun c calls ts h => ⟨fun hkeeps hback => ?_, fun hback => ?_⟩)
    (fun c calls ts ts' h hkeeps hstep => ?_) ⟨hts, hcalls⟩
  · exact not_keeps_of_backward hS h.1 (h.2 c (by simp)) hback hkeeps
  · exact keeps_run hS h.1 (h.2 c (by simp)) hback
  · obtain ⟨⟨ts1, r⟩, hrun, rfl⟩ := map_eq_some_iff.mp hstep
    exact ⟨(hkeeps ts1 r hrun).1, fun c' hc' => h.2 c' (by simp [hc'])⟩

end Runs

/-- A table with an empty queue. -/
def exampleQueue : Table :=
  (createQueue 2 none (createTable ⟨[0], [1], []⟩)).elim (createTable ⟨[0], [1], []⟩) Prod.fst

/-- A consumer subscribes, reads one of two entries, consumes it and tries to consume the other
one. -/
def exampleCalls : List QueueCall :=
  [⟨1, 2, 3, .subscribe 0 0 0⟩, ⟨1, 2, 0, .enqueue ⟨[7], []⟩⟩, ⟨1, 2, 0, .enqueue ⟨[8], []⟩⟩,
    ⟨1, 2, 3, .readQueue 1⟩, ⟨1, 2, 3, .consumeQueue 0⟩, ⟨1, 2, 3, .consumeQueue 1⟩]

lemma ok_createTable : (createTable ⟨[0], [1], []⟩).Ok smallKeys :=
    ⟨rfl, Chain.nil, by simp [createTable]⟩

theorem heads_correct_exampleCalls : Tables.Ok smallKeys [(1, exampleQueue)] ∧
      (Trace.Guarded QueueCall.step
          (fun ts c => Keeps (Tables.Ok smallKeys) Tables.Forward (fun ts => c.run ts) ts)
          [(1, exampleQueue)] exampleCalls ↔
        Trace.Guarded QueueCall.step (fun ts c => ¬ c.Backward ts) [(1, exampleQueue)]
        exampleCalls) ∧
      ((Trace.run QueueCall.step [(1, exampleQueue)] exampleCalls).bind fun ts =>
        consumerAt ts 1 2 3).map
        (fun cs => (cs.privateConsumeHead, cs.privateReadHead)) = some (0, 0) := by
  have hok : exampleQueue.Ok smallKeys := by
    obtain ⟨⟨t, r⟩, ht⟩ : ∃ p, createQueue 2 none (createTable ⟨[0], [1], []⟩) = some p := ⟨_, rfl⟩
    rw [exampleQueue, ht]
    exact ok_createTable.createQueue close_smallKeys (by decide) ht
  have hts : Tables.Ok smallKeys [(1, exampleQueue)] :=
    ⟨Chain.singleton (by decide), by simpa using hok⟩
  have hcalls : ∀ c ∈ exampleCalls, c.Within smallKeys := by
    unfold exampleCalls QueueCall.Within
    decide
  exact ⟨hts, heads_correct close_smallKeys hts hcalls, by decide⟩

/-- A consume head is set to -5: the number is not compared with the consume head. -/
theorem heads_diverge : ((Trace.run QueueCall.step [(1, exampleQueue)]
        [⟨1, 2, 3, .subscribe 0 0 0⟩, ⟨1, 2, 3, .consumeQueue (-5)⟩]).bind fun ts =>
          consumerAt ts 1 2 3).map (fun cs => cs.privateConsumeHead) = some (-5) := by
  decide

end Acton.Backend
