import Acton.ToMathlib.Trace
import Acton.ToMathlib.LinkedLists

/-!
# The run-time system

Actors, messages and worker threads of `base/rts/rts.c` and `base/rts/q.c`. A worker takes an actor
from a ready queue, runs the continuation of its first message, sends the messages of the actor,
wakes the actors that wait for the result, and puts the actor back into a ready queue, or into the
waiting list of a message.

The sections with a lock are one step each, and so are the statements between them; the steps of any
number of workers interleave. Actors, messages, continuations and values are numbers, as they are
pointers in the code. The lists are linked through the fields `$next` of actors and messages, and a
place is named by the variable with its first cell. What a continuation computes is left open: an
event tells which messages it sends and what it returns.

There is no database, and the queues are those for `MPMC == 2` and `MSGQ == 2`.
-/

namespace Acton.Rts
open Function (update)

/-- The queue for actors without affinity. -/
def sharedRq : ℕ := 256

/-- Where actors can be. -/
inductive ActorPlace where
  /-- `rqs[i]` -/
  | ready (i : ℕ)
  /-- `m->$waiting` -/
  | waiting (m : ℕ)
  /-- the variable `b` of a worker that wakes actors -/
  | woken (w : ℕ)
  /-- other variables of a worker; they have actors, but no list -/
  | held (w : ℕ)
  deriving DecidableEq, Repr

def ActorPlace.Linked : ActorPlace → Prop
  | .held _ => False
  | _ => True

/-- Where messages can be. -/
inductive MsgPlace where
  /-- `a->B_Msg` -/
  | queue (a : ℕ)
  /-- `a->$outgoing` -/
  | outgoing (a : ℕ)
  /-- the messages that a worker is to send: `prev` in `reverse_outgoing_queue`, then `m` in
  `FLUSH_outgoing_local` -/
  | flush (w : ℕ)
  /-- one message of a worker, on its way from list to list -/
  | hand (w : ℕ)
  /-- `timerQ` -/
  | timer
  deriving DecidableEq, Repr

/-- `MARK_RESULT` and `MARK_EXCEPTION` -/
inductive Mark where
  | result
  | exception
  deriving DecidableEq, Repr

/-- The field `$cont` of a message. -/
inductive Cont where
  | proper (k : ℕ)
  /-- `$Fail$instance` -/
  | fail
  | frozen (mark : Mark)
  deriving DecidableEq, Repr

/-- `FROZEN` -/
def Cont.isFrozen : Cont → Bool
  | .frozen _ => true
  | _ => false

/-- `B_False` -/
def valFalse : ℕ := 0

/-- `$Done$instance` -/
def valDone : ℕ := 1

structure Catcher where
  cont : ℕ
  xval : Option ℕ := none
  deriving DecidableEq, Repr

/-- What follows when the messages of an actor are sent. -/
inductive After where
  /-- the message is finished, with a result or an exception -/
  | freeze (mark : Mark) (v : ℕ)
  /-- `$RWAIT` -/
  | await (k x : ℕ)
  deriving DecidableEq, Repr

/-- The head of a loop; `a` is the actor that a worker runs and `m` the first message of that. -/
inductive Loop where
  /-- `wt_work_cb`, and the event loop around it -/
  | work
  /-- `FLUSH_outgoing_local` -/
  | flush (a m : ℕ) (k : After)
  /-- the loop that wakes actors -/
  | wake (a m : ℕ) (mark : Mark) (v : ℕ)
  deriving DecidableEq, Repr

/-- Where a worker is. Some calls return to the loop that they are in. -/
inductive Pc where
  | loop (l : Loop)
  /-- its own ready queue was empty -/
  | shared
  | got (a : ℕ)
  | run (a m : ℕ)
  /-- `reverse_outgoing_queue` -/
  | reverse (a m : ℕ) (k : After)
  /-- `ENQ_msg` for the message in hand -/
  | send (l : Loop)
  /-- `ENQ_timed` for the message in hand -/
  | delay (l : Loop)
  /-- `ENQ_ready` -/
  | ready (b : ℕ) (l : Loop)
  /-- `FREEZE_waiting` -/
  | freeze (a m : ℕ) (mark : Mark) (v : ℕ)
  /-- `DEQ_msg` -/
  | dequeue (a m : ℕ)
  /-- `ADD_waiting` -/
  | await (a m x : ℕ)
  /-- `ADD_waiting` has returned false -/
  | awaited (a m x : ℕ)
  deriving DecidableEq, Repr

/-- What is not linked. -/
structure Core where
  waitsfor : ℕ → Option ℕ := fun _ => none
  catcher : ℕ → List Catcher := fun _ => []
  affinity : ℕ → ℕ := fun _ => sharedRq
  /-- `m->$to` -/
  dest : ℕ → ℕ := fun _ => 0
  cont : ℕ → Cont := fun _ => .fail
  baseline : ℕ → ℤ := fun _ => 0
  value : ℕ → ℕ := fun _ => valDone
  /-- The next message. -/
  fresh : ℕ := 0
  pc : ℕ → Pc := fun _ => .loop .work

structure State extends Core where
  next : ℕ → Option ℕ := fun _ => none
  head : ActorPlace → Option ℕ := fun _ => none
  /-- `rqs[i].tail` -/
  tail : ℕ → Option ℕ := fun _ => none
  mnext : ℕ → Option ℕ := fun _ => none
  mhead : MsgPlace → Option ℕ := fun _ => none
  /-- `a->B_Msg_tail` -/
  mtail : ℕ → Option ℕ := fun _ => none

namespace Core
variable (c : Core)

def setPc (w : ℕ) (pc : Pc) : Core := { c with pc := update c.pc w pc }
def setCont (m : ℕ) (k : Cont) : Core := { c with cont := update c.cont m k }
def setValue (m v : ℕ) : Core := { c with value := update c.value m v }

/-- `m->$cont` and `m->value` -/
def setMsg (m : ℕ) (k : Cont) (v : ℕ) : Core := (c.setCont m k).setValue m v

/-- `B_MsgG_newXX` -/
def newMsg (b k : ℕ) (baseline : ℤ) : Core :=
  { c with
    dest := update c.dest c.fresh b
    cont := update c.cont c.fresh (.proper k)
    baseline := update c.baseline c.fresh baseline
    value := update c.value c.fresh valDone
    fresh := c.fresh + 1 }

end Core
namespace State
variable (s : State)

/-- A change to what is not linked. -/
def modify (f : Core → Core) : State := { s with toCore := f s.toCore }
def setPc (w : ℕ) (pc : Pc) : State := s.modify (·.setPc w pc)

/-! ## Sections with a lock -/

def enqReady (a : ℕ) : State :=
  let i := s.affinity a
  match s.tail i with
  | some t =>
    { s with
      next := update (update s.next t (some a)) a none
      tail := update s.tail i (some a) }
  | none =>
    { s with
      next := update s.next a none
      head := update s.head (.ready i) (some a)
      tail := update s.tail i (some a) }

def deqReady (i : ℕ) : Option (ℕ × State) :=
  match s.head (.ready i) with
  | none => none
  | some a => some (a,
    { s with
      head := update s.head (.ready i) (s.next a)
      next := update s.next a none
      tail := if s.next a = none then update s.tail i none else s.tail })

/-- The result tells whether the queue was empty. -/
def enqMsg (m a : ℕ) : State × Bool :=
  match s.mtail a with
  | some t =>
    ({ s with
      mnext := update (update s.mnext t (some m)) m none
      mtail := update s.mtail a (some m) }, false)
  | none =>
    ({ s with
      mnext := update s.mnext m none
      mhead := update s.mhead (.queue a) (some m)
      mtail := update s.mtail a (some m) }, true)

/-- The result tells whether the queue still has messages. -/
def deqMsg (a : ℕ) : State × Bool :=
  match s.mhead (.queue a) with
  | some x =>
    ({ s with
      mhead := update s.mhead (.queue a) (s.mnext x)
      mnext := update s.mnext x none
      mtail := if s.mnext x = none then update s.mtail a none else s.mtail },
      (s.mnext x).isSome)
  | none => ({ s with mtail := update s.mtail a none }, false)

/-- The result tells whether the actor waits. -/
def addWaiting (a m : ℕ) : State × Bool :=
  if (s.cont m).isFrozen then (s, false)
  else
    ({ s with
      next := update s.next a (s.head (.waiting m))
      head := update s.head (.waiting m) (some a)
      waitsfor := update s.waitsfor a (some m) }, true)

/-- The list of actors that were waiting goes to the worker. -/
def freezeWaiting (w m : ℕ) (mark : Mark) : State :=
  { s.modify (·.setCont m (.frozen mark)) with
    head := update (update s.head (.waiting m) none) (.woken w)
      (s.head (.waiting m)) }

/-- The last message from `x` on before one with a later baseline. -/
def timerPosition (baseline : ℤ) : ℕ → ℕ → Option ℕ
  | 0, _ => none
  | n + 1, x =>
    match s.mnext x with
    | some next => if s.baseline next ≤ baseline then timerPosition baseline n next else some x
    | none => some x

def enqTimed (m : ℕ) : Option State :=
  let first := { s with
    mhead := update s.mhead .timer (some m)
    mnext := update s.mnext m (s.mhead .timer) }
  match s.mhead .timer with
  | none => some first
  | some x =>
    if s.baseline x ≤ s.baseline m then do
      -- the loop goes through different messages, so there is a bound
      let x ← s.timerPosition (s.baseline m) s.fresh x
      some { s with mnext := update (update s.mnext x (some m)) m (s.mnext x) }
    else some first

def deqTimed (now : ℤ) : Option (ℕ × State) :=
  match s.mhead .timer with
  | none => none
  | some x =>
    if s.baseline x ≤ now then some (x,
      { s with
        mhead := update s.mhead .timer (s.mnext x)
        mnext := update s.mnext x none })
    else none

/-! ## Messages of a worker -/

/-- `B_MsgG_newXX`; `$next` and `$waiting` are `NULL`. -/
def newMsg (b k : ℕ) (baseline : ℤ) : State :=
  { s.modify (·.newMsg b k baseline) with
    mnext := update s.mnext s.fresh none
    head := update s.head (.waiting s.fresh) none }

/-- `PUSH_outgoing`, also for the list that a worker is to send. -/
def push (p : MsgPlace) (m : ℕ) : State :=
  { s with
    mnext := update s.mnext m (s.mhead p)
    mhead := update s.mhead p (some m) }

/-- The first message `m` of a list is taken out of it. -/
def pop (p : MsgPlace) (m : ℕ) : State :=
  { s with mhead := update s.mhead p (s.mnext m) }

/-- `m->$next = NULL`, for the message in hand. -/
def hold (w m : ℕ) : State :=
  { s with
    mnext := update s.mnext m none
    mhead := update s.mhead (.hand w) (some m) }

/-- The variable is not used any more. -/
def release (w : ℕ) : State :=
  { s with mhead := update s.mhead (.hand w) none }

end State

/-! ## Steps -/

/-- `$R` -/
inductive Result where
  | done (v : ℕ)
  | cont (k v : ℕ)
  | fail (v : ℕ)
  | wait (k x : ℕ)
  deriving DecidableEq, Repr

inductive Action where
  /-- look for an actor in the own queue -/
  | dequeue
  /-- `$ASYNC` by actor code -/
  | async (b k : ℕ)
  /-- `$AFTER` -/
  | after (delay : ℤ) (k : ℕ)
  /-- `set_actor_affinity` -/
  | pin (i : ℕ)
  /-- `PUSH_catcher` -/
  | pushCatcher (k : ℕ)
  /-- `POP_catcher` -/
  | popCatcher
  /-- a continuation returns, or raises an exception -/
  | finish (r : Result)
  /-- `$ASYNC` by the event loop -/
  | post (b k : ℕ) (now : ℤ)
  /-- `handle_timeout` -/
  | timeout (now : ℤ)
  /-- the next statement -/
  | go
  deriving DecidableEq, Repr

namespace State
variable (s : State) (w : ℕ)

/-- A continuation returns. -/
def finish (a m : ℕ) : Result → Option State
  | .done v => some (s.setPc w (.reverse a m (.freeze .result v)))
  | .cont k v => some ((s.modify (·.setMsg m (.proper k) v)).setPc w (.ready a .work))
  | .fail v =>
    match s.catcher a with
    | c :: cs =>
      let s := { s with catcher := update s.catcher a ({ c with xval := some v } :: cs) }
      some ((s.modify (·.setMsg m (.proper c.cont) valFalse)).setPc w (.ready a .work))
    | [] => some (s.setPc w (.reverse a m (.freeze .exception v)))
  -- only a message that exists is awaited
  | .wait k x => if x < s.fresh then some (s.setPc w (.reverse a m (.await k x))) else none

/-- What an actor does while it runs. -/
def act (a m : ℕ) : Action → Option State
  | .async b k => do
    let current ← s.mhead (.queue a)
    some ((s.newMsg b k (s.baseline current)).push (.outgoing a) s.fresh)
  | .after delay k => do
    let current ← s.mhead (.queue a)
    some ((s.newMsg a k (s.baseline current + delay)).push (.outgoing a) s.fresh)
  | .pin i => some { s with affinity := update s.affinity a i }
  | .pushCatcher k =>
    some { s with catcher := update s.catcher a ({ cont := k } :: s.catcher a) }
  | .popCatcher => some { s with catcher := update s.catcher a (s.catcher a).tail }
  | .finish r => s.finish w a m r
  | _ => none

/-- An iteration of `FLUSH_outgoing_local`, or what follows it. -/
def flushNext (a m : ℕ) (k : After) : Option State :=
  match s.mhead (.flush w), k with
  | some x, k => do
    let current ← s.mhead (.queue a)
    let s := (s.pop (.flush w) x).hold w x
    if s.baseline x = s.baseline current then some (s.setPc w (.send (.flush a m k)))
    else some (s.setPc w (.delay (.flush a m k)))
  | none, .freeze mark v => some ((s.modify (·.setValue m v)).setPc w (.freeze a m mark v))
  | none, .await k x => some ((s.modify (·.setCont m (.proper k))).setPc w (.await a m x))

/-- The message in hand goes to the actor that it is for. -/
def send (l : Loop) : Option State := do
  let x ← s.mhead (.hand w)
  match (s.release w).enqMsg x (s.dest x) with
  | (s', true) => some (s'.setPc w (.ready (s.dest x) l))
  | (s', false) => some (s'.setPc w (.loop l))

/-- The next of the actors that were waiting, with its first message. -/
def wakeNext (a m : ℕ) (mark : Mark) (v : ℕ) : Option State :=
  match s.head (.woken w) with
  | none => some (s.setPc w (.dequeue a m))
  | some b => do
    let x ← s.mhead (.queue b)
    let s := { s with
      head := update s.head (.woken w) (s.next b)
      waitsfor := update s.waitsfor b none }
    let s := if mark = .exception then s.modify (·.setCont x .fail) else s
    some ((s.modify (·.setValue x v)).setPc w (.ready b (.wake a m mark v)))

/-- The statement where a worker is. -/
def go : Pc → Option State
  | .shared =>
    match s.deqReady sharedRq with
    | some (a, s) => some (s.setPc w (.got a))
    | none => some (s.setPc w (.loop .work))
  | .got a => do
    let m ← s.mhead (.queue a)
    some (s.setPc w (.run a m))
  | .reverse a m k =>
    match s.mhead (.outgoing a) with
    | some x => some ((s.pop (.outgoing a) x).push (.flush w) x)
    | none => some (s.setPc w (.loop (.flush a m k)))
  | .loop (.flush a m k) => s.flushNext w a m k
  | .loop (.wake a m mark v) => s.wakeNext w a m mark v
  | .send l => s.send w l
  | .delay l => do
    let x ← s.mhead (.hand w)
    let s ← (s.release w).enqTimed x
    some (s.setPc w (.loop l))
  | .ready b l => some ((s.enqReady b).setPc w (.loop l))
  | .freeze a m mark v => some ((s.freezeWaiting w m mark).setPc w (.loop (.wake a m mark v)))
  | .dequeue a _ =>
    match s.deqMsg a with
    | (s, true) => some (s.setPc w (.ready a .work))
    | (s, false) => some (s.setPc w (.loop .work))
  | .await a m x =>
    match s.addWaiting a x with
    | (s, true) => some (s.setPc w (.loop .work))
    | (s, false) => some (s.setPc w (.awaited a m x))
  | .awaited a m x =>
    let s := if s.cont x = .frozen .exception then s.modify (·.setCont m .fail) else s
    some ((s.modify (·.setValue m (s.value x))).setPc w (.ready a .work))
  | .loop .work => none
  | .run _ _ => none

/-- What a worker can do between two actors. -/
def between : Action → Option State
  | .dequeue =>
    match s.deqReady w with
    | some (a, s) => some (s.setPc w (.got a))
    -- the main thread does not look into the shared queue
    | none => some (s.setPc w (if w = 0 then .loop .work else .shared))
  | .post b k now => some (((s.newMsg b k now).hold w s.fresh).setPc w (.send .work))
  | .timeout now =>
    match s.deqTimed now with
    | some (x, s) => some ((s.hold w x).setPc w (.send .work))
    | none => some s
  | _ => none

end State

/-- A step of a worker. -/
def step (s : State) (e : ℕ × Action) : Option State :=
  match s.pc e.1, e.2 with
  | .loop .work, action => s.between e.1 action
  | .run a m, action => s.act e.1 a m action
  | pc, .go => s.go e.1 pc
  | _, _ => none

/-- The state after the steps, from the beginning. -/
def run (events : List (ℕ × Action)) : Option State := Trace.run step {} events

/-! ## What is observed -/

inductive Obs where
  /-- An actor awaits message `x`, to go on with `k`. -/
  | await (a k x : ℕ)
  /-- A message has its result or exception. -/
  | complete (x : ℕ) (mark : Mark) (v : ℕ)
  /-- An actor is put into a ready queue. -/
  | ready (a : ℕ)
  /-- The first message of an actor is continued. -/
  | resume (a : ℕ) (c : Cont) (v : ℕ)
  /-- Actor `a` sends message `x` to `b` with `$ASYNC`. -/
  | sent (a b x : ℕ)
  /-- A message is taken from the queue of an actor. -/
  | taken (a x : ℕ)
  deriving DecidableEq, Repr

/-- What is observed of a step. -/
def observe (s : State) (e : ℕ × Action) : List Obs :=
  match s.pc e.1, e.2 with
  | .run a _, .finish (.wait k x) => [.await a k x]
  | .run a _, .async b _ => [.sent a b s.fresh]
  | .got a, .go => ((s.mhead (.queue a)).map fun m => .resume a (s.cont m) (s.value m)).toList
  | .ready b _, .go => [.ready b]
  | .freeze _ m mark v, .go => [.complete m mark v]
  | .dequeue a _, .go => ((s.mhead (.queue a)).map (.taken a)).toList
  | _, _ => []

/-- What is observed from the beginning. -/
def log (events : List (ℕ × Action)) : List Obs := Trace.log step observe {} events

end Acton.Rts
