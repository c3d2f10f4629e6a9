import Acton.Rts

/-!
# Queues without links

The run-time system with lists of actors and messages in place of links. `Step` has a rule for each
kind of step, with what an observer sees of it, and `Inv` is what holds in all states.

An actor with messages is at one place: it is ready, waits for a message that has no result yet, or
is in the hands of one worker. A message without a result is in one list.
-/

namespace Acton.Rts
open LinkedLists
open Function (update)

/-! ## What a worker is busy with -/

def After.awaits : After → Option ℕ
  | .freeze _ _ => none
  | .await _ x => some x

namespace Loop

def holds : Loop → List ℕ
  | .work => []
  | .flush a _ _ => [a]
  | .wake a _ _ _ => [a]

def runs : Loop → Option (ℕ × ℕ)
  | .work => none
  | .flush a m _ => some (a, m)
  | .wake a m _ _ => some (a, m)

def finishing : Loop → Option ℕ
  | .wake _ m _ _ => some m
  | _ => none

def waking : Loop → Option (ℕ × Mark × ℕ)
  | .wake _ m mark v => some (m, mark, v)
  | _ => none

def awaits : Loop → Option ℕ
  | .flush _ _ k => k.awaits
  | _ => none

def flushing : Loop → Bool
  | .flush _ _ _ => true
  | _ => false

end Loop
namespace Pc

/-- The actors in the hands of a worker, except those that it is about to wake. -/
def holds : Pc → List ℕ
  | .loop l => l.holds
  | .shared => []
  | .got a => [a]
  | .run a _ => [a]
  | .reverse a _ _ => [a]
  | .send l => l.holds
  | .delay l => l.holds
  | .ready b l => b :: l.holds
  | .freeze a _ _ _ => [a]
  | .dequeue a _ => [a]
  | .await a _ _ => [a]
  | .awaited a _ _ => [a]

/-- The actor that a worker runs, with its first message. -/
def runs : Pc → Option (ℕ × ℕ)
  | .loop l => l.runs
  | .shared => none
  | .got _ => none
  | .run a m => some (a, m)
  | .reverse a m _ => some (a, m)
  | .send l => l.runs
  | .delay l => l.runs
  | .ready _ l => l.runs
  | .freeze a m _ _ => some (a, m)
  | .dequeue a m => some (a, m)
  | .await a m _ => some (a, m)
  | .awaited a m _ => some (a, m)

/-- The loop where a worker is or goes back to. -/
def loop? : Pc → Option Loop
  | .loop l => some l
  | .send l => some l
  | .delay l => some l
  | .ready _ l => some l
  | _ => none

/-- The message that is frozen, but still in the queue of its actor. -/
def finishing : Pc → Option ℕ
  | .dequeue _ m => some m
  | p => p.loop?.bind Loop.finishing

/-- The message for which actors are woken, with its mark and its value. -/
def waking (p : Pc) : Option (ℕ × Mark × ℕ) := p.loop?.bind Loop.waking

/-- The message that is awaited. -/
def awaits : Pc → Option ℕ
  | .reverse _ _ k => k.awaits
  | .await _ _ x => some x
  | .awaited _ _ x => some x
  | p => p.loop?.bind Loop.awaits

/-- The messages of an actor are being sent. -/
def flushing : Pc → Bool
  | .reverse _ _ _ => true
  | p => p.loop?.any Loop.flushing

/-- The number of messages in hand. -/
def inHand : Pc → ℕ
  | .send _ => 1
  | .delay _ => 1
  | _ => 0

lemma mem_holds_of_runs {p : Pc} {a m : ℕ} (h : p.runs = some (a, m)) : a ∈ p.holds := by
  have hloop (l : Loop) (h : l.runs = some (a, m)) : a ∈ l.holds := by
    cases l <;> simp_all [Loop.runs, Loop.holds]
  cases p with
  | loop l | send l | delay l => exact hloop l h
  | ready b l => exact List.mem_cons_of_mem b (hloop l h)
  | _ => simp_all [runs, holds]

lemma runs_of_finishing {p : Pc} {m : ℕ} (h : p.finishing = some m) :
    ∃ a, p.runs = some (a, m) := by
  have hloop (l : Loop) (h : l.finishing = some m) : ∃ a, l.runs = some (a, m) := by
    cases l <;> simp_all [Loop.runs, Loop.finishing]
  cases p with
  | loop l | send l | delay l | ready b l => exact hloop l h
  | _ => simp_all [runs, finishing, loop?]

end Pc

/-- What a message with a result does to the continuation of an actor that awaited it. -/
def Mark.deliver : Mark → Cont → Cont
  | .result, c => c
  | .exception, _ => .fail

lemma Mark.isFrozen_deliver {mark : Mark} {c : Cont} (h : c.isFrozen = false) :
    (mark.deliver c).isFrozen = false := by
  cases mark with
  | result => exact h
  | exception => rfl

lemma Core.setMsg_cont (c : Core) (m v : ℕ) : c.setMsg m (c.cont m) v = c.setValue m v := by
  simp only [setMsg, setCont, Function.update_eq_self]

/-! ## States and steps -/

structure Queues extends Core where
  actors : ActorPlace → List ℕ := fun _ => []
  msgs : MsgPlace → List ℕ := fun _ => []

namespace Queues
variable (Q : Queues)

def modify (f : Core → Core) : Queues := { Q with toCore := f Q.toCore }

def setActors (p : ActorPlace) (l : List ℕ) : Queues :=
  { Q with actors := update Q.actors p l }

def setMsgs (p : MsgPlace) (l : List ℕ) : Queues :=
  { Q with msgs := update Q.msgs p l }

/-- A worker goes on; it has the actors in hand that it needs there. -/
def setPc (w : ℕ) (pc : Pc) : Queues := (Q.setActors (.held w) pc.holds).modify (·.setPc w pc)

@[simp]
lemma setPc_pc_self (w : ℕ) (pc : Pc) : (Q.setPc w pc).pc w = pc := Function.update_self _ _ _

/-- The steps of worker `w`. -/
inductive Step (w : ℕ) (Q : Queues) : List Obs → Queues → Prop
  /-- There is no actor, and no message from the timer. -/
  | look {p : Pc} (h : Q.pc w = .loop .work ∨ Q.pc w = .shared)
      (hp : p = .loop .work ∨ p = .shared) :
    Step w Q [] (Q.setPc w p)
  | take {i a : ℕ} {l : List ℕ} (h : Q.pc w = .loop .work ∨ Q.pc w = .shared)
    (hq : Q.actors (.ready i) = a :: l) :
    Step w Q [] ((Q.setActors (.ready i) l).setPc w (.got a))
  | post (b k : ℕ) (now : ℤ) (h : Q.pc w = .loop .work) :
    Step w Q [] (((Q.modify (·.newMsg b k now)).setMsgs (.hand w) [Q.fresh]).setPc w (.send .work))
  | expire {x : ℕ} {l : List ℕ} (h : Q.pc w = .loop .work) (hq : Q.msgs .timer = x :: l) :
    Step w Q [] (((Q.setMsgs .timer l).setMsgs (.hand w) [x]).setPc w (.send .work))
  | resume {a m : ℕ} {l : List ℕ} (h : Q.pc w = .got a) (hq : Q.msgs (.queue a) = m :: l) :
    Step w Q [.resume a (Q.cont m) (Q.value m)] (Q.setPc w (.run a m))
  | async {a m : ℕ} (b k : ℕ) (h : Q.pc w = .run a m) :
    Step w Q [.sent a b Q.fresh] ((Q.modify (·.newMsg b k (Q.baseline m))).setMsgs (.outgoing a)
      (Q.fresh :: Q.msgs (.outgoing a)))
  | after {a m : ℕ} (delay : ℤ) (k : ℕ) (h : Q.pc w = .run a m) :
    Step w Q [] ((Q.modify (·.newMsg a k (Q.baseline m + delay))).setMsgs (.outgoing a)
      (Q.fresh :: Q.msgs (.outgoing a)))
  /-- Affinity and catchers change. -/
  | own {a m : ℕ} (affinity : ℕ → ℕ) (catcher : ℕ → List Catcher) (h : Q.pc w = .run a m) :
    Step w Q [] { Q with affinity, catcher }
  /-- The continuation returns another one, or a catcher has it. -/
  | yield {a m : ℕ} (catcher : ℕ → List Catcher) (k v : ℕ) (h : Q.pc w = .run a m) :
    Step w Q [] (({ Q with catcher }.modify (·.setMsg m (.proper k) v)).setPc w (.ready a .work))
  | finish {a m : ℕ} (mark : Mark) (v : ℕ) (h : Q.pc w = .run a m) :
    Step w Q [] (Q.setPc w (.reverse a m (.freeze mark v)))
  | await {a m x : ℕ} (k : ℕ) (h : Q.pc w = .run a m) (hx : x < Q.fresh) :
    Step w Q [.await a k x] (Q.setPc w (.reverse a m (.await k x)))
  | reverse {a m x : ℕ} {k : After} {l : List ℕ} (h : Q.pc w = .reverse a m k)
    (hq : Q.msgs (.outgoing a) = x :: l) :
    Step w Q [] ((Q.setMsgs (.outgoing a) l).setMsgs (.flush w) (x :: Q.msgs (.flush w)))
  | reversed {a m : ℕ} {k : After} (h : Q.pc w = .reverse a m k) (hq : Q.msgs (.outgoing a) = []) :
    Step w Q [] (Q.setPc w (.loop (.flush a m k)))
  | flushSend {a m x : ℕ} {k : After} {l : List ℕ} (h : Q.pc w = .loop (.flush a m k))
    (hq : Q.msgs (.flush w) = x :: l) (hx : Q.baseline x = Q.baseline m) :
    Step w Q [] (((Q.setMsgs (.flush w) l).setMsgs (.hand w) [x]).setPc w (.send (.flush a m k)))
  | flushDelay {a m x : ℕ} {k : After} {l : List ℕ} (h : Q.pc w = .loop (.flush a m k))
    (hq : Q.msgs (.flush w) = x :: l) (hx : Q.baseline x ≠ Q.baseline m) :
    Step w Q [] (((Q.setMsgs (.flush w) l).setMsgs (.hand w) [x]).setPc w (.delay (.flush a m k)))
  | flushed {a m : ℕ} {mark : Mark} {v : ℕ} (h : Q.pc w = .loop (.flush a m (.freeze mark v)))
    (hq : Q.msgs (.flush w) = []) :
    Step w Q [] ((Q.modify (·.setValue m v)).setPc w (.freeze a m mark v))
  | flushedAwait {a m k x : ℕ} (h : Q.pc w = .loop (.flush a m (.await k x)))
    (hq : Q.msgs (.flush w) = []) :
    Step w Q [] ((Q.modify (·.setCont m (.proper k))).setPc w (.await a m x))
  | send {x : ℕ} {l : Loop} (h : Q.pc w = .send l) (hx : Q.msgs (.hand w) = [x])
    (hq : Q.msgs (.queue (Q.dest x)) ≠ []) :
    Step w Q [] (((Q.setMsgs (.hand w) []).setMsgs (.queue (Q.dest x))
      (Q.msgs (.queue (Q.dest x)) ++ [x])).setPc w (.loop l))
  /-- The first message makes an actor ready. -/
  | sendFirst {x : ℕ} {l : Loop} (h : Q.pc w = .send l) (hx : Q.msgs (.hand w) = [x])
    (hq : Q.msgs (.queue (Q.dest x)) = []) :
    Step w Q [] (((Q.setMsgs (.hand w) []).setMsgs (.queue (Q.dest x)) [x]).setPc w
      (.ready (Q.dest x) l))
  | delay {x : ℕ} {l : Loop} {l₁ l₂ : List ℕ} (h : Q.pc w = .delay l)
    (hx : Q.msgs (.hand w) = [x]) (hq : Q.msgs .timer = l₁ ++ l₂) :
    Step w Q [] (((Q.setMsgs (.hand w) []).setMsgs .timer (l₁ ++ x :: l₂)).setPc w (.loop l))
  | ready {b : ℕ} {l : Loop} (h : Q.pc w = .ready b l) :
    Step w Q [.ready b] ((Q.setActors (.ready (Q.affinity b))
      (Q.actors (.ready (Q.affinity b)) ++ [b])).setPc w (.loop l))
  | freeze {a m v : ℕ} {mark : Mark} (h : Q.pc w = .freeze a m mark v) :
    Step w Q [.complete m mark v] ((((Q.modify (·.setCont m (.frozen mark))).setActors
      (.waiting m) []).setActors (.woken w) (Q.actors (.waiting m))).setPc w
        (.loop (.wake a m mark v)))
  | wake {a m v b x : ℕ} {mark : Mark} {l l' : List ℕ} (h : Q.pc w = .loop (.wake a m mark v))
    (hq : Q.actors (.woken w) = b :: l) (hx : Q.msgs (.queue b) = x :: l') :
    Step w Q [] (({ Q with waitsfor := update Q.waitsfor b none }.modify
      (·.setMsg x (mark.deliver (Q.cont x)) v)).setActors (.woken w) l |>.setPc w
        (.ready b (.wake a m mark v)))
  | woken {a m v : ℕ} {mark : Mark} (h : Q.pc w = .loop (.wake a m mark v))
    (hq : Q.actors (.woken w) = []) :
    Step w Q [] (Q.setPc w (.dequeue a m))
  | dequeue {a m x : ℕ} {l : List ℕ} (h : Q.pc w = .dequeue a m)
    (hq : Q.msgs (.queue a) = x :: l) :
    Step w Q [.taken a x] ((Q.setMsgs (.queue a) l).setPc w
      (if l = [] then .loop .work else .ready a .work))
  | wait {a m x : ℕ} (h : Q.pc w = .await a m x) (hx : (Q.cont x).isFrozen = false) :
    Step w Q [] (({ Q with waitsfor := update Q.waitsfor a (some x) }.setActors
      (.waiting x) (a :: Q.actors (.waiting x))).setPc w (.loop .work))
  | frozen {a m x : ℕ} (h : Q.pc w = .await a m x) (hx : (Q.cont x).isFrozen = true) :
    Step w Q [] (Q.setPc w (.awaited a m x))
  | deliver {a m x : ℕ} {mark : Mark} (h : Q.pc w = .awaited a m x)
    (hx : Q.cont x = .frozen mark) :
    Step w Q [] ((Q.modify (·.setMsg m (mark.deliver (Q.cont m)) (Q.value x))).setPc w
      (.ready a .work))

/-! ## Invariant -/

structure Inv (Q : Queues) : Prop where
  actors : Separate Q.actors
  msgs : Separate Q.msgs
  held : ∀ w, Q.actors (.held w) = (Q.pc w).holds
  /-- The actors that are somewhere are those with messages. -/
  busy : ∀ a, Free Q.actors a ↔ Q.msgs (.queue a) = []
  known : ∀ p, ∀ x ∈ Q.msgs p, x < Q.fresh
  current : ∀ w a m, (Q.pc w).runs = some (a, m) → ∃ l, Q.msgs (.queue a) = m :: l
  /-- Actors wait for messages without a result. -/
  waiting : ∀ x, Q.actors (.waiting x) ≠ [] → (Q.cont x).isFrozen = false ∧ x < Q.fresh
  woken : ∀ w, Q.actors (.woken w) ≠ [] → (Q.pc w).waking.isSome
  waitsfor : ∀ a x, Q.waitsfor a = some x → a ∈ Q.actors (.waiting x) ∨ ∃ w, a ∈ Q.actors (.woken w)
  frozen : ∀ p, ∀ x ∈ Q.msgs p, (Q.cont x).isFrozen → ∃ w, (Q.pc w).finishing = some x
  complete : ∀ x, (Q.cont x).isFrozen → x < Q.fresh
  awaited : ∀ w a m x, Q.pc w = .awaited a m x → (Q.cont x).isFrozen
  awaits : ∀ w x, (Q.pc w).awaits = some x → x < Q.fresh
  flush : ∀ w, Q.msgs (.flush w) ≠ [] → (Q.pc w).flushing
  hand : ∀ w, (Q.msgs (.hand w)).length = (Q.pc w).inHand

end Queues
end Acton.Rts
