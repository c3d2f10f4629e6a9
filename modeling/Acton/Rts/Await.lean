import Acton.Rts.Scheduling

/-!
# Awaiting a message

What an actor may expect of `$AWAIT` is a small system of its own, `Awaits`: it has the phase of
each actor and the outcome of each message. The observations of every run are accepted by it
(`exists_awaits`). So an actor that awaits a message is made ready once, after the message has its
outcome, and goes on with that: `await_correct`.
-/

namespace Acton.Rts
open LinkedLists Queues List Function Option

/-! ## Specification -/

inductive Phase where
  | free
  /-- The actor awaits `x`, to go on with `k`. -/
  | awaiting (k x : ℕ)
  /-- The actor is ready to go on. -/
  | resuming (c : Cont) (v : ℕ)
  deriving DecidableEq

structure Awaits where
  phase : ℕ → Phase := fun _ => .free
  outcome : ℕ → Option (Mark × ℕ) := fun _ => none

namespace Awaits
variable (σ : Awaits)

def setPhase (a : ℕ) (p : Phase) : Awaits := { σ with phase := Function.update σ.phase a p }

def setOutcome (x : ℕ) (r : Mark × ℕ) : Awaits :=
  { σ with outcome := Function.update σ.outcome x (some r) }

def step : Obs → Option Awaits
  | .await a k x => if σ.phase a = .free then some (σ.setPhase a (.awaiting k x)) else none
  | .complete x mark v => if σ.outcome x = none then some (σ.setOutcome x (mark, v)) else none
  | .ready a =>
    match σ.phase a with
    | .free => some σ
    | .awaiting k x =>
      (σ.outcome x).map fun r => σ.setPhase a (.resuming (r.1.deliver (.proper k)) r.2)
    -- a second time is too much
    | .resuming _ _ => none
  | .resume a c v =>
    match σ.phase a with
    | .free => some σ
    | .awaiting _ _ => none
    | .resuming c' v' => if (c, v) = (c', v') then some (σ.setPhase a .free) else none
  | .sent _ _ _ => some σ
  | .taken _ _ => some σ

end Awaits

/-! ## What the queues have to do with it -/

namespace Queues
variable (Q : Queues)

def outcome (x : ℕ) : Option (Mark × ℕ) :=
  match Q.cont x with
  | .frozen mark => some (mark, Q.value x)
  | _ => none

/-- What an actor would go on with. -/
def top (a : ℕ) : Option (Cont × ℕ) := (Q.msgs (.queue a)).head?.map fun m => (Q.cont m, Q.value m)

end Queues
section Tracks
variable (Q : Queues) (σ : Awaits)

/-- An actor in a ready queue has what it is to go on with. -/
def Resumes (a : ℕ) : Prop :=
  σ.phase a = .free ∨ ∃ c v, σ.phase a = .resuming c v ∧ Q.top a = some (c, v)

def Waits (a x : ℕ) : Prop := ∃ k v, σ.phase a = .awaiting k x ∧ Q.top a = some (.proper k, v)

/-- An actor that gets ready has the outcome of what it awaits. -/
def Wakes (a : ℕ) : Prop :=
  σ.phase a = .free ∨ ∃ k x mark v, σ.phase a = .awaiting k x ∧ Q.outcome x = some (mark, v) ∧
    Q.top a = some (mark.deliver (.proper k), v)

def TracksAfter (a : ℕ) : After → Prop
  | .freeze _ _ => σ.phase a = .free
  | .await k x => σ.phase a = .awaiting k x

def TracksLoop : Loop → Prop
  | .work => True
  | .flush a _ k => TracksAfter σ a k
  | .wake a _ _ _ => σ.phase a = .free

/-- The actors in the hands of a worker. -/
def TracksPc : Pc → Prop
  | .loop l => TracksLoop σ l
  | .shared => True
  | .got a => Resumes Q σ a
  | .run a _ => σ.phase a = .free
  | .reverse a _ k => TracksAfter σ a k
  | .send l => TracksLoop σ l
  | .delay l => TracksLoop σ l
  | .ready b l => Wakes Q σ b ∧ TracksLoop σ l
  | .freeze a _ _ v => σ.phase a = .free ∧ ∃ c, Q.top a = some (c, v)
  | .dequeue a _ => σ.phase a = .free
  | .await a _ x => Waits Q σ a x
  | .awaited a _ x => Waits Q σ a x

/-- The phases of the actors are those that their places tell. -/
structure Tracks : Prop where
  outcome : ∀ x, σ.outcome x = Q.outcome x
  free : ∀ a, Q.msgs (.queue a) = [] → σ.phase a = .free
  ready : ∀ i, ∀ a ∈ Q.actors (.ready i), Resumes Q σ a
  waiting : ∀ x, ∀ a ∈ Q.actors (.waiting x), Waits Q σ a x
  woken : ∀ w x mark v, (Q.pc w).waking = some (x, mark, v) →
    Q.outcome x = some (mark, v) ∧ ∀ a ∈ Q.actors (.woken w), Waits Q σ a x
  pc : ∀ w, TracksPc Q σ (Q.pc w)

end Tracks

/-! ## What a step leaves as it is -/

variable {r : Mark × ℕ}
namespace Queues

attribute [local simp] setPc setActors setMsgs modify Core.setPc Core.setCont Core.setValue
  Core.setMsg Core.newMsg

variable {Q Q' : Queues} {w : ℕ} {o : List Obs}

lemma outcome_of_frozen {x : ℕ} {mark : Mark} (h : Q.cont x = .frozen mark) :
    Q.outcome x = some (mark, Q.value x) := by
  rw [outcome, h]

lemma outcome_eq_none {x : ℕ} (h : (Q.cont x).isFrozen = false) : Q.outcome x = none := by
  unfold outcome
  split
  · next mark hm => rw [hm] at h; cases h
  · rfl

lemma isFrozen_of_outcome {x : ℕ} (h : Q.outcome x = some r) : (Q.cont x).isFrozen := by
  by_contra hne
  rw [outcome_eq_none (by simpa using hne)] at h
  cases h

lemma top_of_cons {a m : ℕ} {l : List ℕ} (h : Q.msgs (.queue a) = m :: l) :
    Q.top a = some (Q.cont m, Q.value m) := by
  rw [top, h]
  rfl

lemma top_eq_some {a m v : ℕ} {c : Cont} {l : List ℕ} (h : Q.msgs (.queue a) = m :: l)
    (hc : Q.cont m = c) (hv : Q.value m = v) : Q.top a = some (c, v) := by
  rw [top_of_cons h, hc, hv]

namespace Inv
variable (h : Inv Q) (hs : Step w Q o Q')
include h hs

lemma outcome_stable {x : ℕ} (hx : Q.outcome x = some r) : Q'.outcome x = some r := by
  obtain ⟨hc, hv⟩ := h.frozen_stable hs (isFrozen_of_outcome hx)
  rw [← hx, outcome, outcome, hc, hv]

/-- Only `FREEZE_waiting` gives a message its outcome. -/
theorem outcome_eq (ho : ∀ x mark v, .complete x mark v ∉ o) (x : ℕ) :
    Q'.outcome x = Q.outcome x := by
  cases hx : (Q.cont x).isFrozen with
  | true =>
    obtain ⟨hc, hv⟩ := h.frozen_stable hs hx
    rw [outcome, outcome, hc, hv]
  | false =>
    rw [outcome_eq_none hx, outcome_eq_none]
    cases hs with
    | freeze => exact absurd mem_cons_self (ho _ _ _)
    | _ =>
      dsimp
      grind [Cont.isFrozen, Mark.isFrozen_deliver, update_apply]

/-- The first message of an actor that is not in the hands of the worker stays as it is. -/
theorem top_eq {p : ActorPlace} {b : ℕ} (hb : b ∈ Q.actors p) (hw : b ∉ (Q.pc w).holds)
    (hw' : b ∉ (Q'.pc w).holds) : Q'.top b = Q.top b := by
  obtain ⟨m, l, hm⟩ := h.exists_msg hb
  have hmem : m ∈ Q.msgs (.queue b) := hm ▸ mem_cons_self
  obtain ⟨l', hl'⟩ := hs.queue_prefix (.inl hw)
  rw [top_of_cons hm, top_of_cons (l := l ++ l') (by rw [← hl', hm]; rfl)]
  -- the message that changes is the first one of another actor
  have hother {a m' : ℕ} {l : List ℕ} (ha : b ≠ a) (hm' : Q.msgs (.queue a) = m' :: l) :
      m ≠ m' := by
    rintro rfl
    exact ha (MsgPlace.queue.inj (h.msgs.disjoint _ _ m hmem (hm' ▸ mem_cons_self)))
  have hrun {a m' : ℕ} (hr : (Q.pc w).runs = some (a, m')) : m ≠ m' := by
    obtain ⟨l, hl⟩ := h.current w a m' hr
    exact hother (fun heq => hw (heq ▸ Pc.mem_holds_of_runs hr)) hl
  cases hs with
  | post | async | after => simp [Nat.ne_of_lt (h.known _ m hmem)]
  | yield _ _ _ hpc | flushed hpc | flushedAwait hpc | freeze hpc | deliver hpc =>
    simp [hrun (by rw [hpc]; rfl)]
  | @wake _ _ _ c _ _ _ _ hpc hq hl =>
    have hne : b ≠ c := by
      rintro rfl
      simp [Pc.holds] at hw'
    simp [hother hne hl]
  | _ => rfl

end Inv
end Queues
section Step

attribute [local simp] setPc setActors setMsgs Queues.modify Core.setPc Core.setCont Core.setValue
  Core.setMsg Core.newMsg

variable {Q Q' : Queues} {σ σ' : Awaits} {w : ℕ} {o : List Obs}

lemma TracksLoop.congr {l : Loop} (h : TracksLoop σ l)
    (hσ : ∀ b ∈ l.holds, σ'.phase b = σ.phase b) : TracksLoop σ' l := by
  cases l with
  | work => trivial
  | flush a m k =>
    have ha := hσ a mem_cons_self
    cases k <;> exact ha.trans h
  | wake a => exact (hσ a mem_cons_self).trans h

/-- Only the actors in the hands of the worker matter. -/
theorem TracksPc.congr {p : Pc} (h : TracksPc Q σ p) (hσ : ∀ b ∈ p.holds, σ'.phase b = σ.phase b)
    (htop : ∀ b ∈ p.holds, Q'.top b = Q.top b)
    (hout : ∀ x r, Q.outcome x = some r → Q'.outcome x = some r) : TracksPc Q' σ' p := by
  cases p with
  | loop l | send l | delay l => exact TracksLoop.congr h hσ
  | shared => trivial
  | ready b l =>
    refine ⟨?_, h.2.congr fun c hc => hσ c (mem_cons_of_mem b hc)⟩
    have hb := hσ b mem_cons_self
    have htop := htop b mem_cons_self
    unfold Wakes
    rw [hb, htop]
    rcases h.1 with hfree | ⟨k, x, mark, v, hphase, hx, ht⟩
    · exact .inl hfree
    · exact .inr ⟨k, x, mark, v, hphase, hout _ _ hx, ht⟩
  | reverse a m k =>
    have ha := hσ a mem_cons_self
    cases k <;> exact ha.trans h
  | got a | run a | freeze a | dequeue a | await a | awaited a =>
    have ha := hσ a mem_cons_self
    have htop := htop a mem_cons_self
    simpa only [TracksPc, Resumes, Waits, ha, htop] using h

/-- It is enough to look at the actors in the hands of the worker, before the step or after it. -/
theorem Tracks.of_step (h : Tracks Q σ) (hi : Q.Inv) (hs : Queues.Step w Q o Q')
    (hσ : ∀ b, b ∉ (Q.pc w).holds → σ'.phase b = σ.phase b)
    (hout : ∀ x, σ'.outcome x = Q'.outcome x) (hfree : ∀ b x, .taken b x ∈ o → σ'.phase b = .free)
    (hready : ∀ i, ∀ b ∈ Q'.actors (.ready i), b ∈ (Q.pc w).holds → Resumes Q' σ' b)
    (hwaiting : ∀ x, ∀ b ∈ Q'.actors (.waiting x), b ∈ (Q.pc w).holds → Waits Q' σ' b x)
    (hwoken : ∀ x mark v, (Q'.pc w).waking = some (x, mark, v) →
      Q'.outcome x = some (mark, v) ∧ ∀ a ∈ Q'.actors (.woken w), Waits Q' σ' a x)
    (hpc : TracksPc Q' σ' (Q'.pc w)) : Tracks Q' σ' := by
  have hi' := hi.step hs
  have hout' : ∀ b p, b ∈ Q'.actors p → p ≠ .held w → b ∉ (Q'.pc w).holds := fun b p hb hp hw =>
    hp (hi'.eq_held hb hw)
  -- an actor elsewhere was there before, and has the same phase and first message
  have hsame {p : ActorPlace} {b : ℕ} (hb : b ∈ Q'.actors p) (hw : b ∉ (Q.pc w).holds)
      (hp : p ≠ .held w) (hp' : p ≠ .woken w) :
      b ∈ Q.actors p ∧ σ'.phase b = σ.phase b ∧ Q'.top b = Q.top b := by
    have hmem := hs.mem_of_step hb hw hp hp'
    exact ⟨hmem, hσ b hw, hi.top_eq hs hmem hw (hout' b p hb hp)⟩
  refine ⟨hout, fun b hb => ?_, fun i b hb => ?_, fun x b hb => ?_, fun w' x mark v hx => ?_,
    fun w' => ?_⟩
  · by_cases htaken : ∃ x, .taken b x ∈ o
    · obtain ⟨x, hx⟩ := htaken
      exact hfree b x hx
    · have hnil := prefix_nil.mp (hb ▸ hs.queue_prefix (.inr (not_exists.mp htaken)))
      rw [hσ b fun hw => (hi.busy b).mpr hnil _ (hi.held w ▸ hw)]
      exact h.free b hnil
  · by_cases hw : b ∈ (Q.pc w).holds
    · exact hready i b hb hw
    · obtain ⟨hmem, hphase, htop⟩ := hsame hb hw (by simp) (by simp)
      simpa only [Resumes, hphase, htop] using h.ready i b hmem
  · by_cases hw : b ∈ (Q.pc w).holds
    · exact hwaiting x b hb hw
    · obtain ⟨hmem, hphase, htop⟩ := hsame hb hw (by simp) (by simp)
      simpa only [Waits, hphase, htop] using h.waiting x b hmem
  · by_cases hne : w' = w
    · subst hne
      exact hwoken x mark v hx
    · rw [hs.pc_of_ne hne] at hx
      obtain ⟨hx, hw⟩ := h.woken w' x mark v hx
      refine ⟨hi.outcome_stable hs hx, fun b hb => ?_⟩
      have hbQ := hs.woken_of_ne hne ▸ hb
      have hheld : b ∉ (Q.pc w).holds := fun hb' => by cases hi.eq_held hbQ hb'
      have htop := hi.top_eq hs hbQ hheld (hout' b _ hb (by simp))
      simpa only [Waits, hσ b hheld, htop] using hw b hbQ
  · by_cases hne : w' = w
    · subst hne
      exact hpc
    · have hnot {b : ℕ} (hb : b ∈ (Q.pc w').holds) : b ∉ (Q.pc w).holds := fun hw =>
        hne (hi.holder hb hw)
      rw [hs.pc_of_ne hne]
      refine (h.pc w').congr (fun b hb => hσ b (hnot hb)) (fun b hb => ?_)
        fun x r => hi.outcome_stable hs
      refine hi.top_eq hs (p := .held w') (hi.held w' ▸ hb) (hnot hb) fun hw => hne ?_
      rw [← hs.pc_of_ne hne] at hb
      exact hi'.holder hb hw

lemma Tracks.step_silent (h : Tracks Q σ) (hi : Q.Inv) (hs : Queues.Step w Q [] Q') :
    Tracks Q' σ := by
  have hi' := hi.step hs
  have hout := hi.outcome_eq hs (by simp)
  refine h.of_step hi hs (fun _ _ => rfl) (fun x => (h.outcome x).trans (hout x).symm)
    (by simp) (fun i b hb hw => ?_) (fun x b hb hw => ?_) (fun x mark v hx => ?_) ?_
  · -- `ENQ_ready` is observed
    have : b ∈ Q.actors (.ready i) := by
      cases hs <;> dsimp at hb <;> grind [update_apply]
    cases hi.eq_held this hw
  · have hpc := h.pc w
    by_cases hmem : b ∈ Q.actors (.waiting x)
    · cases hi.eq_held hmem hw
    · cases hs with
      | @wait a m y hpcw hy =>
        obtain ⟨rfl, rfl⟩ : x = y ∧ b = a := by
          dsimp at hb
          grind [update_apply]
        rw [hpcw] at hpc
        exact hpc
      | _ =>
        dsimp at hb
        exact absurd (by grind [update_apply]) hmem
  · have hwaking : (Q.pc w).waking = some (x, mark, v) := by
      cases hs <;> dsimp at hx <;> grind [Pc.waking, Pc.loop?, Loop.waking, update_apply]
    obtain ⟨hy, hwaits⟩ := h.woken w x mark v hwaking
    refine ⟨(hout x).trans hy, fun b hb => ?_⟩
    have hmem : b ∈ Q.actors (.woken w) := by
      cases hs <;> dsimp at hb <;> grind [update_apply]
    have htop := hi.top_eq hs hmem (fun hw => by cases hi.eq_held hmem hw) fun hw => by
      cases hi'.eq_held hb hw
    simpa only [Waits, htop] using hwaits b hmem
  · have hpc := h.pc w
    cases hs with
    | look hpcw hp =>
      rw [setPc_pc_self]
      rcases hp with rfl | rfl <;> trivial
    | take hpcw hq =>
      rw [setPc_pc_self]
      exact h.ready _ _ (hq ▸ mem_cons_self)
    | post | expire | wait =>
      rw [setPc_pc_self]
      trivial
    | after _ _ hpcw | own _ _ hpcw | reverse hpcw =>
      rw [hpcw] at hpc
      refine Eq.mpr (congrArg (TracksPc _ σ) hpcw) hpc
    | yield _ _ _ hpcw =>
      rw [hpcw] at hpc
      rw [setPc_pc_self]
      exact ⟨.inl hpc, trivial⟩
    | finish _ _ hpcw | reversed hpcw | flushSend hpcw | flushDelay hpcw | send hpcw | delay hpcw
    | woken hpcw | frozen hpcw =>
      rw [hpcw] at hpc
      rw [setPc_pc_self]
      exact hpc
    | @flushed a m _ v hpcw =>
      obtain ⟨l, hl⟩ := hi.current w a m (by rw [hpcw]; rfl)
      rw [hpcw] at hpc
      rw [setPc_pc_self]
      exact ⟨hpc, Q.cont m, top_eq_some hl rfl (by simp)⟩
    | @flushedAwait a m k x hpcw =>
      obtain ⟨l, hl⟩ := hi.current w a m (by rw [hpcw]; rfl)
      rw [hpcw] at hpc
      rw [setPc_pc_self]
      exact ⟨k, Q.value m, hpc, top_eq_some hl (by simp) rfl⟩
    | sendFirst hpcw hx hq =>
      rw [hpcw] at hpc
      rw [setPc_pc_self]
      exact ⟨.inl (h.free _ hq), hpc⟩
    | @wake a m v b y mark _ _ hpcw hq hl =>
      obtain ⟨hm, hwaits⟩ := h.woken w m mark v (by rw [hpcw]; rfl)
      obtain ⟨k, v', hphase, htop⟩ := hwaits b (hq ▸ mem_cons_self)
      rw [top_of_cons hl, Option.some.injEq, Prod.mk.injEq] at htop
      rw [hpcw] at hpc
      rw [setPc_pc_self]
      exact ⟨.inr ⟨k, m, mark, v, hphase, (hout m).trans hm,
        top_eq_some hl (by simp [htop.1]) (by simp)⟩, hpc⟩
    | @deliver a m x mark hpcw hx =>
      obtain ⟨l, hl⟩ := hi.current w a m (by rw [hpcw]; rfl)
      rw [hpcw] at hpc
      obtain ⟨k, v', hphase, htop⟩ := hpc
      rw [top_of_cons hl, Option.some.injEq, Prod.mk.injEq] at htop
      rw [setPc_pc_self]
      exact ⟨.inr ⟨k, x, mark, Q.value x, hphase, (hout x).trans (outcome_of_frozen hx),
        top_eq_some hl (by simp [htop.1]) (by simp)⟩, trivial⟩

/-- An actor in a ready queue can go on. -/
theorem Resumes.accepted {a v : ℕ} {c : Cont} (h : Resumes Q σ a) (ht : Q.top a = some (c, v)) :
    ∃ σ', Awaits.step σ (.resume a c v) = some σ' ∧ σ'.phase a = .free ∧
      (∀ b, b ≠ a → σ'.phase b = σ.phase b) ∧ σ'.outcome = σ.outcome := by
  rcases h with hfree | ⟨c', v', hphase, htop⟩
  · exact ⟨σ, by rw [Awaits.step, hfree], hfree, fun _ _ => rfl, rfl⟩
  · obtain ⟨rfl, rfl⟩ := Prod.mk.inj (mem_unique ht htop)
    refine ⟨σ.setPhase a .free, ?_, update_self _ _ _, fun b hb => update_of_ne hb _ _, rfl⟩
    simp only [Awaits.step, hphase, if_true]

/-- An actor that has the outcome of what it awaits can be made ready. -/
theorem Wakes.accepted {a : ℕ} (h : Wakes Q σ a) (hout : σ.outcome = Q.outcome) :
    ∃ σ', Awaits.step σ (.ready a) = some σ' ∧ Resumes Q σ' a ∧
      (∀ b, b ≠ a → σ'.phase b = σ.phase b) ∧ σ'.outcome = σ.outcome := by
  rcases h with hfree | ⟨k, x, mark, v, hphase, hx, htop⟩
  · exact ⟨σ, by rw [Awaits.step, hfree], .inl hfree, fun _ _ => rfl, rfl⟩
  · refine ⟨σ.setPhase a (.resuming (mark.deliver (.proper k)) v), ?_,
      .inr ⟨_, v, update_self _ _ _, htop⟩, fun b hb => update_of_ne hb _ _, rfl⟩
    simp only [Awaits.step, hphase, hout, hx, map_some]

lemma Tracks.of_step_of_eq (h : Tracks Q σ) (hi : Q.Inv) (hs : Queues.Step w Q o Q')
    (hσ : ∀ b, b ∉ (Q.pc w).holds → σ'.phase b = σ.phase b)
    (hout : ∀ x, σ'.outcome x = Q'.outcome x) (hfree : ∀ b x, .taken b x ∈ o → σ'.phase b = .free)
    (hactors : ∀ p, p ≠ .held w → Q'.actors p = Q.actors p) (hwaking : (Q'.pc w).waking = none)
    (hpc : TracksPc Q' σ' (Q'.pc w)) : Tracks Q' σ' := by
  have hin {p : ActorPlace} {b : ℕ} (hb : b ∈ Q'.actors p) (hw : b ∈ (Q.pc w).holds)
      (hp : p ≠ .held w) : False := by
    rw [hactors p hp] at hb
    exact hp (hi.eq_held hb hw)
  refine h.of_step hi hs hσ hout hfree (fun i b hb hw => (hin hb hw (by simp)).elim)
    (fun x b hb hw => (hin hb hw (by simp)).elim) (fun x mark v hx => ?_) hpc
  rw [hwaking] at hx
  cases hx

lemma Tracks.step (h : Tracks Q σ) (hi : Q.Inv) (hs : Queues.Step w Q o Q') :
    ∃ σ', Trace.run Awaits.step σ o = some σ' ∧ Tracks Q' σ' := by
  have hpc := h.pc w
  have hi' := hi.step hs
  have hs' := hs
  -- actors that are not in hand are other ones
  have hne {a b : ℕ} (ha : a ∈ (Q.pc w).holds) (hb : b ∉ (Q.pc w).holds) : b ≠ a :=
    fun heq => hb (heq ▸ ha)
  cases hs with
  | @resume a m l hpcw hq =>
    rw [hpcw] at hpc hne
    obtain ⟨σ', hσ', hfree, hphase, hout⟩ := hpc.accepted (top_of_cons hq)
    refine ⟨σ', by rw [Trace.run, hσ']; rfl, h.of_step_of_eq hi hs' (fun b hb => hphase b ?_)
      (fun x => ?_) (by simp) (fun p hp => by simp [hp]) ?_ ?_⟩
    · rw [hpcw] at hb
      exact hne mem_cons_self hb
    · rw [hout]
      exact h.outcome x
    · rw [setPc_pc_self]
      rfl
    · rwa [setPc_pc_self]
  | async b k hpcw =>
    rw [hpcw] at hpc
    refine ⟨σ, rfl, h.of_step_of_eq hi hs' (fun _ _ => rfl)
      (fun x => (h.outcome x).trans (hi.outcome_eq hs' (by simp) x).symm) (by simp)
      (fun _ _ => rfl) ?_ ?_⟩
    · exact congrArg Pc.waking hpcw
    · exact Eq.mpr (congrArg (TracksPc _ σ) hpcw) hpc
  | @await a m x k hpcw hx =>
    rw [hpcw] at hpc hne
    refine ⟨σ.setPhase a (.awaiting k x), ?_, h.of_step_of_eq hi hs' (fun b hb => ?_) h.outcome
      (by simp) (fun p hp => by simp [hp]) ?_ ?_⟩
    · simp only [Trace.run, Awaits.step]
      rw [if_pos (show σ.phase a = .free from hpc)]
      rfl
    · rw [hpcw] at hb
      exact update_of_ne (hne mem_cons_self hb) _ _
    · rw [setPc_pc_self]
      rfl
    · rw [setPc_pc_self]
      exact update_self _ _ _
  | @dequeue a m x l hpcw hq =>
    rw [hpcw] at hpc
    refine ⟨σ, rfl, h.of_step_of_eq hi hs' (fun _ _ => rfl)
      (fun x => (h.outcome x).trans (hi.outcome_eq hs' (by simp) x).symm) (fun b y hb => ?_)
      (fun p hp => by simp [hp]) ?_ ?_⟩
    · obtain ⟨rfl, -⟩ : b = a ∧ y = x := by simpa using hb
      exact hpc
    · rw [setPc_pc_self]
      split <;> rfl
    · rw [setPc_pc_self]
      split
      · trivial
      · exact ⟨.inl hpc, trivial⟩
  | @ready b l hpcw =>
    rw [hpcw] at hpc hne
    obtain ⟨σ', hσ', hresumes, hphase, hout⟩ := hpc.1.accepted (funext h.outcome)
    have hnodup : (b :: l.holds).Nodup := by
      have := hi.actors.nodup (.held w)
      rwa [hi.held, hpcw] at this
    refine ⟨σ', by rw [Trace.run, hσ']; rfl, h.of_step hi hs' (fun c hc => hphase c ?_) (fun x =>
      ?_)
      (by simp) (fun i c hc hw => ?_) (fun x c hc hw => ?_) (fun x mark v hx => ?_) ?_⟩
    · rw [hpcw] at hc
      exact hne mem_cons_self hc
    · rw [hout]
      exact h.outcome x
    · by_cases hcb : c = b
      · rw [hcb]
        exact hresumes
      · have : c ∈ Q.actors (.ready i) := by
          dsimp at hc
          grind [update_apply]
        cases hi.eq_held this hw
    · cases hi.eq_held (p := .waiting x) (by simpa using hc) hw
    · rw [setPc_pc_self] at hx
      obtain ⟨hx, hwaits⟩ := h.woken w x mark v (by rw [hpcw]; exact hx)
      refine ⟨hx, fun c hc => ?_⟩
      have hcb : c ≠ b := by
        rintro rfl
        cases hi.eq_held hc (by rw [hpcw]; exact mem_cons_self)
      obtain ⟨k, v', hk, htop⟩ := hwaits c hc
      exact ⟨k, v', (hphase c hcb).trans hk, htop⟩
    · rw [setPc_pc_self]
      refine hpc.2.congr fun c hc => hphase c ?_
      rintro rfl
      exact (nodup_cons.mp hnodup).1 hc
  | @freeze a m v mark hpcw =>
    obtain ⟨l, hl⟩ := hi.current w a m (by rw [hpcw]; rfl)
    have hnone := outcome_eq_none (hi.not_frozen (w := w) (by rw [hpcw]; rfl) (by rw [hpcw]; rfl))
    rw [hpcw] at hpc
    obtain ⟨hfree, c, htop⟩ := hpc
    rw [top_of_cons hl, Option.some.injEq, Prod.mk.injEq] at htop
    refine ⟨σ.setOutcome m (mark, v), ?_, h.of_step hi hs' (fun _ _ => rfl) (fun x => ?_)
      (by simp) (fun i b hb hw => ?_) (fun x b hb hw => ?_) (fun x mark' v' hx => ?_) ?_⟩
    · simp only [Trace.run, Awaits.step, h.outcome, hnone, if_true]
      rfl
    · by_cases hx : x = m
      · subst hx
        refine (update_self _ _ _).trans (Eq.symm ?_)
        rw [← htop.2]
        exact outcome_of_frozen (by simp)
      · refine (update_of_ne hx _ _).trans ((h.outcome x).trans ?_)
        simp [Queues.outcome, hx]
    · cases hi.eq_held (p := .ready i) (by simpa using hb) hw
    · have : b ∈ Q.actors (.waiting x) := by
        dsimp at hb
        grind [update_apply]
      cases hi.eq_held this hw
    · rw [setPc_pc_self] at hx
      obtain ⟨rfl, rfl, rfl⟩ : m = x ∧ mark = mark' ∧ v = v' := by
        simpa [Pc.waking, Pc.loop?, Loop.waking] using hx
      refine ⟨?_, fun b hb => ?_⟩
      · rw [← htop.2]
        exact outcome_of_frozen (by simp)
      · have hmem : b ∈ Q.actors (.waiting m) := by simpa using hb
        have htop := hi.top_eq hs' hmem (fun hw => by cases hi.eq_held hmem hw) fun hw => by
          cases hi'.eq_held hb hw
        obtain ⟨k, v', hk, ht⟩ := h.waiting m b hmem
        exact ⟨k, v', hk, htop.trans ht⟩
    · rw [setPc_pc_self]
      exact hfree
  | _ => exact ⟨σ, rfl, h.step_silent hi hs'⟩

end Step

lemma Tracks.init : Tracks {} {} where
  outcome _ := rfl
  free _ _ := rfl
  ready _ _ h := absurd h not_mem_nil
  waiting _ _ h := absurd h not_mem_nil
  woken _ _ _ _ h := by cases h
  pc _ := trivial

lemma exists_awaits {events : List (ℕ × Action)} {s : State} (h : run events = some s) :
    ∃ σ, Trace.run Awaits.step {} (log events) = some σ := by
  obtain ⟨Q, -, -, σ, hσ, -⟩ := exists_queues
    (I := fun Q H => ∃ σ, Trace.run Awaits.step {} H = some σ ∧ Tracks Q σ) ⟨{}, rfl, .init⟩
    (fun Q H w o Q' hi ⟨σ, hσ, ht⟩ hs => by
      obtain ⟨σ', hσ', ht'⟩ := ht.step hi hs
      exact ⟨σ', Trace.run_append_eq_some.mpr ⟨σ, hσ, hσ'⟩, ht'⟩) h
  exact ⟨σ, hσ⟩

/-! ## What is accepted -/

namespace Awaits
variable {σ σ' : Awaits} {H : List Obs} {a k x : ℕ}

lemma step_ready (h : step σ (.ready a) = some σ') : (σ.phase a = .free ∧ σ' = σ) ∨
    ∃ k x mark v, σ.phase a = .awaiting k x ∧ σ.outcome x = some (mark, v) ∧
      σ' = σ.setPhase a (.resuming (mark.deliver (.proper k)) v) := by
  simp only [step] at h
  split at h
  · next hfree =>
    cases h
    exact .inl ⟨hfree, rfl⟩
  · next k x hphase =>
    obtain ⟨⟨mark, v⟩, hx, rfl⟩ := map_eq_some_iff.mp h
    exact .inr ⟨k, x, mark, v, hphase, hx, rfl⟩
  · cases h

/-- Only a new outcome changes the outcomes. -/
theorem outcome_eq {e : Obs} (h : step σ e = some σ') (he : ∀ x mark v, e ≠ .complete x mark v) :
    σ'.outcome = σ.outcome := by
  cases e with
  | ready a => rcases step_ready h with ⟨-, rfl⟩ | ⟨k, x, mark, v, -, -, rfl⟩ <;> rfl
  | complete x mark v => exact absurd rfl (he x mark v)
  | await | resume | sent | taken =>
    simp only [step] at h
    grind [setPhase]

lemma outcome_stable {e : Obs} (h : step σ e = some σ') (hx : σ.outcome x = some r) :
    σ'.outcome x = some r := by
  by_cases he : ∃ y mark v, e = .complete y mark v
  · obtain ⟨y, mark, v, rfl⟩ := he
    obtain ⟨hy, hσ'⟩ := ite_none_right_eq_some.mp h
    cases hσ'
    have hne : x ≠ y := by
      rintro rfl
      rw [hy] at hx
      cases hx
    exact (update_of_ne hne _ _).trans hx
  · rwa [outcome_eq h fun y mark v heq => he ⟨y, mark, v, heq⟩]

/-- Only its own observations change the phase of an actor. -/
theorem phase_eq {e : Obs} (h : step σ e = some σ') (hawait : ∀ k x, e ≠ .await a k x)
    (hready : e ≠ .ready a) (hresume : ∀ c v, e ≠ .resume a c v) : σ'.phase a = σ.phase a := by
  have hset {b : ℕ} (p : Phase) (hb : a ≠ b) : (σ.setPhase b p).phase a = σ.phase a :=
    update_of_ne hb _ _
  cases e with
  | ready b =>
    rcases step_ready h with ⟨-, rfl⟩ | ⟨k, x, mark, v, -, -, rfl⟩
    · rfl
    · exact hset _ fun heq => hready (heq ▸ rfl)
  | await | complete | resume | sent | taken =>
    simp only [step] at h
    grind [setOutcome]

/-- The outcome of a message is the one that it was observed to have. -/
theorem outcome_iff (h : Trace.run step {} H = some σ) {mark : Mark} {v : ℕ} :
    σ.outcome x = some (mark, v) ↔ .complete x mark v ∈ H := by
  induction H using List.reverseRecOn generalizing σ with
  | nil =>
    cases h
    simp
  | append_singleton H e ih =>
    obtain ⟨σ1, h1, he⟩ := Trace.run_concat_eq_some.mp h
    have ih := ih h1
    rw [mem_append, mem_singleton, ← ih]
    cases e with
    | complete y mark' v' =>
      simp only [step] at he
      split at he
      · next hnone =>
        cases he
        by_cases hy : x = y
        · subst hy
          simp [setOutcome, hnone, eq_comm]
        · simp [setOutcome, hy]
      · cases he
    | _ => simp [outcome_eq he]

/-- Until an actor goes on, it awaits the message, or was made ready once with the outcome. -/
theorem pending (h : Trace.run step σ H = some σ') (ha : σ.phase a = .awaiting k x)
    (hH : ∀ c v, .resume a c v ∉ H) :
    (σ'.phase a = .awaiting k x ∧ H.count (.ready a) = 0) ∨
      ∃ mark v, σ'.phase a = .resuming (mark.deliver (.proper k)) v ∧
        σ'.outcome x = some (mark, v) ∧ H.count (.ready a) = 1 := by
  induction H using List.reverseRecOn generalizing σ' with
  | nil =>
    cases h
    exact .inl ⟨ha, rfl⟩
  | append_singleton H e ih =>
    obtain ⟨σ1, h1, he⟩ := Trace.run_concat_eq_some.mp h
    have ih := ih h1 fun c v hmem => hH c v (mem_append_left _ hmem)
    have hlast : ∀ c v, e ≠ .resume a c v := fun c v heq => hH c v (by simp [heq])
    have hphase : σ1.phase a ≠ .free := by
      rcases ih with ⟨hk, -⟩ | ⟨mark, v, hk, -⟩ <;> simp [hk]
    have hawait : ∀ k x, e ≠ .await a k x := by
      rintro k x rfl
      rw [step, if_neg hphase] at he
      cases he
    rw [count_append]
    by_cases hready : e = .ready a
    · subst hready
      rcases step_ready he with ⟨hfree, -⟩ | ⟨k', x', mark, v, hk', hx, rfl⟩
      · exact absurd hfree hphase
      · rcases ih with ⟨hk, hcount⟩ | ⟨mark, v, hk, -⟩
        · obtain ⟨rfl, rfl⟩ : k' = k ∧ x' = x := by simpa [hk] using hk'.symm
          exact .inr ⟨mark, v, update_self _ _ _, hx, by simp [hcount]⟩
        · rw [hk] at hk'
          cases hk'
    · rw [phase_eq he hawait hready hlast, count_singleton, if_neg (by simpa using hready)]
      rcases ih with ih | ⟨mark, v, hk, hx, hcount⟩
      · exact .inl ih
      · exact .inr ⟨mark, v, hk, outcome_stable he hx, hcount⟩

end Awaits

/-- From the time when an actor awaits a message to the time when it goes on, it is made ready at
most once, and not before the message has its outcome; it goes on with that outcome. A message has
one outcome. -/
theorem await_correct {events : List (ℕ × Action)} {s : State} (h : run events = some s)
    {before between rest : List Obs} {a k x : ℕ}
    (hlog : log events = before ++ .await a k x :: (between ++ rest))
    (hbetween : ∀ c v, .resume a c v ∉ between) :
    between.count (.ready a) ≤ 1 ∧
      (.ready a ∈ between → ∃ mark v, .complete x mark v ∈ before ++ between) ∧
      (∀ c v, rest.head? = some (.resume a c v) → between.count (.ready a) = 1 ∧
        ∃ mark, .complete x mark v ∈ before ++ between ∧ c = mark.deliver (.proper k)) ∧
      ∀ mark mark' v v', .complete x mark v ∈ log events → .complete x mark' v' ∈ log events →
        (mark, v) = (mark', v') := by
  obtain ⟨σ, hσ⟩ := exists_awaits h
  have hone {mark mark' : Mark} {v v' : ℕ} (hv : .complete x mark v ∈ log events)
      (hv' : .complete x mark' v' ∈ log events) : (mark, v) = (mark', v') := by
    rw [← Awaits.outcome_iff hσ] at hv hv'
    exact mem_unique hv hv'
  rw [hlog] at hσ
  obtain ⟨σ1, h1, hσ⟩ := Trace.run_append_eq_some.mp hσ
  obtain ⟨σ2, h2, hσ⟩ := Trace.run_cons_eq_some.mp hσ
  obtain ⟨σ3, h3, hσ⟩ := Trace.run_append_eq_some.mp hσ
  -- the await is accepted, and what follows it is that of an actor that awaits
  have hawait : σ2.phase a = .awaiting k x := by
    obtain ⟨-, hσ2⟩ := ite_none_right_eq_some.mp h2
    cases hσ2
    exact update_self _ _ _
  have hprefix : Trace.run Awaits.step {} (before ++ .await a k x :: between) = some σ3 :=
    Trace.run_append_eq_some.mpr ⟨σ1, h1, Trace.run_cons_eq_some.mpr ⟨σ2, h2, h3⟩⟩
  have hcomplete {mark : Mark} {v : ℕ} (hx : σ3.outcome x = some (mark, v)) :
      .complete x mark v ∈ before ++ between := by
    simpa using (Awaits.outcome_iff hprefix).mp hx
  have hpending := Awaits.pending h3 hawait hbetween
  refine ⟨by omega, fun hmem => ?_, fun c v hrest => ?_, fun mark mark' v v' => hone⟩
  · rcases hpending with ⟨-, hcount⟩ | ⟨mark, v, -, hx, -⟩
    · exact absurd (count_eq_zero.mp hcount) (not_not_intro hmem)
    · exact ⟨mark, v, hcomplete hx⟩
  · obtain ⟨rest, rfl⟩ := head?_eq_some_iff.mp hrest
    obtain ⟨σ4, h4, -⟩ := Trace.run_cons_eq_some.mp hσ
    rcases hpending with ⟨hk, -⟩ | ⟨mark, v', hk, hx, hcount⟩
    · simp only [Awaits.step, hk] at h4
      cases h4
    · simp only [Awaits.step, hk] at h4
      obtain ⟨hcv, -⟩ := ite_none_right_eq_some.mp h4
      obtain ⟨rfl, rfl⟩ := Prod.mk.inj hcv
      exact ⟨hcount, mark, hcomplete hx, rfl⟩

/-- Actor 5 goes on with the result of the message that it awaits. -/
theorem await_correct_awaitRun :
    (∃ s, run (awaitRun ++ [(2, .go), (2, .go), (1, .dequeue), (1, .go), (1, .go)]) = some s) ∧
      ∃ mark, .complete 1 mark 9 ∈ [Obs.ready 5, .resume 5 (.proper 0) 1, .sent 5 6 1] ++
        [.ready 6, .resume 6 (.proper 1) 1, .complete 1 .result 9, .ready 5] ∧
          Cont.proper 2 = mark.deliver (.proper 2) := by
  have hrun : (run (awaitRun ++
      [(2, .go), (2, .go), (1, .dequeue), (1, .go), (1, .go)])).isSome := by rfl
  obtain ⟨s, hs⟩ := isSome_iff_exists.mp hrun
  have hlog : log (awaitRun ++ [(2, .go), (2, .go), (1, .dequeue), (1, .go), (1, .go)]) =
      [Obs.ready 5, .resume 5 (.proper 0) 1, .sent 5 6 1] ++ .await 5 2 1 ::
        ([.ready 6, .resume 6 (.proper 1) 1, .complete 1 .result 9, .ready 5] ++
          [.resume 5 (.proper 2) 9]) := by rfl
  exact ⟨⟨s, hs⟩, ((await_correct hs hlog (by simp)).2.2.1 _ _ rfl).2⟩

end Acton.Rts
