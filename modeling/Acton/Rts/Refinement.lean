import Acton.Rts.Invariant

/-!
# The linked queues are queues

A state stands for queues when its links and heads form the lists of those (`Rep`). Each section
with a lock then does to the links what it should do to the lists, so each step is a step of the
queues (`Rep.step`), and no worker gets stuck (`Rep.go`).
-/

namespace Acton.Rts
open LinkedLists Queues List Option Function State

/-- The links and heads of `s` form the lists of `Q`. -/
structure Rep (s : State) (Q : Queues) : Prop where
  core : s.toCore = Q.toCore
  actors : Chains ActorPlace.Linked s.next s.head Q.actors
  tail : ∀ i, s.tail i = (Q.actors (.ready i)).getLast?
  msgs : Chains (fun _ => True) s.mnext s.mhead Q.msgs
  mtail : ∀ a, s.mtail a = (Q.msgs (.queue a)).getLast?

namespace Rep
variable {s s' : State} {Q : Queues} {a b m x w i : ℕ} {l : List ℕ}

lemma init : Rep {} {} where
  core := rfl
  actors := .empty _ _
  tail _ := rfl
  msgs := .empty _ _
  mtail _ := rfl

section
variable (h : Rep s Q)
include h

lemma head_eq {p : ActorPlace} (hp : p.Linked) : s.head p = (Q.actors p).head? :=
  h.actors.head_eq hp

lemma mhead_eq (p : MsgPlace) : s.mhead p = (Q.msgs p).head? := h.msgs.head_eq trivial

lemma mhead_of_cons {p : MsgPlace} {m : ℕ} {l : List ℕ} (hl : Q.msgs p = m :: l) :
    s.mhead p = some m := by
  rw [h.mhead_eq, hl, head?_cons]

/-! ## Changes without links -/

lemma modify (f : Core → Core) : Rep (s.modify f) (Q.modify f) where
  core := congrArg f h.core
  actors := h.actors
  tail := h.tail
  msgs := h.msgs
  mtail := h.mtail

lemma setPc (w : ℕ) (p : Pc) : Rep (s.setPc w p) (Q.setPc w p) where
  core := congrArg (·.setPc w p) h.core
  actors := h.actors.setUnlinked id
  tail i := (h.tail i).trans (by simp [Queues.setPc, setActors, Queues.modify])
  msgs := h.msgs
  mtail := h.mtail

/-! ## Actors -/

lemma enqReady (hs : Separate Q.actors) (ha : Unlinked ActorPlace.Linked Q.actors a) :
    Rep (s.enqReady a) (Q.setActors (.ready (Q.affinity a))
      (Q.actors (.ready (Q.affinity a)) ++ [a])) := by
  have haff : s.affinity a = Q.affinity a := by rw [h.core]
  have htail := h.tail (Q.affinity a)
  have htails (i : ℕ) : update s.tail (Q.affinity a) (some a) i =
      (update Q.actors (.ready (Q.affinity a)) (Q.actors (.ready (Q.affinity a)) ++ [a])
        (.ready i)).getLast? := by
    by_cases hi : i = Q.affinity a
    · simp [hi]
    · simp [hi, h.tail i]
  unfold State.enqReady
  rw [haff]
  dsimp only
  split
  · next t ht =>
    rw [ht] at htail
    exact ⟨h.core, h.actors.append hs trivial htail.symm ha, htails, h.msgs, h.mtail⟩
  · next ht =>
    have hnil : Q.actors (.ready (Q.affinity a)) = [] :=
      getLast?_eq_none_iff.mp (htail.symm.trans ht)
    refine ⟨h.core, ?_, htails, h.msgs, h.mtail⟩
    rw [hnil]
    exact h.actors.single ha

lemma deqReady (hs : Separate Q.actors) (hd : s.deqReady i = some (a, s')) :
    ∃ l, Q.actors (.ready i) = a :: l ∧ Rep s' (Q.setActors (.ready i) l) := by
  have hhead := h.head_eq (p := .ready i) trivial
  unfold State.deqReady at hd
  split at hd
  · cases hd
  · next b hb =>
    cases hd
    rw [hb] at hhead
    obtain ⟨l, hl⟩ := head?_eq_some_iff.mp hhead.symm
    have hnext : s.next a = l.head? := by
      have := h.actors (.ready i) trivial
      rw [hl] at this
      exact this.2.head_eq
    refine ⟨l, hl, h.core, (h.actors.pop hl).setNext ((hs.free_of_remove hl).unlinked _) none,
      fun j => ?_, h.msgs, h.mtail⟩
    -- the tail changes only if the queue is empty now
    rw [hnext]
    by_cases hj : j = i
    · cases l <;> simp [hj, setActors, h.tail i, hl]
    · cases l <;> simp [hj, setActors, h.tail j]

lemma addWaiting (ha : Unlinked ActorPlace.Linked Q.actors a) (hm : (Q.cont m).isFrozen = false) :
    (s.addWaiting a m).2 = true ∧
      Rep (s.addWaiting a m).1 ({ Q with waitsfor := update Q.waitsfor a (some m) }.setActors
        (.waiting m) (a :: Q.actors (.waiting m))) := by
  have hcont : (s.cont m).isFrozen = false := by rwa [h.core]
  simp only [State.addWaiting, hcont, Bool.false_eq_true, if_false, true_and]
  refine ⟨?_, h.actors.push ha, fun i => ?_, h.msgs, h.mtail⟩
  · exact congrArg (fun c => { c with waitsfor := update c.waitsfor a (some m) }) h.core
  · simp [setActors, h.tail i]

lemma freezeWaiting (w m : ℕ) (mark : Mark) :
    Rep (s.freezeWaiting w m mark) (((Q.modify (·.setCont m (.frozen mark))).setActors (.waiting m)
      []).setActors (.woken w) (Q.actors (.waiting m))) where
  core := congrArg (·.setCont m (.frozen mark)) h.core
  actors := h.actors.transfer trivial
  tail i := by simp [setActors, Queues.modify, State.freezeWaiting, State.modify, h.tail i]
  msgs := h.msgs
  mtail := h.mtail

/-- A worker takes the next of the actors that it wakes. -/
theorem popWoken (hl : Q.actors (.woken w) = a :: l) :
    Rep { s with head := update s.head (.woken w) (s.next a) }
      (Q.setActors (.woken w) l) where
  core := h.core
  actors := h.actors.pop hl
  tail i := by simp [setActors, h.tail i]
  msgs := h.msgs
  mtail := h.mtail

/-! ## Messages -/

lemma newMsg (hi : Inv Q) (b k : ℕ) (baseline : ℤ) :
    Rep (s.newMsg b k baseline) (Q.modify (·.newMsg b k baseline)) := by
  have hfresh : s.fresh = Q.fresh := by rw [h.core]
  have hnil : Q.actors (.waiting Q.fresh) = [] := by
    by_contra hne
    exact Nat.lt_irrefl _ (hi.waiting _ hne).2
  refine ⟨congrArg (·.newMsg b k baseline) h.core, ?_, h.tail, ?_, h.mtail⟩
  · -- nobody waits for a message that did not exist
    have : Chains ActorPlace.Linked s.next (update s.head (.waiting s.fresh) none)
        (update Q.actors (.waiting s.fresh) (Q.actors (.waiting s.fresh))) :=
      h.actors.update (fun j hj => update_of_ne hj _ _)
        (fun _ => by rw [update_self, hfresh, hnil]; rfl) fun _ _ _ _ _ => rfl
    rwa [update_eq_self] at this
  · rw [show (s.newMsg b k baseline).mnext = update s.mnext Q.fresh none by
      rw [← hfresh]; rfl]
    exact h.msgs.setNext (hi.free_fresh.unlinked _) none

end
section Lists
variable {p : MsgPlace}

lemma push (h : Rep s Q) (hp : ∀ a, p ≠ .queue a) (hm : Free Q.msgs m) :
    Rep (s.push p m) (Q.setMsgs p (m :: Q.msgs p)) where
  core := h.core
  actors := h.actors
  tail := h.tail
  msgs := h.msgs.push (hm.unlinked _)
  mtail a := by
    rw [show (Q.setMsgs p (m :: Q.msgs p)).msgs (.queue a) = Q.msgs (.queue a) from
      update_of_ne (hp a).symm _ _]
    exact h.mtail a

lemma pop (h : Rep s Q) (hp : ∀ a, p ≠ .queue a) (hl : Q.msgs p = m :: l) :
    Rep (s.pop p m) (Q.setMsgs p l) where
  core := h.core
  actors := h.actors
  tail := h.tail
  msgs := h.msgs.pop hl
  mtail a := by
    rw [show (Q.setMsgs p l).msgs (.queue a) = Q.msgs (.queue a) from update_of_ne (hp a).symm _ _]
    exact h.mtail a

end Lists

lemma hold (h : Rep s Q) (hm : Free Q.msgs m) : Rep (s.hold w m) (Q.setMsgs (.hand w) [m]) where
  core := h.core
  actors := h.actors
  tail := h.tail
  msgs := h.msgs.single (hm.unlinked _)
  mtail a := by simp [setMsgs, State.hold, h.mtail a]

lemma release (h : Rep s Q) : Rep (s.release w) (Q.setMsgs (.hand w) []) where
  core := h.core
  actors := h.actors
  tail := h.tail
  msgs := h.msgs.update (fun _ hj => update_of_ne hj _ _)
    (fun _ => update_self _ _ _) fun _ _ _ _ _ => rfl
  mtail a := by simp [setMsgs, State.release, h.mtail a]

/-- The message is the last one now; the result tells whether it is the only one. -/
theorem enqMsg (h : Rep s Q) (hs : Separate Q.msgs) (hm : Free Q.msgs m) :
    (s.enqMsg m a).2 = (Q.msgs (.queue a)).isEmpty ∧
      Rep (s.enqMsg m a).1 (Q.setMsgs (.queue a) (Q.msgs (.queue a) ++ [m])) := by
  have htail := h.mtail a
  have htails (b : ℕ) : update s.mtail a (some m) b =
      (update Q.msgs (.queue a) (Q.msgs (.queue a) ++ [m]) (.queue b)).getLast? := by
    by_cases hb : b = a
    · simp [hb]
    · simp [hb, h.mtail b]
  unfold State.enqMsg
  split
  · next t ht =>
    rw [ht] at htail
    refine ⟨?_, h.core, h.actors, h.tail,
      h.msgs.append hs trivial htail.symm (hm.unlinked _), htails⟩
    cases hq : Q.msgs (.queue a) with
    | nil => rw [hq] at htail; cases htail
    | cons x l => rfl
  · next ht =>
    have hnil : Q.msgs (.queue a) = [] := getLast?_eq_none_iff.mp (htail.symm.trans ht)
    refine ⟨by rw [hnil]; rfl, h.core, h.actors, h.tail, ?_, htails⟩
    rw [hnil]
    exact h.msgs.single (hm.unlinked _)

/-- The result tells whether there are more messages. -/
theorem deqMsg (h : Rep s Q) (hs : Separate Q.msgs) (hl : Q.msgs (.queue a) = m :: l) :
    (s.deqMsg a).2 = !l.isEmpty ∧ Rep (s.deqMsg a).1 (Q.setMsgs (.queue a) l) := by
  have hhead := h.mhead_of_cons hl
  have hnext : s.mnext m = l.head? := by
    have := h.msgs (.queue a) trivial
    rw [hl] at this
    exact this.2.head_eq
  simp only [State.deqMsg, hhead]
  refine ⟨by rw [hnext]; cases l <;> rfl, h.core, h.actors, h.tail,
    (h.msgs.pop hl).setNext ((hs.free_of_remove hl).unlinked _) none, fun b => ?_⟩
  dsimp only
  rw [hnext]
  by_cases hb : b = a
  · cases l <;> simp [hb, setMsgs, h.mtail a, hl]
  · cases l <;> simp [hb, setMsgs, h.mtail b]

/-! ## The timer -/

lemma timerPosition {next : ℕ} (baseline : ℤ) {n : ℕ} (hn : l.length < n)
    (hc : Chain s.mnext (s.mnext next) l) :
    ∃ l1 t l2, next :: l = l1 ++ t :: l2 ∧ s.timerPosition baseline n next = some t := by
  induction n generalizing next l with
  | zero => cases hn
  | succ n ih =>
    cases l with
    | nil =>
      refine ⟨[], next, [], rfl, ?_⟩
      rw [timerPosition, show s.mnext next = none from hc]
    | cons y l =>
      rw [timerPosition, hc.1]
      by_cases hy : s.baseline y ≤ baseline
      · obtain ⟨l1, t, l2, heq, ht⟩ := ih (Nat.lt_of_succ_lt_succ hn) hc.2
        refine ⟨next :: l1, t, l2, by rw [heq]; rfl, ?_⟩
        simp only [if_pos hy]
        exact ht
      · exact ⟨[], next, y :: l, rfl, by simp only [if_neg hy]⟩

lemma enqTimed (h : Rep s Q) (hs : Separate Q.msgs) (hknown : ∀ x ∈ Q.msgs .timer, x < Q.fresh)
    (hm : Free Q.msgs m) :
    ∃ s' l1 l2, s.enqTimed m = some s' ∧ Q.msgs .timer = l1 ++ l2 ∧
      Rep s' (Q.setMsgs .timer (l1 ++ m :: l2)) := by
  have hfirst := h.push (p := .timer) (by simp) hm
  have hhead := h.mhead_eq .timer
  have hfresh : s.fresh = Q.fresh := by rw [h.core]
  unfold State.enqTimed
  cases hq : Q.msgs .timer with
  | nil =>
    rw [hq] at hhead hfirst
    exact ⟨_, [], [], by simp only [State.push, hhead, head?_nil], rfl, hfirst⟩
  | cons x l =>
    rw [hq] at hhead hfirst
    by_cases hx : s.baseline x ≤ s.baseline m
    · have hchain := h.msgs .timer trivial
      rw [hq] at hchain
      -- there are not more messages than numbers for them
      have hlen : (x :: l).length ≤ s.fresh := by
        rw [hfresh, ← length_range (n := Q.fresh), ← hq]
        exact (List.Nodup.subperm (hs.nodup _) fun y hy =>
          mem_range.mpr (hknown y hy)).length_le
      obtain ⟨l1, t, l2, heq, ht⟩ := timerPosition (s.baseline m) hlen hchain.2
      refine ⟨{ s with mnext := update (update s.mnext t (some m)) m (s.mnext t) },
        l1 ++ [t], l2, ?_, by simp [heq], ?_⟩
      · simp only [hhead, head?_cons, if_pos hx, ht]
        rfl
      · refine ⟨h.core, h.actors, h.tail, ?_, fun a => ?_⟩
        · rw [append_assoc]
          exact h.msgs.insertAfter hs trivial (hq.trans heq) (hm.unlinked _)
        · simp [setMsgs, h.mtail a]
    · refine ⟨_, [], x :: l, ?_, rfl, hfirst⟩
      simp only [State.push, hhead, head?_cons, if_neg hx]

lemma deqTimed (h : Rep s Q) (hs : Separate Q.msgs) {now : ℤ} (hd : s.deqTimed now = some (x, s')) :
    ∃ l, Q.msgs .timer = x :: l ∧ Rep s' (Q.setMsgs .timer l) := by
  have hhead := h.mhead_eq .timer
  unfold State.deqTimed at hd
  split at hd
  · cases hd
  · next y hy =>
    split at hd
    · cases hd
      rw [hy] at hhead
      obtain ⟨l, hl⟩ := head?_eq_some_iff.mp hhead.symm
      refine ⟨l, hl, h.core, h.actors, h.tail,
        (h.msgs.pop hl).setNext ((hs.free_of_remove hl).unlinked _) none, fun a => ?_⟩
      simp [setMsgs, h.mtail a]
    · cases hd

/-! ## Steps -/

variable {e : Action}

lemma step_eq_go (hwork : s.pc w ≠ .loop .work) (hrun : ∀ a m, s.pc w ≠ .run a m) :
    Rts.step s (w, e) = if e = .go then s.go w (s.pc w) else none := by
  unfold Rts.step
  cases hpc : s.pc w with
  | loop l =>
    cases l with
    | work => exact absurd hpc hwork
    | _ => cases e <;> rfl
  | run a m => exact absurd hpc (hrun a m)
  | _ => cases e <;> rfl

lemma unlinked_of_holds (hi : Inv Q) (ha : a ∈ (Q.pc w).holds) :
    Unlinked ActorPlace.Linked Q.actors a := by
  rw [← hi.held] at ha
  intro p hp hap
  obtain rfl := hi.actors.disjoint p _ a hap ha
  exact hp

section
variable (h : Rep s Q) (hi : Inv Q)
include h hi

lemma between (hpc : Q.pc w = .loop .work) (hs : s.between w e = some s') :
    ∃ Q', Queues.Step w Q [] Q' ∧ Rep s' Q' := by
  unfold State.between at hs
  split at hs
  · split at hs
    · next a s1 hd =>
      cases hs
      obtain ⟨l, hl, hr⟩ := h.deqReady hi.actors hd
      exact ⟨_, .take (.inl hpc) hl, hr.setPc w _⟩
    · cases hs
      refine ⟨_, .look (.inl hpc) ?_, h.setPc w _⟩
      split
      · exact .inl rfl
      · exact .inr rfl
  · next b k now =>
    cases hs
    have hfresh : s.fresh = Q.fresh := by rw [h.core]
    rw [hfresh]
    exact ⟨_, .post b k now hpc, ((h.newMsg hi b k now).hold hi.free_fresh).setPc w _⟩
  · split at hs
    · next x s1 hd =>
      cases hs
      obtain ⟨l, hl, hr⟩ := h.deqTimed hi.msgs hd
      exact ⟨_, .expire hpc hl, (hr.hold (hi.msgs.free_of_remove hl)).setPc w _⟩
    · cases hs
      have hlook := Queues.Step.look (p := Q.pc w) (.inl hpc) (.inl hpc)
      rw [hi.setPc_self w] at hlook
      exact ⟨Q, hlook, h⟩
  · cases hs

lemma act (hpc : Q.pc w = .run a m) (hs : s.act w a m e = some s') :
    ∃ Q', Queues.Step w Q (observe s (w, e)) Q' ∧ Rep s' Q' := by
  have hspc : s.pc w = .run a m := by rw [h.core, hpc]
  have hfresh : s.fresh = Q.fresh := by rw [h.core]
  have hbase : s.baseline m = Q.baseline m := by rw [h.core]
  obtain ⟨l, hl⟩ := hi.current w a m (by rw [hpc]; rfl)
  have hcur := h.mhead_of_cons hl
  simp only [observe, hspc]
  cases e with
  | async b k =>
    simp only [act, hcur, bind_eq_bind, bind_some, hbase, hfresh] at hs ⊢
    cases hs
    exact ⟨_, .async b k hpc, (h.newMsg hi b k _).push (p := .outgoing a) (by simp) hi.free_fresh⟩
  | after delay k =>
    simp only [act, hcur, bind_eq_bind, bind_some, hbase, hfresh] at hs
    cases hs
    exact ⟨_, .after delay k hpc, (h.newMsg hi a k _).push (p := .outgoing a) (by simp)
      hi.free_fresh⟩
  | pin i =>
    cases hs
    exact ⟨_, .own _ _ hpc, h.modify fun c => { c with affinity := update c.affinity a i }⟩
  | pushCatcher k =>
    cases hs
    exact ⟨_, .own _ _ hpc, h.modify fun c =>
      { c with catcher := update c.catcher a ({ cont := k } :: c.catcher a) }⟩
  | popCatcher =>
    cases hs
    exact ⟨_, .own _ _ hpc, h.modify fun c =>
      { c with catcher := update c.catcher a (c.catcher a).tail }⟩
  | finish r =>
    cases r with
    | done v =>
      cases hs
      exact ⟨_, .finish .result v hpc, h.setPc w _⟩
    | cont k v =>
      cases hs
      exact ⟨_, .yield Q.catcher k v hpc, (h.modify _).setPc w _⟩
    | fail v =>
      simp only [act, finish] at hs
      split at hs
      · next c cs hc =>
        cases hs
        refine ⟨_, .yield _ c.cont valFalse hpc, (Rep.modify (h.modify fun c' => { c' with
          catcher := update c'.catcher a ({ c with xval := some v } :: cs) }) _).setPc w _⟩
      · cases hs
        exact ⟨_, .finish .exception v hpc, h.setPc w _⟩
    | wait k x =>
      simp only [act, finish, hfresh] at hs
      split at hs
      · next hx =>
        cases hs
        exact ⟨_, .await k hpc hx, h.setPc w _⟩
      · cases hs
  | _ => cases hs

lemma flushNext {k : After} (hpc : Q.pc w = .loop (.flush a m k)) :
    ∃ s' Q', s.flushNext w a m k = some s' ∧ Queues.Step w Q [] Q' ∧ Rep s' Q' := by
  obtain ⟨l, hl⟩ := hi.current w a m (by rw [hpc]; rfl)
  have hcur := h.mhead_of_cons hl
  have hhead := h.mhead_eq (.flush w)
  unfold State.flushNext
  cases hq : Q.msgs (.flush w) with
  | cons x l' =>
    rw [hq] at hhead
    have hr := (h.pop (p := .flush w) (by simp) hq).hold (w := w) (hi.msgs.free_of_remove hq)
    simp only [hhead, head?_cons, hcur, bind_eq_bind, bind_some]
    by_cases hx : ((s.pop (.flush w) x).hold w x).baseline x =
        ((s.pop (.flush w) x).hold w x).baseline m
    · rw [if_pos hx]
      rw [hr.core] at hx
      exact ⟨_, _, rfl, .flushSend hpc hq hx, hr.setPc w _⟩
    · rw [if_neg hx]
      rw [hr.core] at hx
      exact ⟨_, _, rfl, .flushDelay hpc hq hx, hr.setPc w _⟩
  | nil =>
    rw [hq] at hhead
    simp only [hhead, head?_nil]
    cases k with
    | freeze mark v => exact ⟨_, _, rfl, .flushed hpc hq, (h.modify _).setPc w _⟩
    | await k x => exact ⟨_, _, rfl, .flushedAwait hpc hq, (h.modify _).setPc w _⟩

lemma send {l : Loop} (hpc : Q.pc w = .send l) :
    ∃ s' Q', s.send w l = some s' ∧ Queues.Step w Q [] Q' ∧ Rep s' Q' := by
  have hlen := hi.hand w
  rw [hpc] at hlen
  obtain ⟨x, hx⟩ := length_eq_one_iff.mp hlen
  have hhand : s.mhead (.hand w) = some x := by rw [h.mhead_eq, hx]; rfl
  have hdest : s.dest x = Q.dest x := by rw [h.core]
  obtain ⟨hempty, hr⟩ := (h.release (w := w)).enqMsg (a := Q.dest x) (hi.msgs.remove hx)
    (hi.msgs.free_of_remove hx)
  have hqueue : (Q.setMsgs (.hand w) []).msgs (.queue (Q.dest x)) = Q.msgs (.queue (Q.dest x)) := by
    simp [setMsgs]
  rw [hqueue] at hempty hr
  simp only [State.send, hhand, hdest, bind_eq_bind, bind_some]
  by_cases hq : Q.msgs (.queue (Q.dest x)) = []
  · rw [hq] at hempty hr
    refine ⟨_, _, ?_, .sendFirst hpc hx hq, hr.setPc w _⟩
    split
    · next s1 heq => rw [heq]
    · next s1 heq =>
      rw [heq] at hempty
      cases hempty
  · refine ⟨_, _, ?_, .send hpc hx hq, hr.setPc w _⟩
    split
    · next s1 heq =>
      rw [heq] at hempty
      exact absurd (isEmpty_iff.mp hempty.symm) hq
    · next s1 heq => rw [heq]

lemma wakeNext {mark : Mark} {v : ℕ} (hpc : Q.pc w = .loop (.wake a m mark v)) :
    ∃ s' Q', s.wakeNext w a m mark v = some s' ∧ Queues.Step w Q [] Q' ∧ Rep s' Q' := by
  have hhead := h.head_eq (p := .woken w) trivial
  unfold State.wakeNext
  cases hq : Q.actors (.woken w) with
  | nil =>
    rw [hq] at hhead
    simp only [hhead, head?_nil]
    exact ⟨_, _, rfl, .woken hpc hq, h.setPc w _⟩
  | cons b l =>
    rw [hq] at hhead
    obtain ⟨x, l', hx⟩ := hi.exists_msg (hq ▸ mem_cons_self)
    have hmsg := h.mhead_of_cons hx
    simp only [hhead, head?_cons, hmsg, bind_eq_bind, bind_some]
    refine ⟨_, _, rfl, .wake hpc hq hx, Rep.setPc ?_ w _⟩
    have hr := (h.modify fun c => { c with waitsfor := update c.waitsfor b none })
    cases mark with
    | exception => exact (hr.modify (·.setMsg x .fail v)).popWoken hq
    | result =>
      -- the continuation stays as it is
      have hr := (hr.modify (·.setValue x v)).popWoken hq
      exact { hr with core := hr.core.trans (Core.setMsg_cont _ x v).symm }

lemma go (hwork : Q.pc w ≠ .loop .work) (hrun : ∀ a m, Q.pc w ≠ .run a m) :
    ∃ s' Q', s.go w (Q.pc w) = some s' ∧ Queues.Step w Q (observe s (w, .go)) Q' ∧ Rep s' Q' := by
  have hspc : s.pc w = Q.pc w := by rw [h.core]
  simp only [observe, hspc]
  cases hpc : Q.pc w with
  | run a m => exact absurd hpc (hrun a m)
  | loop l =>
    cases l with
    | work => exact absurd hpc hwork
    | flush a m k => exact h.flushNext hi hpc
    | wake a m mark v => exact h.wakeNext hi hpc
  | shared =>
    dsimp only [State.go]
    split
    · next a s1 hd =>
      obtain ⟨l, hl, hr⟩ := h.deqReady hi.actors hd
      exact ⟨_, _, rfl, .take (.inr hpc) hl, hr.setPc w _⟩
    · exact ⟨_, _, rfl, .look (.inr hpc) (.inl rfl), h.setPc w _⟩
  | got a =>
    obtain ⟨m, l, hl⟩ := hi.exists_msg (p := .held w) (a := a) (by
      rw [hi.held, hpc]; exact mem_singleton_self a)
    have hcur := h.mhead_of_cons hl
    have hc : s.cont m = Q.cont m ∧ s.value m = Q.value m := by
      rw [h.core]
      exact ⟨rfl, rfl⟩
    simp only [State.go, hcur, bind_eq_bind, bind_some, map_some, toList_some, hc.1, hc.2]
    exact ⟨_, _, rfl, .resume hpc hl, h.setPc w _⟩
  | reverse a m k =>
    have hhead := h.mhead_eq (.outgoing a)
    simp only [State.go]
    cases hq : Q.msgs (.outgoing a) with
    | nil =>
      rw [hq] at hhead
      simp only [hhead, head?_nil]
      exact ⟨_, _, rfl, .reversed hpc hq, h.setPc w _⟩
    | cons x l =>
      rw [hq] at hhead
      simp only [hhead, head?_cons]
      exact ⟨_, _, rfl, .reverse hpc hq, (h.pop (by simp) hq).push (p := .flush w) (by simp)
        (hi.msgs.free_of_remove hq)⟩
  | send l => exact h.send hi hpc
  | delay l =>
    have hlen := hi.hand w
    rw [hpc] at hlen
    obtain ⟨x, hx⟩ := length_eq_one_iff.mp hlen
    have hhand : s.mhead (.hand w) = some x := by rw [h.mhead_eq, hx]; rfl
    have htimer : (Q.setMsgs (.hand w) []).msgs .timer = Q.msgs .timer := by simp [setMsgs]
    obtain ⟨s1, l1, l2, hs1, hq, hr⟩ := (h.release (w := w)).enqTimed (hi.msgs.remove hx)
      (htimer ▸ hi.known .timer) (hi.msgs.free_of_remove hx)
    simp only [State.go, hhand, hs1, bind_eq_bind, bind_some]
    exact ⟨_, _, rfl, .delay hpc hx (htimer.symm.trans hq), hr.setPc w _⟩
  | ready b l =>
    refine ⟨_, _, rfl, .ready hpc, (h.enqReady hi.actors (unlinked_of_holds (w := w) hi ?_)).setPc w
      _⟩
    rw [hpc]
    exact mem_cons_self
  | freeze a m mark v =>
    exact ⟨_, _, rfl, .freeze hpc, (h.freezeWaiting w m mark).setPc w _⟩
  | dequeue a m =>
    obtain ⟨l, hl⟩ := hi.current w a m (by rw [hpc]; rfl)
    have hcur := h.mhead_of_cons hl
    obtain ⟨hmore, hr⟩ := h.deqMsg hi.msgs hl
    have hstep := Queues.Step.dequeue hpc hl
    simp only [State.go, hcur, map_some, toList_some]
    cases l with
    | nil =>
      refine ⟨_, _, ?_, hstep, hr.setPc w _⟩
      split
      · next s1 heq =>
        rw [heq] at hmore
        cases hmore
      · next s1 heq => rw [heq]; rfl
    | cons y l =>
      refine ⟨_, _, ?_, hstep, hr.setPc w _⟩
      split
      · next s1 heq => rw [heq]; rfl
      · next s1 heq =>
        rw [heq] at hmore
        cases hmore
  | await a m x =>
    have hcont : s.cont x = Q.cont x := by rw [h.core]
    simp only [State.go]
    cases hx : (Q.cont x).isFrozen with
    | false =>
      obtain ⟨hadd, hr⟩ := h.addWaiting (unlinked_of_holds (w := w) (a := a) hi (by
        rw [hpc]; exact mem_singleton_self a)) hx
      refine ⟨_, _, ?_, .wait hpc hx, hr.setPc w _⟩
      split
      · next s1 heq => rw [heq]
      · next s1 heq =>
        rw [heq] at hadd
        cases hadd
    | true =>
      simp only [State.addWaiting, hcont, hx, if_true]
      exact ⟨_, _, rfl, .frozen hpc hx, h.setPc w _⟩
  | awaited a m x =>
    have hcont : s.cont x = Q.cont x := by rw [h.core]
    have hvalue : s.value x = Q.value x := by rw [h.core]
    obtain ⟨mark, hx⟩ : ∃ mark, Q.cont x = .frozen mark := by
      have := hi.awaited w a m x hpc
      cases hc : Q.cont x with
      | frozen mark => exact ⟨mark, rfl⟩
      | _ => rw [hc] at this; cases this
    refine ⟨_, _, rfl, .deliver hpc hx, Rep.setPc ?_ w _⟩
    cases mark with
    | exception =>
      have hr := h.modify fun c => c.setMsg m .fail (c.value x)
      simp only [hcont, hx, if_true]
      exact { hr with core := congrArg (fun c => c.setMsg m .fail (c.value x)) h.core }
    | result =>
      have hr := h.modify fun c => c.setValue m (c.value x)
      simp only [hcont, hx, Cont.frozen.injEq, reduceCtorEq, if_false]
      exact { hr with core := hr.core.trans (Core.setMsg_cont _ m _).symm }

lemma step (hs : Rts.step s (w, e) = some s') :
    ∃ Q', Queues.Step w Q (observe s (w, e)) Q' ∧ Rep s' Q' := by
  have hspc : s.pc w = Q.pc w := by rw [h.core]
  by_cases hwork : Q.pc w = .loop .work
  · rw [Rts.step, hspc, hwork] at hs
    rw [observe, hspc, hwork]
    exact h.between hi hwork hs
  by_cases hrun : ∃ a m, Q.pc w = .run a m
  · obtain ⟨a, m, hrun⟩ := hrun
    rw [Rts.step, hspc, hrun] at hs
    exact h.act hi hrun hs
  · have hrun (a m : ℕ) (hpc : Q.pc w = .run a m) : False := hrun ⟨a, m, hpc⟩
    rw [step_eq_go (hspc ▸ hwork) (hspc ▸ hrun)] at hs
    obtain ⟨rfl, hs⟩ := ite_none_right_eq_some.mp hs
    obtain ⟨s1, Q1, hgo, hstep, hr⟩ := h.go hi hwork hrun
    rw [hspc, hgo] at hs
    cases hs
    exact ⟨Q1, hstep, hr⟩

/-- A worker that is not between two actors, and whose actor does not run, can go on. -/
theorem step_go (hwork : s.pc w ≠ .loop .work) (hrun : ∀ a m, s.pc w ≠ .run a m) :
    ∃ s', Rts.step s (w, .go) = some s' := by
  have hspc : s.pc w = Q.pc w := by rw [h.core]
  rw [step_eq_go hwork hrun, if_pos rfl, hspc]
  rw [hspc] at hwork hrun
  obtain ⟨s', _, hgo, -⟩ := h.go hi hwork hrun
  exact ⟨s', hgo⟩

end
end Rep

/-- What the steps of the queues keep holds after a run, for what was observed of it. -/
theorem exists_queues {I : Queues → List Obs → Prop} (hinit : I {} [])
    (hstep : ∀ (Q : Queues) H w o Q', Q.Inv → I Q H → Queues.Step w Q o Q' → I Q' (H ++ o))
    {events : List (ℕ × Action)} {s : State} (h : run events = some s) :
    ∃ Q, Rep s Q ∧ Q.Inv ∧ I Q (log events) := by
  have key := Trace.run_log_invariant observe (l := [])
    (I := fun s H => ∃ Q, Rep s Q ∧ Q.Inv ∧ I Q H) (fun s H e s' hs he => ?_) h
    ⟨{}, .init, .init, hinit⟩
  · exact key
  · obtain ⟨Q, hr, hi, hI⟩ := hs
    obtain ⟨Q', hQ', hr'⟩ := hr.step hi he
    exact ⟨Q', hr', hi.step hQ', hstep Q H e.1 _ Q' hi hI hQ'⟩

end Acton.Rts
