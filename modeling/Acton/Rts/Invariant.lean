import Acton.Rts.Queues

/-!
# The invariant of the queues

Each step keeps `Inv`, one lemma for each of its parts.
-/

namespace Acton.Rts.Queues
open LinkedLists List Function

attribute [local simp] setPc setActors setMsgs modify Core.setPc Core.setCont Core.setValue
  Core.setMsg Core.newMsg

variable {Q Q' : Queues} {w : ℕ} {o : List Obs}

lemma Inv.init : Inv {} where
  actors := .empty
  msgs := .empty
  held _ := rfl
  busy _ := by simp [Free]
  known _ _ h := absurd h not_mem_nil
  current _ _ _ h := by cases h
  waiting _ h := absurd rfl h
  woken _ h := absurd rfl h
  waitsfor _ _ h := by cases h
  frozen _ _ h := absurd h not_mem_nil
  complete _ h := by cases h
  awaited _ _ _ _ h := by cases h
  awaits _ _ h := by cases h
  flush _ h := absurd rfl h
  hand _ := rfl

lemma Step.pc_of_ne {w' : ℕ} (hs : Step w Q o Q') (hne : w' ≠ w) : Q'.pc w' = Q.pc w' := by
  cases hs <;> simp [hne]

/-- An actor elsewhere was there before. -/
theorem Step.mem_of_step (hs : Step w Q o Q') {p : ActorPlace} {b : ℕ} (hb : b ∈ Q'.actors p)
    (hw : b ∉ (Q.pc w).holds) (hp : p ≠ .held w) (hp' : p ≠ .woken w) : b ∈ Q.actors p := by
  cases hs <;> dsimp at hb <;> grind [Pc.holds, Loop.holds, update_apply]

lemma Step.woken_of_ne (hs : Step w Q o Q') {w' : ℕ} (hne : w' ≠ w) :
    Q'.actors (.woken w') = Q.actors (.woken w') := by
  cases hs <;> simp [hne]

/-- Messages come to the end of a queue, and a worker takes only those of its actor. -/
theorem Step.queue_prefix (hs : Step w Q o Q') {b : ℕ}
    (hb : b ∉ (Q.pc w).holds ∨ ∀ x, .taken b x ∉ o) : Q.msgs (.queue b) <+: Q'.msgs (.queue b) := by
  cases hs with
  | @send x _ hpc hx hq =>
    by_cases hb : b = Q.dest x
    · simp [hb]
    · simp [hb]
  | @sendFirst x _ hpc hx hq =>
    by_cases hb : b = Q.dest x
    · simp [hb, hq]
    · simp [hb]
  | @dequeue a _ _ _ hpc hq =>
    have hne : b ≠ a := by
      rintro rfl
      rw [hpc] at hb
      rcases hb with hb | hb
      · exact hb (mem_singleton_self b)
      · exact hb _ (mem_singleton_self _)
    simp [hne]
  | _ => simp

namespace Inv
variable (h : Inv Q)
include h

lemma eq_held {a w : ℕ} {p : ActorPlace} (ha : a ∈ Q.actors p) (hw : a ∈ (Q.pc w).holds) :
    p = .held w :=
  h.actors.disjoint _ _ a ha (h.held w ▸ hw)

lemma holder {a w w' : ℕ} (ha : a ∈ (Q.pc w).holds) (ha' : a ∈ (Q.pc w').holds) : w = w' :=
  ActorPlace.held.inj (h.eq_held (h.held w ▸ ha) ha')

lemma exists_msg {p : ActorPlace} {a : ℕ} (ha : a ∈ Q.actors p) :
    ∃ m l, Q.msgs (.queue a) = m :: l :=
  exists_cons_of_ne_nil fun hnil => (h.busy a).mpr hnil p ha

/-- The actors stay where they are while a worker goes on with the same ones in hand. -/
theorem update_holds {p : Pc} (hp : p.holds = (Q.pc w).holds) :
    update Q.actors (.held w) p.holds = Q.actors := by
  rw [hp, ← h.held w]
  exact update_eq_self _ _

lemma setPc_self (w : ℕ) : Q.setPc w (Q.pc w) = Q := by
  simp only [setPc, setActors, modify, Core.setPc, h.update_holds (w := w) rfl, update_eq_self]

lemma woken_eq_nil (hp : (Q.pc w).waking = none) : Q.actors (.woken w) = [] := by
  by_contra hne
  have := h.woken w hne
  rw [hp] at this
  cases this

/-- If the first message of an actor is frozen, then a worker is about to take it out. -/
theorem finishing_of_frozen {a m : ℕ} {l : List ℕ} (hl : Q.msgs (.queue a) = m :: l)
    (hf : (Q.cont m).isFrozen) : ∃ w, a ∈ (Q.pc w).holds ∧ (Q.pc w).finishing = some m := by
  have hm : m ∈ Q.msgs (.queue a) := hl ▸ mem_cons_self
  obtain ⟨w, hw⟩ := h.frozen _ m hm hf
  obtain ⟨a', hr⟩ := Pc.runs_of_finishing hw
  obtain ⟨l', hl'⟩ := h.current w a' m hr
  have ha : MsgPlace.queue a' = .queue a := h.msgs.disjoint _ _ m (hl' ▸ mem_cons_self) hm
  obtain rfl := MsgPlace.queue.inj ha
  exact ⟨w, Pc.mem_holds_of_runs hr, hw⟩

lemma not_frozen {a m : ℕ} (hr : (Q.pc w).runs = some (a, m)) (hf : (Q.pc w).finishing = none) :
    (Q.cont m).isFrozen = false := by
  obtain ⟨l, hl⟩ := h.current w a m hr
  by_contra hne
  obtain ⟨w', ha, hw'⟩ := h.finishing_of_frozen hl (by simpa using hne)
  obtain rfl := h.holder (Pc.mem_holds_of_runs hr) ha
  rw [hf] at hw'
  cases hw'

/-- The first message of an actor that is in no worker's hands has no result. -/
theorem head_not_frozen {a m : ℕ} {l : List ℕ} {p : ActorPlace} (ha : a ∈ Q.actors p)
    (hp : p.Linked) (hl : Q.msgs (.queue a) = m :: l) : (Q.cont m).isFrozen = false := by
  by_contra hne
  obtain ⟨w, hw, -⟩ := h.finishing_of_frozen hl (by simpa using hne)
  rw [← h.held] at hw
  obtain rfl := h.actors.disjoint _ _ a ha hw
  exact hp

/-- A message that has a result keeps it. -/
theorem frozen_stable (hs : Step w Q o Q') {x : ℕ} (hx : (Q.cont x).isFrozen) :
    Q'.cont x = Q.cont x ∧ Q'.value x = Q.value x := by
  have hfresh := h.complete x hx
  -- the worker changes another message
  have hrun {a m : ℕ} (hr : (Q.pc w).runs = some (a, m)) (hf : (Q.pc w).finishing = none) :
      x ≠ m := by
    rintro rfl
    rw [h.not_frozen hr hf] at hx
    cases hx
  cases hs with
  | post | async | after => simp [Nat.ne_of_lt hfresh]
  | yield _ _ _ hpc | flushed hpc | flushedAwait hpc | freeze hpc | deliver hpc =>
    have hne := hrun (by rw [hpc]; rfl) (by rw [hpc]; rfl)
    simp [hne]
  | @wake _ _ _ _ y _ _ _ hpc hq hl =>
    have hne : x ≠ y := by
      rintro rfl
      rw [h.head_not_frozen (p := .woken w) (hq ▸ mem_cons_self) trivial hl] at hx
      cases hx
    simp [hne]
  | _ => exact ⟨rfl, rfl⟩

lemma free_fresh : Free Q.msgs Q.fresh :=
  fun p hp => Nat.lt_irrefl _ (h.known p _ hp)

section
variable (hs : Step w Q o Q')
include hs

lemma step_held (w' : ℕ) : Q'.actors (.held w') = (Q'.pc w').holds := by
  have := h.held w'
  cases hs <;> dsimp <;> grind [update_apply]

lemma step_current (w' : ℕ) : ∀ a m,
    (Q'.pc w').runs = some (a, m) → ∃ l, Q'.msgs (.queue a) = m :: l := by
  have hc := h.current w'
  cases hs with
  | @dequeue a m x l hpc hq =>
    -- no other worker runs this actor
    have hne : w' ≠ w → ∀ m, (Q.pc w').runs ≠ some (a, m) := fun hne m hr =>
      hne (h.holder (Pc.mem_holds_of_runs hr) (by rw [hpc]; exact mem_singleton_self a))
    dsimp
    grind [Pc.runs, Loop.runs, update_apply]
  | _ => dsimp; grind [Pc.runs, Loop.runs, update_apply]

lemma step_awaits (w' : ℕ) : ∀ x, (Q'.pc w').awaits = some x → x < Q'.fresh := by
  have := h.awaits w'
  cases hs <;> dsimp <;> grind [Pc.awaits, Pc.loop?, Loop.awaits, After.awaits, update_apply]

lemma step_complete (x : ℕ) : (Q'.cont x).isFrozen → x < Q'.fresh := by
  have hx := h.complete x
  cases hs with
  | @freeze a m _ _ hpc =>
    obtain ⟨l, hl⟩ := h.current w a m (by rw [hpc]; rfl)
    have hm := h.known (.queue a) m (hl ▸ mem_cons_self)
    dsimp
    grind [update_apply]
  | _ =>
    dsimp
    grind [Cont.isFrozen, Mark.isFrozen_deliver, update_apply]

lemma step_awaited (w' a m x : ℕ) : Q'.pc w' = .awaited a m x → (Q'.cont x).isFrozen := by
  intro hpc
  have hx : (Q.cont x).isFrozen := by
    by_cases hne : w' = w
    · cases hs <;> dsimp at hpc <;> grind [update_apply, h.awaited]
    · exact h.awaited w' a m x ((hs.pc_of_ne hne).symm.trans hpc)
  rw [(h.frozen_stable hs hx).1]
  exact hx

lemma step_flush (w' : ℕ) : Q'.msgs (.flush w') ≠ [] → (Q'.pc w').flushing := by
  have := h.flush w'
  cases hs <;> dsimp <;> grind [Pc.flushing, Pc.loop?, Loop.flushing, update_apply]

lemma step_hand (w' : ℕ) : (Q'.msgs (.hand w')).length = (Q'.pc w').inHand := by
  have := h.hand w'
  cases hs <;> dsimp <;> grind [Pc.inHand, update_apply]

lemma step_waiting (x : ℕ) :
    Q'.actors (.waiting x) ≠ [] → (Q'.cont x).isFrozen = false ∧ x < Q'.fresh := by
  have := h.waiting x
  have := h.awaits w
  cases hs <;> dsimp <;>
    grind [Cont.isFrozen, Pc.awaits, Pc.loop?, Loop.awaits, Mark.isFrozen_deliver, update_apply]

lemma step_woken (w' : ℕ) : Q'.actors (.woken w') ≠ [] → (Q'.pc w').waking.isSome := by
  have := h.woken w'
  cases hs <;> dsimp <;> grind [Pc.waking, Pc.loop?, Loop.waking, update_apply]

lemma step_waitsfor (a x : ℕ) : Q'.waitsfor a = some x →
    a ∈ Q'.actors (.waiting x) ∨ ∃ w, a ∈ Q'.actors (.woken w) := by
  have := h.waitsfor a x
  have hwoken := h.woken_eq_nil (w := w)
  cases hs <;> dsimp <;> grind [Pc.waking, Pc.loop?, update_apply]

lemma step_actors : Separate Q'.actors := by
  have hheld := h.held w
  cases hs with
  | take hpc hq =>
    refine h.actors.move (by simp) hq ?_
    rcases hpc with hpc | hpc <;> rw [hheld, hpc] <;> exact .refl _
  | @sendFirst x l hpc hx hq =>
    refine h.actors.insert ((h.busy _).mpr hq) ?_
    rw [hheld, hpc]
    exact .refl _
  | @ready b l hpc =>
    rw [hpc] at hheld
    have := h.actors.move (j := .ready (Q.affinity b)) (by simp) hheld
      (perm_append_singleton _ _)
    rwa [update_comm (by simp)] at this
  | @freeze a m v mark hpc =>
    have hmove := h.actors.transfer (i := .waiting m) (j := .woken w)
    refine hmove.update (nodup_singleton a) fun b hb => .inl ?_
    have hne : ActorPlace.held w ≠ .woken w ∧ ActorPlace.held w ≠ .waiting m := by simp
    rw [update_of_ne hne.1, update_of_ne hne.2, hheld, hpc]
    exact hb
  | @wake a m v b x mark l l' hpc hq hx =>
    refine h.actors.move (by simp) hq ?_
    rw [hheld, hpc]
    exact .refl _
  | @dequeue a m x l hpc hq =>
    rw [hpc] at hheld
    by_cases hl : l = []
    · simp only [setPc, setMsgs, setActors, modify, hl, if_true]
      exact h.actors.remove hheld
    · simp only [setPc, setMsgs, setActors, modify, hl, if_false]
      rw [h.update_holds (by rw [hpc]; rfl)]
      exact h.actors
  | @wait a m x hpc hx =>
    rw [hpc] at hheld
    have := h.actors.move (j := .waiting x) (by simp) hheld (.refl _)
    rwa [update_comm (by simp)] at this
  | async | after | own | reverse => exact h.actors
  | look hpc hp =>
    rcases hp with rfl | rfl <;> rcases hpc with hpc | hpc <;>
      exact (congrArg Separate (h.update_holds (by simp [hpc, Pc.holds, Loop.holds]))).mpr h.actors
  | _ =>
    exact (congrArg Separate (h.update_holds (by simp only [*, Pc.holds, Loop.holds]))).mpr h.actors

lemma step_msgs : Separate Q'.msgs := by
  have hhand := h.hand w
  have hfresh := h.free_fresh
  cases hs with
  | post b k now hpc =>
    rw [hpc] at hhand
    refine h.msgs.insert hfresh ?_
    rw [eq_nil_of_length_eq_zero hhand]
  | expire hpc hq | flushSend hpc hq | flushDelay hpc hq =>
    rw [hpc] at hhand
    refine h.msgs.move (by simp) hq ?_
    rw [eq_nil_of_length_eq_zero hhand]
  | async | after => exact h.msgs.insert hfresh (.refl _)
  | reverse hpc hq => exact h.msgs.move (by simp) hq (.refl _)
  | send hpc hx hq => exact h.msgs.move (by simp) hx (perm_append_singleton _ _)
  | sendFirst hpc hx hq =>
    refine h.msgs.move (by simp) hx ?_
    rw [hq]
  | delay hpc hx hq =>
    refine h.msgs.move (by simp) hx ?_
    rw [hq]
    exact perm_middle
  | dequeue hpc hq => exact h.msgs.remove hq
  | _ => exact h.msgs

lemma step_known (p : MsgPlace) : ∀ x ∈ Q'.msgs p, x < Q'.fresh := by
  have := h.known
  cases hs <;> dsimp <;> grind [update_apply]

lemma step_busy (a : ℕ) : Free Q'.actors a ↔ Q'.msgs (.queue a) = [] := by
  have ha := h.busy a
  have hheld := h.held w
  -- the actors are where they were
  have hsame {p : Pc} (hp : p.holds = (Q.pc w).holds) :
      Free (update Q.actors (.held w) p.holds) a ↔ Q.msgs (.queue a) = [] := by
    rwa [h.update_holds hp]
  cases hs with
  | take hpc hq =>
    refine Iff.trans (Free.move_iff h.actors (by simp) hq ?_) ha
    rcases hpc with hpc | hpc <;> rw [hheld, hpc] <;> exact .refl _
  | @send x l hpc hx hq =>
    refine (hsame (by rw [hpc]; rfl)).trans ?_
    by_cases hax : a = Q.dest x
    · simp [hax, hq]
    · simp [hax]
  | @sendFirst x l hpc hx hq =>
    refine (Free.insert_iff (L := Q.actors) (x := Q.dest x) ?_).trans ?_
    · rw [hheld, hpc]
      exact .refl _
    · by_cases hax : a = Q.dest x
      · simp [hax]
      · simp [hax, ha]
  | @ready b l hpc =>
    rw [hpc] at hheld
    have := Free.move_iff (j := .ready (Q.affinity b)) (y := a) h.actors (by simp) hheld
      (perm_append_singleton _ _)
    rw [update_comm (by simp)] at this
    exact this.trans ha
  | @freeze c m v mark hpc =>
    have hnil := h.woken_eq_nil (w := w) (by rw [hpc]; rfl)
    have hmove : Free (update (update Q.actors (.waiting m) []) (.woken w)
        (Q.actors (.waiting m))) a ↔ Free Q.actors a := Free.transfer_iff hnil
    refine Iff.trans ?_ (hmove.trans ha)
    dsimp
    rw [update_eq_self_iff.mpr]
    simp [hheld, hpc, Pc.holds, Loop.holds]
  | @wake c m v b x mark l l' hpc hq hx =>
    refine Iff.trans (Free.move_iff (L := Q.actors) h.actors (by simp) hq ?_) ha
    rw [hheld, hpc]
    exact .refl _
  | @dequeue c m x l hpc hq =>
    rw [hpc] at hheld
    by_cases hl : l = []
    · simp only [setPc, setMsgs, setActors, modify, hl, if_true]
      refine (Free.remove_iff h.actors hheld).trans ?_
      by_cases hac : a = c
      · simp [hac]
      · simp [hac, ha]
    · simp only [setPc, setMsgs, setActors, modify, hl, if_false]
      refine (hsame (by rw [hpc]; rfl)).trans ?_
      by_cases hac : a = c
      · simp [hac, hq, hl]
      · simp [hac]
  | @wait c m x hpc hx =>
    rw [hpc] at hheld
    have := Free.move_iff (j := .waiting x) (y := a) h.actors (by simp) hheld (.refl _)
    rw [update_comm (by simp)] at this
    exact this.trans ha
  | async | after | own | reverse => exact ha
  | look hpc hp =>
    rcases hp with rfl | rfl <;> rcases hpc with hpc | hpc <;>
      exact hsame (by simp [hpc, Pc.holds, Loop.holds])
  | _ => exact hsame (by simp only [*, Pc.holds, Loop.holds])

lemma step_frozen (p : MsgPlace) : ∀ x ∈ Q'.msgs p,
    (Q'.cont x).isFrozen → ∃ w, (Q'.pc w).finishing = some x := by
  intro x hx hc
  -- the message was frozen before, and not by this worker, or the worker still has it
  have hold : (Q'.pc w).finishing = some x ∨
      ∃ q, x ∈ Q.msgs q ∧ (Q.cont x).isFrozen ∧ (Q.pc w).finishing ≠ some x := by
    cases hs with
    | @dequeue a m y l hpc hq =>
      refine .inr ?_
      obtain ⟨_, hm⟩ := h.current w a m (by rw [hpc]; rfl)
      have hfree := h.msgs.free_of_remove hq
      have hne : y ≠ x := fun heq => hfree p (heq ▸ hx)
      dsimp at hx hc
      grind [Pc.finishing, update_apply]
    | _ =>
      dsimp at hx hc ⊢
      grind [Cont.isFrozen, Pc.finishing, Pc.loop?, Loop.finishing, Mark.isFrozen_deliver,
        update_apply]
  rcases hold with hw | ⟨q, hq, hf, hw⟩
  · exact ⟨w, hw⟩
  · obtain ⟨w', hw'⟩ := h.frozen q x hq hf
    have hne : w' ≠ w := by
      rintro rfl
      exact hw hw'
    exact ⟨w', by rwa [hs.pc_of_ne hne]⟩

lemma step : Inv Q' where
  actors := h.step_actors hs
  msgs := h.step_msgs hs
  held := h.step_held hs
  busy := h.step_busy hs
  known := h.step_known hs
  current := h.step_current hs
  waiting := h.step_waiting hs
  woken := h.step_woken hs
  waitsfor := h.step_waitsfor hs
  frozen := h.step_frozen hs
  complete := h.step_complete hs
  awaited := h.step_awaited hs
  awaits := h.step_awaits hs
  flush := h.step_flush hs
  hand := h.step_hand hs

end
end Inv
end Acton.Rts.Queues
