import Acton.Rts.Refinement

/-!
# Every actor is at one place

`scheduled`: in every state that the workers can reach, an actor is at one place at most, an actor
with messages is at some place, and no link is used by two lists. The assertions of `ENQ_ready` and
`_DEQ_ready` hold, and no worker dereferences a null pointer.
-/

namespace Acton.Rts
open LinkedLists Queues

/-- Where the actors and the messages are. -/
structure Scheduled (s : State) (actors : ActorPlace → List ℕ) (msgs : MsgPlace → List ℕ) :
    Prop where
  /-- The links of actors form the lists. -/
  actor_links : Chains ActorPlace.Linked s.next s.head actors
  /-- An actor is at one place, so its link is used by one list. -/
  actors_separate : Separate actors
  held : ∀ w, actors (.held w) = (s.pc w).holds
  msg_links : Chains (fun _ => True) s.mnext s.mhead msgs
  msgs_separate : Separate msgs
  /-- No actor with a message is forgotten. -/
  placed : ∀ a, s.mhead (.queue a) ≠ none → ∃ p, a ∈ actors p
  /-- An actor waits only for a message that will wake it. -/
  waiting : ∀ x, actors (.waiting x) ≠ [] → (s.cont x).isFrozen = false
  /-- An actor that does not wait any more is in the hands of the worker that wakes it. -/
  woken : ∀ w, actors (.woken w) ≠ [] → (s.pc w).waking.isSome
  /-- Actors that are ready, or get ready, wait for nothing. -/
  ready_waitsfor : ∀ i, ∀ a ∈ actors (.ready i), s.waitsfor a = none
  held_waitsfor : ∀ w, ∀ a ∈ (s.pc w).holds, s.waitsfor a = none

lemma Rep.scheduled_of_inv {s : State} {Q : Queues} (h : Rep s Q) (hi : Q.Inv) :
    Scheduled s Q.actors Q.msgs := by
  -- an actor that waits is in a waiting list, or about to be woken
  have hwaits {p : ActorPlace} {a : ℕ} (ha : a ∈ Q.actors p) (hp : ∀ x, p ≠ .waiting x)
      (hp' : ∀ w, p ≠ .woken w) : s.waitsfor a = none := by
    rw [h.core]
    cases hx : Q.waitsfor a with
    | none => rfl
    | some x =>
      rcases hi.waitsfor a x hx with hw | ⟨w, hw⟩
      · exact absurd (hi.actors.disjoint _ _ a ha hw) (hp x)
      · exact absurd (hi.actors.disjoint _ _ a ha hw) (hp' w)
  refine ⟨h.actors, hi.actors, fun w => ?_, h.msgs, hi.msgs, fun a ha => ?_, fun x hx => ?_,
    fun w hw => ?_, fun i a ha => hwaits ha (by simp) (by simp), fun w a ha => ?_⟩
  · rw [h.core]
    exact hi.held w
  · by_contra hfree
    rw [h.mhead_eq, (hi.busy a).mp fun p hp => hfree ⟨p, hp⟩] at ha
    exact ha rfl
  · rw [h.core]
    exact (hi.waiting x hx).1
  · rw [h.core]
    exact hi.woken w hw
  · rw [h.core, ← hi.held] at ha
    exact hwaits ha (by simp) (by simp)

lemma exists_rep {events : List (ℕ × Action)} {s : State} (h : run events = some s) :
    ∃ Q, Rep s Q ∧ Q.Inv := by
  obtain ⟨Q, hr, hi, -⟩ := exists_queues (I := fun _ _ => True) trivial
    (fun _ _ _ _ _ _ _ _ => trivial) h
  exact ⟨Q, hr, hi⟩

/-- However the workers interleave, each actor with messages is at exactly one place, no two workers
have an actor in their hands, and each worker can go on. -/
theorem scheduled {events : List (ℕ × Action)} {s : State} (h : run events = some s) :
    (∃ actors msgs, Scheduled s actors msgs) ∧
      (∀ w w' a, a ∈ (s.pc w).holds → a ∈ (s.pc w').holds → w = w') ∧
      ∀ w, s.pc w ≠ .loop .work → (∀ a m, s.pc w ≠ .run a m) → ∃ s', step s (w, .go) = some s' := by
  obtain ⟨Q, hr, hi⟩ := exists_rep h
  refine ⟨⟨_, _, hr.scheduled_of_inv hi⟩, fun w w' a ha ha' => ?_, fun w => hr.step_go hi⟩
  rw [hr.core] at ha ha'
  exact hi.holder ha ha'

/-- Actor 5 sends a message to actor 6 and awaits it, while another worker finishes that message. -/
def awaitRun : List (ℕ × Action) :=
  [(1, .post 5 0 0), (1, .go), (1, .go), (1, .dequeue), (1, .go), (1, .go), (1, .async 6 1),
    (1, .finish (.wait 2 1)), (1, .go), (1, .go), (1, .go), (1, .go), (1, .go), (2, .dequeue),
    (2, .go), (2, .go), (2, .finish (.done 9)), (1, .go), (2, .go), (2, .go), (1, .go), (2, .go)]

theorem scheduled_awaitRun : ∃ s, run awaitRun = some s ∧
    (s.pc 1, s.pc 2) = (.loop .work, .loop (.wake 6 1 .result 9)) ∧
      ∃ actors msgs, Scheduled s actors msgs := by
  have hrun : (run awaitRun).map (fun s => (s.pc 1, s.pc 2)) =
      some (.loop .work, .loop (.wake 6 1 .result 9)) := by rfl
  obtain ⟨s, hs, hpc⟩ := Option.map_eq_some_iff.mp hrun
  exact ⟨s, hs, hpc, (scheduled hs).1⟩

/-- The result of a message is final: it stays as it is, whatever the workers do later. -/
theorem result_final {events later : List (ℕ × Action)} {s s' : State} {x : ℕ}
    (h : run events = some s)
    (hlater : Trace.run step s later = some s') (hx : (s.cont x).isFrozen) :
    s'.cont x = s.cont x ∧ s'.value x = s.value x := by
  obtain ⟨Q, hr, hi⟩ := exists_rep h
  obtain ⟨-, -, -, heq⟩ := Trace.run_invariant
    (I := fun t => ∃ Q, Rep t Q ∧ Q.Inv ∧ t.cont x = s.cont x ∧ t.value x = s.value x)
    (fun t e t' ht he => by
      obtain ⟨Q, hr, hi, hc, hv⟩ := ht
      obtain ⟨Q', hQ', hr'⟩ := hr.step hi he
      rw [hr.core] at hc hv
      obtain ⟨hc', hv'⟩ := hi.frozen_stable hQ' (x := x) (hc ▸ hx)
      refine ⟨Q', hr', hi.step hQ', ?_, ?_⟩
      · rw [hr'.core, hc', hc]
      · rw [hr'.core, hv', hv]) hlater ⟨Q, hr, hi, rfl, rfl⟩
  exact heq

theorem result_final_awaitRun : ∃ s s', run awaitRun = some s ∧
    Trace.run step s [(2, .go)] = some s' ∧ s'.value 1 = s.value 1 :=
  ⟨_, _, rfl, rfl, (@result_final awaitRun [(2, .go)] _ _ 1 rfl rfl rfl).2⟩

end Acton.Rts
