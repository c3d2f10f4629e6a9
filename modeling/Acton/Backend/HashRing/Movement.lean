import Acton.Backend.HashRing.Correctness

/-!
# Minimal movement

When a bucket is marked as dead, only the objects that it had go to other buckets, and they come
back when it is marked as live again, if and only if the counter of the live buckets is `0` neither
before nor after it (`minimal_movement`). Where the walk starts does not depend on the statuses, so
both walks go through the same nodes, and only the one bucket differs. A counter of `0` is taken for
a ring without live buckets, and there is no walk.
-/

namespace Acton.Backend
open List Option
namespace HashRing
variable {ring : HashRing} {objectId : Int32}

def bucketDead : ℤ := 1

def markBucketDead (ring : HashRing) (bucket : WORD) : Option (HashRing × ℤ) :=
  ring.setBucketStatus bucket bucketDead

def markBucketLive (ring : HashRing) (bucket : WORD) : Option (HashRing × ℤ) :=
  ring.setBucketStatus bucket bucketLive

/-- The bucket that is returned for an object, however many rounds the loop may take. -/
def Assigned (ring : HashRing) (objectId : Int32) (b : ℕ) : Prop :=
  ∃ rounds, ∀ fuel ≥ rounds, getBucketsForObject fuel ring objectId 1 = some (.bucket b)

lemma assigned_of_find? (hne : ring.liveBuckets ≠ 0) {n : WORD × ℕ}
    (hn : (ring.visited objectId).find? ring.isLive = some n) : ring.Assigned objectId n.2 :=
  ⟨_, fun _ => getBucketsForObject_of_find? hne hn⟩

lemma Assigned.liveBuckets_ne {b : ℕ} (h : ring.Assigned objectId b) : ring.liveBuckets ≠ 0 := by
  obtain ⟨rounds, hget⟩ := h
  intro hzero
  have hnull := hget rounds le_rfl
  simp [getBucketsForObject, hzero] at hnull

/-- A bucket that is live and not the one that is marked stays the first one. -/
lemma find?_of_find? {α : Type} {p q : α → Bool} {l : List α} {a : α} (h : l.find? p = some a)
    (hqp : ∀ b, q b → p b) (hq : q a) : l.find? q = some a := by
  obtain ⟨-, as, bs, rfl, has⟩ := find?_eq_some_iff_append.mp h
  refine find?_eq_some_iff_append.mpr ⟨hq, as, bs, rfl, fun b hb => ?_⟩
  have hpb : p b = false := by simpa using has b hb
  by_contra hqb
  have := hqp b (by simpa using hqb)
  simp [hpb] at this

lemma isLive_setLive_dead {b : ℕ} (n : WORD × ℕ) :
    (ring.setLive b bucketDead).isLive n ↔ ring.isLive n ∧ n.2 ≠ b := by
  by_cases hn : n.2 = b
  · simp [isLive, setLive, hn, bucketDead, bucketLive]
  · rw [isLive_setLive_of_ne hn]
    simp [hn]

/-- The ring after a live bucket is marked as dead. -/
def dead (ring : HashRing) (bucket : ℕ) : HashRing :=
  { ring.setLive bucket bucketDead with liveBuckets := ring.liveBuckets - 1 }

section
variable {key : WORD} {p : ℕ} {n : WORD × ℕ}
  (hsearch : longSearch (idHash key) ring.buckets = some (some p))
  (hp : ring.buckets[p]? = some n) (hn : ring.isLive n)
include hsearch hp hn

lemma markBucketDead_eq : ring.markBucketDead key = some (ring.dead n.2, 0) := by
  have hlive : (ring.memory n.2).live = 0 := of_decide_eq_true hn
  simp [markBucketDead, setBucketStatus, hsearch, hp, hlive, bucketDead, bucketLive, dead]

lemma markBucketLive_dead : (ring.dead n.2).markBucketLive key = some (ring, 0) := by
  have hlive : (ring.memory n.2).live = 0 := of_decide_eq_true hn
  have hback : Function.update ring.memory n.2 { ring.memory n.2 with live := 0 } =
      ring.memory := by
    rw [← hlive]
    exact Function.update_eq_self _ _
  simp [markBucketLive, setBucketStatus, setLive, hsearch, hp, bucketDead, bucketLive, dead, hback]

/-- A bucket is found by its key, marked as dead and as live again. Every object has a bucket before
and after it is marked, and another one only if it had the marked one, if and only if the counter is
not `0` before and after it. -/
theorem minimal_movement (hother : ∃ m ∈ ring.buckets, ring.isLive m ∧ m.2 ≠ n.2) :
    ∃ ring', ring.markBucketDead key = some (ring', 0) ∧ ring'.markBucketLive key = some (ring, 0) ∧
      ∀ objectId, (∃ b b', ring.Assigned objectId b ∧ ring'.Assigned objectId b' ∧
        (b' ≠ b → b = n.2)) ↔ ring.liveBuckets ≠ 0 ∧ ring.liveBuckets ≠ 1 := by
  refine ⟨_, markBucketDead_eq hsearch hp hn, markBucketLive_dead hsearch hp hn,
    fun objectId => ?_⟩
  constructor
  · rintro ⟨b, b', hb, hb', -⟩
    exact ⟨hb.liveBuckets_ne, fun hone => hb'.liveBuckets_ne (sub_eq_zero.mpr hone)⟩
  · rintro ⟨hne, hone⟩
    obtain ⟨m, hm, hmlive, hmn⟩ := hother
    have hfind (r : HashRing) (hmr : r.isLive m) :
        ∃ a, (ring.visited objectId).find? r.isLive = some a :=
      isSome_iff_exists.mp (find?_isSome.mpr ⟨m, mem_append_right _ hm, hmr⟩)
    obtain ⟨a, ha⟩ := hfind ring hmlive
    obtain ⟨a', ha'⟩ := hfind (ring.dead n.2) ((isLive_setLive_dead m).mpr ⟨hmlive, hmn⟩)
    refine ⟨a.2, a'.2, assigned_of_find? hne ha,
      assigned_of_find? (sub_ne_zero.mpr hone) ha', fun hchanged => ?_⟩
    -- a bucket that is not the marked one is still the first live one
    by_contra hab
    have hsame := find?_of_find? ha (fun b hb => ((isLive_setLive_dead b).mp hb).1)
      ((isLive_setLive_dead a).mpr ⟨find?_some ha, hab⟩)
    exact hchanged (congrArg Prod.snd (Option.some.inj (ha'.symm.trans hsame)))

end

/-- The bucket `1` of two. -/
theorem minimal_movement_exampleRing : ∃ ring', exampleRing.markBucketDead 1 = some (ring', 0) ∧
    ring'.markBucketLive 1 = some (exampleRing, 0) ∧
    ∀ objectId, ∃ b b', exampleRing.Assigned objectId b ∧ ring'.Assigned objectId b' ∧
      (b' ≠ b → b = 1) := by
  obtain ⟨ring', hdead, hlive, hiff⟩ := @minimal_movement exampleRing 1 0 _ (by decide) rfl rfl
    ⟨(1722258072, 2), by decide⟩
  exact ⟨ring', hdead, hlive, fun objectId => (hiff objectId).mpr (by decide)⟩

/-- The bucket `1` was activated without the counter. Then the bucket `2` is marked as dead, and the
objects of the bucket `1` get none. -/
theorem movement_of_activateGroup : ∃ ring ring', Trace.run call (getHashRing exampleMemory)
      [.addBucket 1, .addBucket 2, .setBucketStatus 1 bucketDead, .activateGroup 1] = some ring ∧
    ring.noLive = 2 ∧ ring.Assigned 0 1 ∧ ring.markBucketDead 2 = some (ring', 0) ∧
    ∀ fuel, getBucketsForObject fuel ring' 0 1 = some .null := by
  have hsearch : longSearch (idHash 1) exampleRing.buckets = some (some 0) ∧
      longSearch (idHash 2) exampleRing.buckets = some (some 1) := by decide
  let ring := { exampleRing.setLive 1 bucketDead with liveBuckets := 1 }.activateGroup 1
  refine ⟨ring, { ring.setLive 2 bucketDead with liveBuckets := 0 }, ?_, by decide,
    assigned_of_find? (n := (824515495, 1)) one_ne_zero (by decide), ?_, fun _ => rfl⟩
  · have hset : exampleRing.call (.setBucketStatus 1 bucketDead) =
        some { exampleRing.setLive 1 bucketDead with liveBuckets := 1 } := by
      rw [call, setBucketStatus, hsearch.1]
      rfl
    simp only [Trace.run, call_addBucket_one, call_addBucket_two, hset, bind_some]
    rfl
  · rw [markBucketDead, setBucketStatus, show ring.buckets = exampleRing.buckets from rfl,
      hsearch.2]
    rfl

end HashRing
end Acton.Backend
