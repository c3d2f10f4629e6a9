import Acton.Backend.HashRing.Correctness

/-!
# Finding a bucket by its id

`hash32` puts different ids at different positions. If the positions are close enough for the
comparison of the skiplist, each id finds its bucket (`lookupBucket_correct`). Otherwise the
comparison can go round in a circle, and a bucket on the ring is not found.
-/

namespace Acton.Backend
open List Option Function

lemma xorShift_injective : Injective fun x : UInt32 => (x >>> 16) ^^^ x := by
  refine Involutive.injective fun x => UInt32.toBitVec_inj.mp ?_
  ext i hi
  by_cases h : 16 + i < 32 <;> simp <;> grind

lemma hash32_injective : Injective hash32 := by
  -- the factor is odd
  have hmul : Injective fun x : UInt32 => x * 0x45d9f3b :=
    LeftInverse.injective (g := (· * 0x119de1f3)) fun x =>
      (UInt32.mul_assoc x _ _).trans (UInt32.mul_one x)
  exact xorShift_injective.comp <| hmul.comp <| xorShift_injective.comp <|
    hmul.comp xorShift_injective

lemma idHash_eq_iff {k k' : WORD} : idHash k = idHash k' ↔ k.toUInt32 = k'.toUInt32 := by
  rw [idHash, idHash, UInt32.toUInt64_inj]
  exact hash32_injective.eq_iff

namespace HashRing

def lookupBucket (ring : HashRing) (bucketId : WORD) : Option (Option (WORD × ℕ)) := do
  let p ← longSearch (idHash bucketId) ring.buckets
  some (p.bind (ring.buckets[·]?))

/-- A call of `add_bucket` that does not reject the bucket. -/
def add (ring : HashRing) (bucket : ℕ) : Option HashRing := do
  let (ring, status) ← ring.addBucket bucket
  if status = 0 then some ring else none

variable {S : Set WORD} {memory : ℕ → Bucket} {bs : List ℕ}

lemma exists_run_add (hS : Close S) (hbs : ∀ b ∈ bs, idHash (memory b).key ∈ S)
    (hids : bs.Pairwise fun a b => idHash (memory a).key ≠ idHash (memory b).key) :
    ∃ ring, Trace.run add (getHashRing memory) bs = some ring ∧ ring.Ok S memory ∧
      ∀ b, b ∈ ring.buckets.map Prod.snd ↔ b ∈ bs := by
  induction bs using List.reverseRecOn with
  | nil =>
    exact ⟨_, rfl, ⟨Chain.nil, by simp [getHashRing], fun _ => rfl⟩, by simp [getHashRing]⟩
  | append_singleton bs b ih =>
    obtain ⟨hids, -, hb⟩ := pairwise_append.mp hids
    obtain ⟨ring, hrun, h, hmem⟩ := ih (fun a ha => hbs a (mem_append_left _ ha)) hids
    obtain ⟨ring', st, hadd, h', -, hperm⟩ := h.addBucket hS (hbs b (by simp))
    obtain ⟨hst, hperm⟩ := hperm fun n hn => by
      rw [h.hash n hn]
      exact hb n.2 ((hmem _).mp (mem_map_of_mem hn)) b (mem_singleton_self b)
    refine ⟨ring', Trace.run_concat_eq_some.mpr ⟨ring, hrun, by simp [add, hadd, hst]⟩, h',
      fun a => ?_⟩
    rw [(hperm.map Prod.snd).mem_iff, map_cons, mem_cons, hmem, mem_append, mem_singleton, or_comm]

/-- Buckets with different ids and close positions are added, and an id finds the one that has
it. -/
theorem lookupBucket_correct (hS : Close S) (hbs : ∀ b ∈ bs, idHash (memory b).key ∈ S)
    (hids : bs.Pairwise fun a b => (memory a).key.toUInt32 ≠ (memory b).key.toUInt32) :
    Injective hash32 ∧ ∃ ring, Trace.run add (getHashRing memory) bs = some ring ∧
      ∀ bucketId, ∃ r, ring.lookupBucket bucketId = some r ∧
        ∀ b, r.map Prod.snd = some b ↔ b ∈ bs ∧ (memory b).key.toUInt32 = bucketId.toUInt32 := by
  obtain ⟨ring, hrun, h, hmem⟩ := exists_run_add hS hbs (hids.imp fun hne =>
    mt idHash_eq_iff.mp hne)
  refine ⟨hash32_injective, ring, hrun, fun id => ?_⟩
  -- a bucket with the id is that of a node with its hash
  have hnode (b : ℕ) : b ∈ bs ∧ (memory b).key.toUInt32 = id.toUInt32 ↔
      ∃ n ∈ ring.buckets, n.1 = idHash id ∧ n.2 = b := by
    rw [← hmem, List.mem_map, ← idHash_eq_iff]
    constructor
    · rintro ⟨⟨n, hn, rfl⟩, heq⟩
      exact ⟨n, hn, (h.hash n hn).trans heq, rfl⟩
    · rintro ⟨n, hn, heq, rfl⟩
      exact ⟨⟨n, hn, rfl⟩, (h.hash n hn).symm.trans heq⟩
  simp only [hnode]
  rcases h.search_cases hS id with ⟨hsearch, hne⟩ | ⟨p, n, hsearch, hp, hn⟩
  · refine ⟨none, by rw [lookupBucket, hsearch]; rfl, fun b => ?_⟩
    exact iff_of_false (by simp) fun ⟨n, hn, heq, _⟩ => hne n hn heq
  · have hnmem := mem_of_getElem? hp
    refine ⟨some n, by simp [lookupBucket, hsearch, hp], fun b => ?_⟩
    rw [map_some, Option.some_inj]
    refine ⟨fun heq => ⟨n, hnmem, hn, heq⟩, fun ⟨m, hm, hmn, heq⟩ => ?_⟩
    rw [← inj_on_of_nodup_map h.nodup_fst hm hnmem (hmn.trans hn.symm), heq]

theorem lookupBucket_correct_two : ∃ ring,
    Trace.run add (getHashRing exampleMemory) [1, 2] = some ring ∧
      ∀ bucketId, ∃ r, ring.lookupBucket bucketId = some r ∧ ∀ b, r.map Prod.snd = some b ↔
        b ∈ [1, 2] ∧ (exampleMemory b).key.toUInt32 = bucketId.toUInt32 :=
  (lookupBucket_correct close_lowHashes (by decide) (by decide)).2

/-- The third bucket comes before the first one, and the second one is not found any more. -/
theorem lookupBucket_misses : (Trace.run add (getHashRing exampleMemory) [1, 2, 3]).bind
    (lookupBucket · 2) = some none := by
  decide

end HashRing
end Acton.Backend
