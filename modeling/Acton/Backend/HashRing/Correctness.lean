import Acton.Backend.HashRing
import Acton.ToMathlib.Trace
import Mathlib.Data.List.TakeWhile

/-!
# Correctness of the hash ring

`hashRing_correct`: if the hashes of the buckets are less than `2 ^ 31` apart, the counter of live
buckets is right and objects get their buckets in every run, if and only if
* no status is changed without the counter, as `activate_group` and `deactivate_group` do, or
  between two numbers that both stand for a dead bucket, and
* at most one bucket is asked for, or no bucket is live: the loop of `get_buckets_for_object`
  returns the first live bucket it meets, where the callers expect a skiplist.
-/

namespace Acton.Backend
open SortedNodes List Option Function Trace
namespace HashRing

/-! ## Hashes -/

lemma toInt64_toUInt64 (x : UInt32) : toInt64 x.toUInt64 = x.toNat := by
  have hlt := x.toNat_lt
  rw [toInt64, BitVec.toInt_eq_toNat_of_lt]
  · simp
  · simp only [UInt32.toBitVec_toUInt64]
    simp
    omega

lemma longCmp_toUInt64_eq_zero {x y : UInt32} : longCmp x.toUInt64 y.toUInt64 = 0 ↔ x = y := by
  have hx := x.toNat_lt
  have hy := y.toNat_lt
  rw [longCmp, toInt64_toUInt64, toInt64_toUInt64, ← UInt32.toNat_inj]
  constructor
  · intro h
    have := Int.dvd_of_bmod_eq_zero h
    omega
  · intro h
    simp [h]

/-! ## The invariant -/

/-- The nodes are sorted by the hashes of their buckets, which are in `S`. The keys do not
change. -/
structure Ok (S : Set WORD) (memory : ℕ → Bucket) (ring : HashRing) : Prop where
  chain : Chain S ring.buckets
  hash : ∀ n ∈ ring.buckets, n.1 = idHash (memory n.2).key
  key : ∀ b, (ring.memory b).key = (memory b).key

variable {S : Set WORD} {memory : ℕ → Bucket} {ring ring' : HashRing} {n : WORD × ℕ}

lemma Ok.nodup_fst (h : ring.Ok S memory) : (ring.buckets.map Prod.fst).Nodup := by
  rw [List.Nodup, pairwise_map]
  exact h.chain.sorted.imp fun hlt heq => absurd hlt (by rw [heq]; exact lt_irrefl _)

lemma Ok.nodup (h : ring.Ok S memory) : (ring.buckets.map Prod.snd).Nodup := by
  refine List.Nodup.of_map (fun b => idHash (memory b).key) ?_
  have hmap : (ring.buckets.map Prod.snd).map (fun b => idHash (memory b).key) =
      ring.buckets.map Prod.fst := by
    rw [List.map_map]
    exact map_congr_left fun n hn => (h.hash n hn).symm
  rw [hmap]
  exact h.nodup_fst

/-- A search for a hash finds the node with that hash. The hash need not be close to those of the
ring. -/
theorem Ok.search_cases (h : ring.Ok S memory) (hS : Close S) (key : WORD) :
    (longSearch (idHash key) ring.buckets = some none ∧ ∀ n ∈ ring.buckets, n.1 ≠ idHash key) ∨
      ∃ p n, longSearch (idHash key) ring.buckets = some (some p) ∧ ring.buckets[p]? = some n ∧
        n.1 = idHash key := by
  by_cases hkey : idHash key ∈ S
  · rcases h.chain.search_cases hS hkey with ⟨hfind, hsearch⟩ | ⟨p, b, -, hsearch, hp⟩
    · refine .inl ⟨hsearch, fun n hn heq => ?_⟩
      rw [← heq, h.chain.find_of_mem hn] at hfind
      cases hfind
    · exact .inr ⟨p, _, hsearch, hp, rfl⟩
  · have hne : ∀ n ∈ ring.buckets, n.1 ≠ idHash key := fun n hn heq => hkey (heq ▸ h.chain.mem n hn)
    obtain ⟨r, hr⟩ := exists_longSearch (idHash key) ring.buckets
    cases r with
    | none => exact .inl ⟨hr, hne⟩
    | some p =>
      -- a node that is found has the same hash
      obtain ⟨_ | q, hq, hr⟩ := bind_eq_some_iff.mp hr
      · cases hr
      · obtain ⟨n, hn, hcmp⟩ := exists_of_search hq
        have hmem := mem_of_getElem? hn
        refine absurd ?_ (hne n hmem)
        rw [h.hash n hmem] at hcmp ⊢
        have heq := longCmp_toUInt64_eq_zero.mp (Option.some.inj hcmp)
        exact congrArg UInt32.toUInt64 heq.symm

/-! ## The counter -/

lemma Ok.addBucket (h : ring.Ok S memory) (hS : Close S) {b : ℕ} (hb : idHash (memory b).key ∈ S) :
    ∃ ring' st, ring.addBucket b = some (ring', st) ∧ ring'.Ok S memory ∧
      (ring.liveBuckets = ring.noLive → ring'.liveBuckets = ring'.noLive) ∧
      ((∀ n ∈ ring.buckets, n.1 ≠ idHash (memory b).key) →
        st = 0 ∧ ring'.buckets.Perm ((idHash (memory b).key, b) :: ring.buckets)) := by
  simp only [HashRing.addBucket, h.key b]
  rcases h.search_cases hS (memory b).key with ⟨hsearch, hne⟩ | ⟨p, n, hsearch, hp, hn⟩
  · obtain ⟨as, m, bs, hcut⟩ := h.chain.sorted.exists_cut (toInt64 (idHash (memory b).key))
    -- there is no node with the hash
    obtain rfl : m = none := by
      refine eq_none_iff_forall_ne_some.mpr fun n hn => ?_
      subst hn
      exact hne n (by rw [hcut.eq]; simp) (toInt64_injective (hcut.mid n rfl))
    have hinsert := hcut.insert hS.ranked h.chain.mem hb b
    have hm : ∀ n ∈ some (idHash (memory b).key, b), n.1 = idHash (memory b).key := by simp
    have hchain := h.chain.of_cut hcut hb hm
    have heq : ring.buckets = as ++ bs := by simpa using hcut.eq
    refine ⟨⟨ring.memory, as ++ (idHash (memory b).key, b) :: bs,
      if (ring.memory b).live = bucketLive then ring.liveBuckets + 1 else ring.liveBuckets⟩, 0, ?_,
      ⟨?_, ?_, h.key⟩, ?_, fun _ => ⟨rfl, heq ▸ perm_middle⟩⟩
    · rw [hsearch]
      simp only [bind_eq_bind, bind_some, longInsert, hinsert, isSome_none]
      rfl
    · simpa using hchain
    · intro n hn
      rcases mem_append.mp hn with hn | hn
      · exact h.hash n (by rw [heq]; simp [hn])
      · rcases mem_cons.mp hn with rfl | hn
        · rfl
        · exact h.hash n (by rw [heq]; simp [hn])
    · intro hlive
      change _ = (((as ++ (idHash (memory b).key, b) :: bs).countP ring.isLive : ℕ) : ℤ)
      have hself : ring.isLive (idHash (memory b).key, b) ↔ (ring.memory b).live = bucketLive := by
        simp [isLive]
      rw [noLive, heq, countP_append] at hlive
      simp only [countP_append, countP_cons, hself, hlive]
      split <;> omega
  · refine ⟨ring, -1, ?_, h, id, fun hne => absurd hn (hne n (mem_of_getElem? hp))⟩
    rw [hsearch]
    rfl

lemma memory_setLive (b : ℕ) (status : ℤ) : (ring.setLive b status).memory =
    Function.update ring.memory b { ring.memory b with live := status } := rfl

lemma Ok.setLive (h : ring.Ok S memory) (b : ℕ) (status : ℤ) :
    (ring.setLive b status).Ok S memory := by
  refine ⟨h.chain, h.hash, fun b' => ?_⟩
  rw [← h.key b', memory_setLive]
  by_cases hb : b' = b
  · subst hb
    rw [update_self]
  · rw [update_of_ne hb]

lemma isLive_setLive_of_ne {b : ℕ} {status : ℤ} (hn : n.2 ≠ b) :
    (ring.setLive b status).isLive n = ring.isLive n := by
  rw [isLive, isLive, memory_setLive, update_of_ne hn]

/-- One bucket counts before and after its status is written. -/
theorem Ok.noLive_setLive (h : ring.Ok S memory) (hn : n ∈ ring.buckets) (status : ℤ) :
    (ring.setLive n.2 status).noLive + (if ring.isLive n then 1 else 0) =
      ring.noLive + if status = bucketLive then 1 else 0 := by
  obtain ⟨as, bs, hl⟩ := append_of_mem hn
  have hnodup := h.nodup
  rw [hl, map_append, map_cons] at hnodup
  -- the other nodes are of other buckets
  have hne : ∀ m ∈ as ++ bs, m.2 ≠ n.2 := by
    intro m hm heq
    have hnot := (nodup_middle.mp hnodup)
    rw [nodup_cons, ← map_append] at hnot
    exact hnot.1 (heq ▸ mem_map_of_mem hm)
  have hrest (l : List (WORD × ℕ)) (hl : ∀ m ∈ l, m ∈ as ++ bs) :
      l.countP (ring.setLive n.2 status).isLive = l.countP ring.isLive :=
    countP_congr fun m hm => by rw [isLive_setLive_of_ne (hne m (hl m hm))]
  have hself : (ring.setLive n.2 status).isLive n = decide (status = bucketLive) := by
    rw [isLive, memory_setLive, update_self]
  have hbuckets : (ring.setLive n.2 status).buckets = as ++ n :: bs := hl
  simp only [noLive, hbuckets, hl, countP_append, countP_cons, hself, decide_eq_true_eq,
    hrest as (by simp +contextual), hrest bs (by simp +contextual)]
  omega

lemma noLive_setLive_of_notMem {b : ℕ} (hb : ∀ n ∈ ring.buckets, n.2 ≠ b) (status : ℤ) :
    (ring.setLive b status).noLive = ring.noLive :=
  countP_congr fun n hn => by rw [isLive_setLive_of_ne (hb n hn)]

lemma Ok.setBucketStatus (h : ring.Ok S memory) (hS : Close S) (key : WORD) (status : ℤ)
    (hlive : ring.liveBuckets = ring.noLive) :
    ∃ ring' st, ring.setBucketStatus key status = some (ring', st) ∧ ring'.Ok S memory ∧
      (ring'.liveBuckets = ring'.noLive ↔ ring.Counts (.setBucketStatus key status)) := by
  rw [HashRing.setBucketStatus]
  rcases h.search_cases hS key with ⟨hsearch, hne⟩ | ⟨p, n, hsearch, hp, hhash⟩
  · refine ⟨ring, -1, by rw [hsearch]; rfl, h, iff_of_true hlive ?_⟩
    exact fun n hn heq => absurd heq (hne n hn)
  · have hn := mem_of_getElem? hp
    refine ⟨{ ring.setLive n.2 status with liveBuckets :=
        if (ring.memory n.2).live ≠ status then
          if status = bucketLive then ring.liveBuckets + 1 else ring.liveBuckets - 1
        else ring.liveBuckets }, 0, by rw [hsearch]; simp [hp],
      ⟨h.chain, h.hash, (h.setLive n.2 status).key⟩, ?_⟩
    have hcount := h.noLive_setLive hn status
    have hiff : ring.Counts (.setBucketStatus key status) ↔
        (ring.memory n.2).live = status ∨ ring.isLive n ∨ status = bucketLive := by
      refine ⟨fun hc => hc n hn hhash, fun hc m hm heq => ?_⟩
      have hmn := inj_on_of_nodup_map h.nodup_fst hm hn (heq.trans hhash.symm)
      rwa [hmn]
    rw [hiff]
    simp only [isLive, decide_eq_true_eq] at hcount ⊢
    change (if (ring.memory n.2).live ≠ status then
      if status = bucketLive then ring.liveBuckets + 1 else ring.liveBuckets - 1
      else ring.liveBuckets) = ((ring.setLive n.2 status).noLive : ℤ) ↔ _
    rw [hlive]
    simp only [bucketLive] at hcount ⊢
    by_cases h1 : (ring.memory n.2).live = 0 <;> by_cases h2 : status = 0 <;>
      simp only [h1, h2, if_true, if_false, or_true, or_false, iff_true] at hcount ⊢ <;>
      split <;> omega

/-- A status that is written without the counter must not change. -/
theorem Ok.activate (h : ring.Ok S memory) (b : ℕ) (status : ℤ)
    (hlive : ring.liveBuckets = ring.noLive) :
    (ring.setLive b status).liveBuckets = (ring.setLive b status).noLive ↔
      ∀ n ∈ ring.buckets, n.2 = b → (ring.isLive n ↔ status = bucketLive) := by
  change ring.liveBuckets = _ ↔ _
  rw [hlive]
  by_cases hb : ∃ n ∈ ring.buckets, n.2 = b
  · obtain ⟨n, hn, rfl⟩ := hb
    have hcount := h.noLive_setLive hn status
    have hiff : (∀ m ∈ ring.buckets, m.2 = n.2 → (ring.isLive m ↔ status = bucketLive)) ↔
        (ring.isLive n ↔ status = bucketLive) := by
      refine ⟨fun hc => hc n hn rfl, fun hc m hm heq => ?_⟩
      rwa [inj_on_of_nodup_map h.nodup hm hn heq]
    rw [hiff]
    by_cases h1 : ring.isLive n <;> by_cases h2 : status = bucketLive <;>
      simp only [h1, h2, if_true, if_false, Bool.false_eq_true, iff_self, iff_true, iff_false,
        not_true_eq_false] at hcount ⊢ <;> omega
  · have hne : ∀ n ∈ ring.buckets, n.2 ≠ b := fun n hn heq => hb ⟨n, hn, heq⟩
    rw [noLive_setLive_of_notMem hne]
    exact iff_of_true rfl fun n hn heq => absurd heq (hne n hn)

/-- The calls of a run whose buckets have hashes in `S`. -/
def Call.In (S : Set WORD) (memory : ℕ → Bucket) : Call → Prop
  | .addBucket b => idHash (memory b).key ∈ S
  | _ => True

lemma Ok.call (h : ring.Ok S memory) (hS : Close S) (hlive : ring.liveBuckets = ring.noLive)
    {c : Call} (hc : c.In S memory) :
    ∃ ring', ring.call c = some ring' ∧ ring'.Ok S memory ∧
      (ring'.liveBuckets = ring'.noLive ↔ ring.Counts c) := by
  cases c with
  | addBucket b =>
    obtain ⟨ring', st, hadd, hok, hlive', -⟩ := h.addBucket hS hc
    exact ⟨ring', by rw [HashRing.call, hadd]; rfl, hok, iff_of_true (hlive' hlive) trivial⟩
  | setBucketStatus key status =>
    obtain ⟨ring', st, hset, hok, hiff⟩ := h.setBucketStatus hS key status hlive
    exact ⟨ring', by rw [HashRing.call, hset]; rfl, hok, hiff⟩
  | activateGroup b =>
    refine ⟨_, rfl, h.setLive b groupStatusActive, (h.activate b groupStatusActive hlive).trans ?_⟩
    simp [Counts, groupStatusActive, bucketLive]
  | deactivateGroup b =>
    refine ⟨_, rfl, h.setLive b groupStatusInactive,
      (h.activate b groupStatusInactive hlive).trans ?_⟩
    simp [Counts, groupStatusInactive, bucketLive]

lemma length_call_le {c : Call} (h : ring.call c = some ring') :
    ring'.buckets.length ≤ ring.buckets.length + 1 := by
  cases c with
  | addBucket b =>
    obtain ⟨⟨_, st⟩, hadd, rfl⟩ := map_eq_some_iff.mp h
    simp only [HashRing.addBucket, bind_eq_bind, bind_eq_some_iff] at hadd
    obtain ⟨r, -, hadd⟩ := hadd
    split at hadd
    · cases hadd
      exact Nat.le_succ _
    · obtain ⟨l, hl, heq⟩ := bind_eq_some_iff.mp hadd
      cases heq
      exact length_insert_le hl
  | setBucketStatus key status =>
    obtain ⟨⟨_, st⟩, hset, rfl⟩ := map_eq_some_iff.mp h
    simp only [HashRing.setBucketStatus, bind_eq_bind, bind_eq_some_iff] at hset
    obtain ⟨r, -, hset⟩ := hset
    split at hset
    · cases hset
      exact Nat.le_succ _
    · obtain ⟨node, -, heq⟩ := bind_eq_some_iff.mp hset
      cases heq
      exact Nat.le_succ _
  | _ =>
    cases h
    exact Nat.le_succ _

/-! ## The walk -/

section Walk
variable {replicationFactor : ℕ} {replicas : ℤ} {result : Option (List (WORD × ℕ))}
  {l : List (WORD × ℕ)}

/-- The loop goes on while fewer nodes than asked for are in the result, which stays empty. -/
def Unfinished (replicas : ℤ) (result : Option (List (WORD × ℕ))) : Prop :=
  result.getD [] = [] ∧ result.all (fun nodes => (nodes.length : ℤ) < replicas)

section
variable (h : Unfinished replicas result)
include h

lemma walk_cons (fuel : ℕ) : ring.walk replicationFactor replicas result (fuel + 1) (n :: l) =
      if ring.isLive n then some (.bucket n.2)
      else ring.walk replicationFactor replicas result fuel l := by
  rw [walk, if_pos h.2]
  simp only [isEmpty_cons, Bool.false_eq_true, if_false, isLive, decide_eq_true_eq, h.1]
  split
  · split <;> rfl
  · rfl

lemma walk_nil (hne : ring.buckets ≠ []) (fuel : ℕ) :
    ring.walk replicationFactor replicas result (fuel + 1) [] =
      ring.walk replicationFactor replicas result (fuel + 1) ring.buckets := by
  rw [walk, walk, if_pos h.2, if_pos h.2]
  simp only [isEmpty_nil, if_true, List.isEmpty_iff, hne, if_false]

/-- The loop looks at the nodes from `l` on and then goes around the ring. -/
theorem walk_eq_find? {fuel rounds : ℕ} (hfuel : fuel ≤ rounds) :
    ring.walk replicationFactor replicas result fuel l =
      (((l ++ (replicate rounds ring.buckets).flatten).take fuel).find? ring.isLive).map
        fun n => .bucket n.2 := by
  induction fuel generalizing l rounds with
  | zero => rfl
  | succ fuel ih =>
    have hcons (n : WORD × ℕ) (l : List (WORD × ℕ)) {rounds : ℕ} (hfuel : fuel ≤ rounds) :
        ring.walk replicationFactor replicas result (fuel + 1) (n :: l) =
          (((n :: l ++ (replicate rounds ring.buckets).flatten).take (fuel + 1)).find?
            ring.isLive).map fun n => .bucket n.2 := by
      rw [walk_cons h, cons_append, take_succ_cons, find?_cons]
      cases ring.isLive n with
      | true => rfl
      | false => exact ih hfuel
    cases l with
    | cons n l => exact hcons n l (Nat.le_of_succ_le hfuel)
    | nil =>
      obtain ⟨rounds, rfl⟩ := Nat.exists_eq_add_of_le' (Nat.le_of_add_left_le hfuel)
      rw [nil_append, replicate_succ, flatten_cons]
      by_cases hne : ring.buckets = []
      · rw [walk, if_pos h.2]
        simp [hne]
      · obtain ⟨n, l, hb⟩ := exists_cons_of_ne_nil hne
        rw [walk_nil h hne]
        nth_rewrite 1 2 [hb]
        exact hcons n l (Nat.le_of_succ_le_succ hfuel)

/-- The loop ends if there is a live bucket. -/
theorem walk_eq (hlive : ∃ n ∈ ring.buckets, ring.isLive n) {fuel : ℕ}
    (hfuel : l.length + ring.buckets.length ≤ fuel) :
    ring.walk replicationFactor replicas result fuel l =
      ((l ++ ring.buckets).find? ring.isLive).map fun n => .bucket n.2 := by
  obtain ⟨n, hn, hlive⟩ := hlive
  obtain ⟨m, hm⟩ : ∃ m, (l ++ ring.buckets).find? ring.isLive = some m :=
    isSome_iff_exists.mp (find?_isSome.mpr ⟨n, mem_append_right l hn, hlive⟩)
  rw [walk_eq_find? h (Nat.le_succ fuel), replicate_succ, flatten_cons, ← append_assoc, take_append,
    take_of_length_le (by rwa [length_append]), find?_append, hm]
  rfl

lemma walk_eq_none (hl : ∀ n ∈ l, ¬ ring.isLive n) (hdead : ∀ n ∈ ring.buckets, ¬ ring.isLive n)
    (fuel : ℕ) : ring.walk replicationFactor replicas result fuel l = none := by
  rw [walk_eq_find? h le_rfl, find?_eq_none.mpr, map_none]
  intro n hn
  rcases mem_append.mp (mem_of_mem_take hn) with hn | hn
  · exact hl n hn
  · obtain ⟨nodes, hnodes, hn⟩ := mem_flatten.mp hn
    exact hdead n (eq_of_mem_replicate hnodes ▸ hn)

end
end Walk

/-! ## The start of the walk -/

/-- The comparator goes half around the ring. -/
theorem longCmp_toUInt64_lt_zero {x y : UInt32} : longCmp x.toUInt64 y.toUInt64 < 0 ↔
    (x.toNat < y.toNat ∧ y.toNat ≤ x.toNat + 2 ^ 31) ∨ y.toNat + 2 ^ 31 ≤ x.toNat := by
  have hx := x.toNat_lt
  have hy := y.toNat_lt
  rw [longCmp, toInt64_toUInt64, toInt64_toUInt64, Int.bmod]
  split <;> omega

/-- The nodes in the order in which the loop comes to them, up to the end of the first round. -/
def visited (ring : HashRing) (objectId : Int32) : List (WORD × ℕ) :=
  ((longSearchHigher (hash32 objectId.toUInt32).toUInt64 ring.buckets).join.elim []
    ring.buckets.drop) ++ ring.buckets

section Search
variable {as bs : List (WORD × ℕ)} {m : Option (WORD × ℕ)} {x : UInt32}
section
variable (h : ring.Ok S memory)
include h

lemma Ok.exists_hash (hn : n ∈ ring.buckets) : ∃ y : UInt32, n.1 = y.toUInt64 := ⟨_, h.hash n hn⟩

/-- If the hash of the object is between two nodes it is close to all nodes. -/
theorem Ok.close_insert (hS : Close S)
    (hcut : Cut toInt64 (toInt64 x.toUInt64) ring.buckets as m bs) {a b : WORD × ℕ} (ha : a ∈ as)
    (hb : b ∈ m.toList ++ bs) : Close (insert x.toUInt64 {k | ∃ n ∈ ring.buckets, n.1 = k}) := by
  have halt := hcut.lt a ha
  have hbge := hcut.le_of_mem hb
  have haS : a.1 ∈ S := h.chain.mem a (by rw [hcut.eq]; simp [ha])
  have hbS : b.1 ∈ S := h.chain.mem b (by rw [hcut.eq, append_assoc]; exact mem_append_right _ hb)
  constructor
  · rintro k (rfl | ⟨n, hn, rfl⟩)
    · intro hmax
      have hlt := x.toNat_lt
      have hnat := toInt64_toUInt64 x
      rw [hmax] at hnat
      have : toInt64 longMax = 2 ^ 63 - 1 := by decide
      omega
    · exact hS.ne_longMax _ (h.chain.mem n hn)
  · rintro k (rfl | ⟨n, hn, rfl⟩) k' (rfl | ⟨n', hn', rfl⟩)
    · omega
    · have := hS.sub_lt _ hbS _ (h.chain.mem n' hn')
      omega
    · have := hS.sub_lt _ (h.chain.mem n hn) _ haS
      omega
    · exact hS.sub_lt _ (h.chain.mem n hn) _ (h.chain.mem n' hn')

/-- If the nodes are on one side of the hash of the object the search passes over all or none. -/
theorem Ok.takeWhile_eq (hcut : Cut toInt64 (toInt64 x.toUInt64) ring.buckets as m bs)
    (hside : as = [] ∨ m.toList ++ bs = []) :
    (ring.buckets.takeWhile fun n => longCmp n.1 x.toUInt64 < 0) = [] ∨
      (ring.buckets.takeWhile fun n => longCmp n.1 x.toUInt64 < 0) = ring.buckets := by
  cases hl : ring.buckets with
  | nil => exact .inl rfl
  | cons n l =>
    by_cases hn : longCmp n.1 x.toUInt64 < 0
    · -- the nodes after the first are farther around the ring, but not past the object
      refine .inr (takeWhile_eq_self_iff.mpr fun k hk => decide_eq_true ?_)
      obtain ⟨y, hy⟩ := h.exists_hash (n := n) (by simp [hl])
      obtain ⟨z, hz⟩ := h.exists_hash (n := k) (by rw [hl]; exact hk)
      have hle : y.toNat ≤ z.toNat := by
        rcases mem_cons.mp hk with rfl | hk
        · exact (congrArg UInt32.toNat (UInt32.toUInt64_inj.mp (hy.symm.trans hz))).le
        · have hsorted := h.chain.sorted
          rw [hl] at hsorted
          have := (pairwise_cons.mp hsorted).1 k hk
          rw [hy, hz, toInt64_toUInt64, toInt64_toUInt64] at this
          omega
      have hside' : x.toNat ≤ y.toNat ∨ z.toNat < x.toNat := by
        rw [hcut.eq, append_assoc] at hl
        rcases hside with hnil | hnil
        · have hge := hcut.le_of_mem (n := n) (by rw [hnil, nil_append] at hl; rw [hl]; simp)
          rw [hy, toInt64_toUInt64, toInt64_toUInt64] at hge
          omega
        · have hlt := hcut.lt k (by rw [← append_nil as, ← hnil, hl]; exact hk)
          rw [hz, toInt64_toUInt64, toInt64_toUInt64] at hlt
          omega
      rw [hy, longCmp_toUInt64_lt_zero] at hn
      rw [hz, longCmp_toUInt64_lt_zero]
      omega
    · exact .inl (by rw [takeWhile_cons_of_neg (by simpa using hn)])

/-- The search starts the walk at the first node that follows the hash of the object. If all nodes
are on one side of it, the walk starts at the first node, whatever the search finds. -/
theorem Ok.find?_visited (hS : Close S) (objectId : Int32) (p : WORD × ℕ → Bool) :
    (ring.visited objectId).find? p = (ring.clockwise objectId).find? p := by
  simp only [visited, clockwise]
  generalize hash32 objectId.toUInt32 = x
  obtain ⟨as, m, bs, hcut⟩ := h.chain.sorted.exists_cut (toInt64 x.toUInt64)
  have hge : ∀ n ∈ m.toList ++ bs, toInt64 x.toUInt64 ≤ toInt64 n.1 := fun _ => hcut.le_of_mem
  have hfilter1 : ring.buckets.filter (toInt64 x.toUInt64 ≤ toInt64 ·.1) = m.toList ++ bs := by
    rw [hcut.eq, append_assoc, filter_append, filter_eq_nil_iff.mpr (by simpa using hcut.lt),
      filter_eq_self.mpr (by simpa using hge), nil_append]
  have hfilter2 : ring.buckets.filter (toInt64 ·.1 < toInt64 x.toUInt64) = as := by
    rw [hcut.eq, append_assoc, filter_append, filter_eq_self.mpr (by simpa using hcut.lt),
      filter_eq_nil_iff.mpr (by simpa using hge), append_nil]
  rw [hfilter1, hfilter2]
  by_cases hside : as = [] ∨ m.toList ++ bs = []
  · rw [longSearchHigher_eq, join_some]
    have hring : (m.toList ++ bs ++ as).find? p = ring.buckets.find? p := by
      have heq : ring.buckets = as ++ (m.toList ++ bs) := by rw [hcut.eq, append_assoc]
      rw [heq]
      rcases hside with hnil | hnil <;> rw [hnil] <;> simp
    rw [hring]
    rcases h.takeWhile_eq hcut hside with htake | htake
    · rw [htake, length_nil]
      split <;> simp [find?_append]
    · rw [htake, if_neg (lt_irrefl _)]
      rfl
  · obtain ⟨has, hbs⟩ := not_or.mp hside
    obtain ⟨a, ha⟩ := exists_mem_of_ne_nil _ has
    obtain ⟨b, hb⟩ := exists_mem_of_ne_nil _ hbs
    have hclose := h.close_insert hS hcut ha hb
    rw [show longSearchHigher x.toUInt64 ring.buckets = _ from
      hcut.searchHigher hclose.ranked (fun n hn => .inr ⟨n, hn, rfl⟩) (.inl rfl), join_some,
      if_neg hbs, elim_some, hcut.eq, append_assoc, drop_left]
    simp only [find?_append]
    cases m.toList.find? p <;> cases as.find? p <;> cases bs.find? p <;> rfl

end
end Search

/-! ## Runs -/

lemma replicas_eq (hlive : ring.liveBuckets = ring.noLive) (replicationFactor : ℕ) :
    (if ↑replicationFactor < ring.liveBuckets then ↑replicationFactor else ring.liveBuckets) =
      ((min replicationFactor ring.noLive : ℕ) : ℤ) := by
  rw [hlive]
  split <;> omega

/-- The call does not return if the counter says that a bucket is live and none is. -/
theorem getBucketsForObject_eq_none (hpos : 0 < ring.liveBuckets)
    (hdead : ∀ n ∈ ring.buckets, ¬ ring.isLive n) (fuel : ℕ) (objectId : Int32) :
    getBucketsForObject fuel ring objectId 1 = none := by
  simp only [getBucketsForObject, longSearchHigher_eq]
  rw [if_neg (by split <;> omega), bind_eq_bind, bind_some]
  refine walk_eq_none ⟨rfl, rfl⟩ (fun n hn => hdead n ?_) hdead fuel
  split at hn
  · exact mem_of_mem_drop hn
  · cases hn

lemma getBucketsForObject_of_find? (hne : ring.liveBuckets ≠ 0) {objectId : Int32} {n : WORD × ℕ}
    (hn : (ring.visited objectId).find? ring.isLive = some n) {fuel : ℕ}
    (hfuel : 2 * ring.buckets.length ≤ fuel) :
    getBucketsForObject fuel ring objectId 1 = some (.bucket n.2) := by
  obtain ⟨start, hstart⟩ : ∃ start,
      longSearchHigher (hash32 objectId.toUInt32).toUInt64 ring.buckets = some start :=
    ⟨_, longSearchHigher_eq _ _⟩
  rw [visited, hstart, join_some] at hn
  simp only [getBucketsForObject, hstart]
  have hsuffix : start.elim [] ring.buckets.drop <:+ ring.buckets := by
    cases start with
    | none => exact nil_suffix
    | some p => exact drop_suffix p ring.buckets
  have hmem : n ∈ ring.buckets :=
    (mem_append.mp (mem_of_find?_eq_some hn)).elim (fun h => hsuffix.subset h) id
  have hlen := hsuffix.length_le
  rw [if_neg (by split <;> omega), bind_eq_bind, bind_some,
    walk_eq ⟨rfl, rfl⟩ ⟨n, hmem, find?_some hn⟩ (by omega)]
  exact congrArg (Option.map _) hn

/-- Where a bucket is live, more than one bucket is never returned. -/
theorem exists_of_getBucketsForObject (hlive : ring.liveBuckets = ring.noLive)
    (hpos : 0 < ring.noLive) {fuel : ℕ} {objectId : Int32} {replicationFactor : ℕ} {r : Buckets}
    (hrf : 0 < replicationFactor)
    (hr : getBucketsForObject fuel ring objectId replicationFactor = some r) :
    ∃ b, r = .bucket b := by
  simp only [getBucketsForObject, replicas_eq hlive] at hr
  rw [if_neg (by omega)] at hr
  obtain ⟨start, -, hr⟩ := bind_eq_some_iff.mp hr
  rw [walk_eq_find? ⟨?_, ?_⟩ le_rfl] at hr
  · obtain ⟨n, -, rfl⟩ := map_eq_some_iff.mp hr
    exact ⟨n.2, rfl⟩
  · split <;> rfl
  · split
    · simp
      omega
    · rfl

section
variable (h : ring.Ok S memory) (hS : Close S)
include h hS

/-- The one bucket an object belongs to is found. -/
theorem Ok.getBucketsForObject_one (hlive : ring.liveBuckets = ring.noLive) (hpos : 0 < ring.noLive)
    (objectId : Int32) :
    ∃ fuel b, getBucketsForObject fuel ring objectId 1 = some (.bucket b) ∧
      ring.bucketsOf objectId 1 = [b] := by
  obtain ⟨n, hn⟩ : ∃ n, (ring.clockwise objectId).find? ring.isLive = some n := by
    obtain ⟨m, hm, hmlive⟩ := countP_pos_iff.mp hpos
    refine isSome_iff_exists.mp (find?_isSome.mpr ⟨m, ?_, hmlive⟩)
    simp only [clockwise, mem_append, mem_filter, hm, true_and, decide_eq_true_eq]
    exact le_or_gt _ _
  refine ⟨_, n.2, getBucketsForObject_of_find? (by omega) ((h.find?_visited hS _ _).trans hn)
    le_rfl, ?_⟩
  rw [bucketsOf, min_eq_left hpos, ← map_take, take_one, head?_filter, hn]
  rfl

lemma Ok.correct_iff (hlen : ring.buckets.length < 2 ^ 31) (replicationFactor : ℕ) :
    ring.Correct replicationFactor ↔
      ring.liveBuckets = ring.noLive ∧ (replicationFactor ≤ 1 ∨ ring.noLive = 0) := by
  constructor
  · intro hc
    refine ⟨hc.live, ?_⟩
    by_contra hnot
    obtain ⟨hrf, hne⟩ := not_or.mp hnot
    obtain ⟨fuel, r, l, hr, hread, -⟩ := hc.get 0
    obtain ⟨b, rfl⟩ := exists_of_getBucketsForObject hc.live (Nat.pos_of_ne_zero hne) (by omega) hr
    rw [Buckets.read, if_neg hrf] at hread
    cases hread
  · rintro ⟨hlive, hrf⟩
    have hint : ring.noLive ≤ ring.buckets.length := countP_le_length
    refine ⟨h.chain.sorted, h.nodup, hlive, by omega, fun objectId => ?_⟩
    by_cases hzero : min replicationFactor ring.noLive = 0
    · refine ⟨0, .null, [], ?_, rfl, ?_⟩
      · simp only [getBucketsForObject, replicas_eq hlive, hzero]
        rfl
      · rw [bucketsOf, hzero, take_zero]
    · obtain rfl : replicationFactor = 1 := by omega
      obtain ⟨fuel, b, hget, hof⟩ := h.getBucketsForObject_one hS hlive (by omega) objectId
      exact ⟨fuel, _, [b], hget, rfl, by rw [hof]⟩

lemma always_correct_iff (hlive : ring.liveBuckets = ring.noLive) {cs : List Call}
    (hcs : ∀ c ∈ cs, c.In S memory) (hlen : ring.buckets.length + cs.length < 2 ^ 31)
    (replicationFactor : ℕ) :
    Trace.Always call (Correct · replicationFactor) ring cs ↔ Trace.Guarded call Counts ring cs ∧
        (replicationFactor ≤ 1 ∨ Trace.Always call (noLive · = 0) ring cs) := by
  induction cs generalizing ring with
  | nil =>
    rw [always_nil, always_nil, h.correct_iff hS hlen]
    exact and_congr_left' (iff_of_true hlive guarded_nil)
  | cons c cs ih =>
    obtain ⟨ring', hcall, hok, hcounts⟩ := h.call hS hlive (hcs c (by simp))
    have hguard : Trace.Guarded call Counts ring (c :: cs) ↔
        ring.Counts c ∧ Trace.Guarded call Counts ring' cs := by
      simp [guarded_cons, hcall]
    rw [length_cons] at hlen
    have hlen' := length_call_le hcall
    rw [always_cons hcall, always_cons hcall, hguard, h.correct_iff hS (by omega)]
    by_cases hc : ring.Counts c
    · rw [ih hok (hcounts.mpr hc) (fun c hc => hcs c (by simp [hc])) (by omega)]
      tauto
    · -- the counter is wrong after the call
      refine iff_of_false (fun hboth => hc (hcounts.mp hboth.2.head.live)) fun hboth => hc hboth.1.1

end

/-- For every sequence of fewer than `2 ^ 31` calls on a new ring. The buckets that are added have
close hashes. -/
theorem hashRing_correct (hS : Close S) {cs : List Call} (hcs : ∀ c ∈ cs, c.In S memory)
    (hlen : cs.length < 2 ^ 31) (replicationFactor : ℕ) :
    Trace.Always call (Correct · replicationFactor) (getHashRing memory) cs ↔
      Trace.Guarded call Counts (getHashRing memory) cs ∧
        (replicationFactor ≤ 1 ∨ Trace.Always call (noLive · = 0) (getHashRing memory) cs) := by
  have hok : (getHashRing memory).Ok S memory := ⟨Chain.nil, by simp [getHashRing], fun _ => rfl⟩
  exact always_correct_iff hok hS rfl hcs (by simpa [getHashRing] using hlen) replicationFactor

/-- Buckets `b` with the key `b`, all of them live. -/
def exampleMemory (b : ℕ) : Bucket := ⟨UInt64.ofNat b, bucketLive⟩
def exampleRing : HashRing := ⟨exampleMemory, [(824515495, 1), (1722258072, 2)], 2⟩

lemma idHash_exampleMemory : idHash (exampleMemory 1).key = 824515495 ∧
    idHash (exampleMemory 2).key = 1722258072 := by
  decide

lemma call_addBucket_one : (getHashRing exampleMemory).call (.addBucket 1) =
    some ⟨exampleMemory, [(824515495, 1)], 1⟩ := by
  rw [call, addBucket, getHashRing, idHash_exampleMemory.1]
  rfl

lemma call_addBucket_two : (HashRing.mk exampleMemory [(824515495, 1)] 1).call (.addBucket 2) =
    some exampleRing := by
  rw [call, addBucket]
  rfl

lemma close_lowHashes : Close {k | 0 ≤ toInt64 k ∧ toInt64 k < 2 ^ 31} where
  ne_longMax := by
    rintro k ⟨-, hk⟩ rfl
    exact absurd hk (by decide)
  sub_lt a ha b hb := by
    obtain ⟨-, ha⟩ := ha
    obtain ⟨hb, -⟩ := hb
    omega

/-- A bucket is marked as dead. -/
theorem hashRing_correct_dead : Trace.Always call (Correct · 1) (getHashRing exampleMemory)
    [.addBucket 1, .addBucket 2, .setBucketStatus 1 1] := by
  refine (hashRing_correct close_lowHashes (fun c hc => ?_) (by simp) 1).mpr ⟨?_, .inl le_rfl⟩
  · obtain ⟨h1, h2⟩ := idHash_exampleMemory
    simp only [mem_cons, not_mem_nil, or_false] at hc
    rcases hc with rfl | rfl | rfl
    · rw [Call.In, h1]
      decide
    · rw [Call.In, h2]
      decide
    · trivial
  · refine guarded_cons.mpr ⟨trivial, fun ring1 h1 => guarded_cons.mpr ⟨trivial,
      fun ring2 h2 => guarded_cons.mpr ⟨?_, fun _ _ => guarded_nil⟩⟩⟩
    rw [call_addBucket_one, Option.some.injEq] at h1
    subst h1
    rw [call_addBucket_two, Option.some.injEq] at h2
    subst h2
    exact fun n _ _ => .inr (.inl rfl)

/-- Of two live buckets only one is returned. After `deactivate_group` the counter is wrong and the
loop does not end. -/
theorem hashRing_diverges :
    (Trace.run call (getHashRing exampleMemory) [.addBucket 1, .addBucket 2] = some exampleRing ∧
      exampleRing.bucketsOf 0 2 = [1, 2] ∧
      getBucketsForObject 4 exampleRing 0 2 = some (.bucket 1)) ∧
    ∃ ring, Trace.run call (getHashRing exampleMemory) [.addBucket 1, .deactivateGroup 1] =
      some ring ∧
      ring.liveBuckets = 1 ∧ ring.noLive = 0 ∧ ∀ fuel, getBucketsForObject fuel ring 0 1 =
        none := by
  refine ⟨⟨?_, by decide, by decide⟩, ?_⟩
  · simp [run, call_addBucket_one, call_addBucket_two]
  · refine ⟨(HashRing.mk exampleMemory [(824515495, 1)] 1).deactivateGroup 1,
      ?_, rfl, by decide, fun fuel => ?_⟩
    · exact run_cons_eq_some.mpr ⟨_, call_addBucket_one, rfl⟩
    · exact getBucketsForObject_eq_none Int.one_pos (by decide) fuel 0

end HashRing
end Acton.Backend
