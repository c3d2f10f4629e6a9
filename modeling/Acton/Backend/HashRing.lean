import Acton.Backend.Nodes

/-!
# The hash ring

Buckets are put on a ring by the hashes of their keys; an object belongs to the live buckets that
follow its hash. The ring is a skiplist and a counter of the live buckets, whose statuses are fields
of the buckets themselves: `set_bucket_status` changes them with the counter, `activate_group` and
`deactivate_group` without it.
-/

namespace Acton.Backend
open SortedNodes

/-! ## The ring -/

def hash32 (x : UInt32) : UInt32 :=
  let x := ((x >>> 16) ^^^ x) * 0x45d9f3b
  let x := ((x >>> 16) ^^^ x) * 0x45d9f3b
  (x >>> 16) ^^^ x

/-- The hash of a key as a key of the skiplist. -/
def idHash (key : WORD) : WORD := (hash32 key.toUInt32).toUInt64
def bucketLive : ℤ := 0
def groupStatusActive : ℤ := 0
def groupStatusInactive : ℤ := 1

/-- What `get_key` and `get_live_field` point to. -/
structure Bucket where
  key : WORD
  live : ℤ

structure HashRing where
  /-- The buckets by their addresses, also those that are not on the ring. -/
  memory : ℕ → Bucket
  /-- The nodes of the skiplist. The values are addresses. -/
  buckets : List (WORD × ℕ)
  liveBuckets : ℤ

namespace HashRing

def getHashRing (memory : ℕ → Bucket) : HashRing := ⟨memory, [], 0⟩

def addBucket (ring : HashRing) (bucket : ℕ) : Option (HashRing × ℤ) := do
  let hash := idHash (ring.memory bucket).key
  if (← longSearch hash ring.buckets).isSome then some (ring, -1)
  else
    let liveBuckets :=
      if (ring.memory bucket).live = bucketLive then ring.liveBuckets + 1 else ring.liveBuckets
    let buckets ← longInsert hash bucket ring.buckets
    some ({ ring with buckets, liveBuckets }, 0)

/-- Write the field that `get_live_field` points to. -/
def setLive (ring : HashRing) (bucket : ℕ) (status : ℤ) : HashRing :=
  { ring with
    memory := Function.update ring.memory bucket { ring.memory bucket with live := status } }

/-- The argument is hashed itself: it is the key of a bucket. -/
def setBucketStatus (ring : HashRing) (bucket : WORD) (status : ℤ) : Option (HashRing × ℤ) := do
  match ← longSearch (idHash bucket) ring.buckets with
  | none => some (ring, -1)
  | some p =>
    let node ← ring.buckets[p]?
    let liveBuckets :=
      if (ring.memory node.2).live ≠ status then
        if status = bucketLive then ring.liveBuckets + 1 else ring.liveBuckets - 1
      else ring.liveBuckets
    some ({ ring.setLive node.2 status with liveBuckets }, 0)

def activateGroup (ring : HashRing) (group : ℕ) : HashRing := ring.setLive group groupStatusActive

def deactivateGroup (ring : HashRing) (group : ℕ) : HashRing :=
  ring.setLive group groupStatusInactive

/-- What `get_buckets_for_object` returns: `NULL`, the address of a bucket or a skiplist. -/
inductive Buckets
  | null
  | bucket (address : ℕ)
  | skiplist (nodes : List (WORD × ℕ))
  deriving DecidableEq

/-- The loop of `get_buckets_for_object`, from the nodes that are left of the skiplist. There is no
result if it needs more rounds, or if it reads the first node of an empty skiplist. -/
def walk (ring : HashRing) (replicationFactor : ℕ) (replicas : ℤ)
    (result : Option (List (WORD × ℕ))) : ℕ → List (WORD × ℕ) → Option Buckets
  | 0, _ => none
  | fuel + 1, snode =>
    if result.all (fun nodes => (nodes.length : ℤ) < replicas) then
      match (if snode.isEmpty then ring.buckets else snode) with
      | [] => none
      | n :: next =>
        if (ring.memory n.2).live = bucketLive then do
          -- the node is added to the result, and returned by itself
          if 1 < replicationFactor then
            let _ ← longInsert (ring.memory n.2).key n.2 (result.getD [])
          some (.bucket n.2)
        else walk ring replicationFactor replicas result fuel next
    else some (result.elim .null .skiplist)

def getBucketsForObject (fuel : ℕ) (ring : HashRing) (objectId : Int32) (replicationFactor : ℕ) :
    Option Buckets := do
  let result := if 1 < replicationFactor then some [] else none
  let replicas :=
    if replicationFactor < ring.liveBuckets then ↑replicationFactor else ring.liveBuckets
  if replicas = 0 then some .null
  else
    let start ← longSearchHigher (hash32 objectId.toUInt32).toUInt64 ring.buckets
    ring.walk replicationFactor replicas result fuel (start.elim [] ring.buckets.drop)

/-- The calls. The bucket of `setBucketStatus` is given by its key. -/
inductive Call
  | addBucket (bucket : ℕ)
  | setBucketStatus (bucket : WORD) (status : ℤ)
  | activateGroup (group : ℕ)
  | deactivateGroup (group : ℕ)

def call (ring : HashRing) : Call → Option HashRing
  | .addBucket bucket => (ring.addBucket bucket).map Prod.fst
  | .setBucketStatus bucket status => (ring.setBucketStatus bucket status).map Prod.fst
  | .activateGroup group => some (ring.activateGroup group)
  | .deactivateGroup group => some (ring.deactivateGroup group)

/-! ## What the ring is for -/

def isLive (ring : HashRing) (n : WORD × ℕ) : Bool := (ring.memory n.2).live = bucketLive
def noLive (ring : HashRing) : ℕ := ring.buckets.countP ring.isLive

/-- The nodes of the ring in the order in which they follow the hash of the object. -/
def clockwise (ring : HashRing) (objectId : Int32) : List (WORD × ℕ) :=
  let hash := toInt64 (hash32 objectId.toUInt32).toUInt64
  ring.buckets.filter (hash ≤ toInt64 ·.1) ++ ring.buckets.filter (toInt64 ·.1 < hash)

/-- The buckets an object belongs to. -/
def bucketsOf (ring : HashRing) (objectId : Int32) (replicationFactor : ℕ) : List ℕ :=
  (((ring.clockwise objectId).filter ring.isLive).map Prod.snd).take
    (min replicationFactor ring.noLive)

/-- How the callers read the result: as a skiplist if there may be more than one bucket. -/
def Buckets.read (replicationFactor : ℕ) : Buckets → Option (List ℕ)
  | .null => some []
  | .bucket address => if replicationFactor ≤ 1 then some [address] else none
  | .skiplist nodes => if 1 < replicationFactor then some (nodes.map Prod.snd) else none

/-- The ring is sorted, the counter is right and an `int`, and every object gets its buckets. -/
structure Correct (ring : HashRing) (replicationFactor : ℕ) : Prop where
  sorted : Sorted toInt64 ring.buckets
  nodup : (ring.buckets.map Prod.snd).Nodup
  live : ring.liveBuckets = ring.noLive
  int : ring.liveBuckets < 2 ^ 31
  get : ∀ objectId, ∃ fuel r l, getBucketsForObject fuel ring objectId replicationFactor = some r ∧
    r.read replicationFactor = some l ∧ l.Perm (ring.bucketsOf objectId replicationFactor)

/-- The call changes the counter with the number of live buckets. -/
def Counts (ring : HashRing) : Call → Prop
  | .addBucket _ => True
  | .setBucketStatus bucket status => ∀ n ∈ ring.buckets, n.1 = idHash bucket →
      (ring.memory n.2).live = status ∨ ring.isLive n ∨ status = bucketLive
  | .activateGroup group => ∀ n ∈ ring.buckets, n.2 = group → ring.isLive n
  | .deactivateGroup group => ∀ n ∈ ring.buckets, n.2 = group → ¬ ring.isLive n

end HashRing
end Acton.Backend
