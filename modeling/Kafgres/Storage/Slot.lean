/-
The shared append positions (storage/segment.rs): one `Slot` per
actively written partition, in lock-striped arrays of 256, found by
linear probing from the partition's hash.

A `Shard` is what one stripe's lock guards: its slot array and, through
each slot's `ringIndex`, the reservation rings. What `recover` reads
from disk enters `slotFor` as an argument. The per-process hint map
filled on the same path is modelled with the segment files.
-/
import Kafgres.Lib.Probe
import Kafgres.Storage.Basic
import Kafgres.Storage.Pending

namespace Kafgres.Storage

/-- `i64::MIN`, the timestamp no batch carries. -/
def i64Min : ℤ := -9223372036854775808

/-- A partition's append position, in shared memory. -/
structure Slot where
  topic : UInt32 := 0
  partition : Int32 := 0
  nextOffset : ℤ := 0
  activeBase : ℤ := 0
  activeBytes : ℕ := 0
  pending : PendingRing := {}
  ringIndex : ℕ := 0
  activeSinceMs : ℤ := 0
  segmentMs : ℤ := 604800000
  segmentBytes : ℤ := 0
  layoutGeneration : ℕ := 0
  compactCursor : ℤ := 0
  leaderEpoch : ℤ := -1
  maxTimestampSoFar : ℤ := i64Min
  maxTimestampOffset : ℤ := -1
  timeIndexedTs : ℤ := i64Min

namespace Slot

/-- Lowest offset an in-flight SQL transaction may still commit or
abort, else `nextOffset`. -/
def pendingFloor (s : Slot) : ℤ :=
  match s.pending.floor with
  | some b => min b s.nextOffset
  | none => s.nextOffset

/-- The epoch an append stamps. The slot takes a newer seed; a seed
below the slot's epoch belongs to a transaction that has not settled.
The slot half of the pair is what the call leaves behind either way. -/
def epochForAppend (s : Slot) (seed : ℤ) : Slot × StoreResult ℤ :=
  let t := if s.leaderEpoch < 0 ∨ seed > s.leaderEpoch then
    { s with leaderEpoch := seed } else s
  if t.leaderEpoch > seed then (t, .error .leaderEpochUnsettled)
  else (t, .ok t.leaderEpoch)

/-- The slot is this partition's. -/
def holds (k : Key) (s : Slot) : Bool := s.topic == k.topic && s.partition == k.partition

/-- The slot is free: no topic has id zero. -/
def empty (s : Slot) : Bool := s.topic == 0

end Slot

-- ==== placement

def lockShards : ℕ := 16

def slotsPerShard : ℕ := 256

instance : NeZero slotsPerShard := ⟨by decide⟩

/-- Hash of `(topic, partition)`, used for both shard choice and slot
probing; `as u64` sign-extends the partition. -/
def partitionHash (k : Key) : UInt64 :=
  let h := k.topic.toUInt64 * 0x9E3779B97F4A7C15 ^^^
    k.partition.toInt64.toUInt64 * 0xC2B2AE3D27D4EB4F
  h ^^^ (h >>> 29)

/-- The lock stripe of a partition, `stripes` being
`kafgres.segment_lock_stripes`. -/
def shardOf (stripes : ℕ) (k : Key) : ℕ := (partitionHash k).toNat % min (max stripes 1) lockShards

/-- Where the probe for `k` starts. -/
def slotStart (k : Key) : Fin slotsPerShard :=
  ⟨(partitionHash k).toNat % slotsPerShard, Nat.mod_lt _ (by decide)⟩

/-- The slots in the order the probe for `k` visits them. `Fin` addition
is the source's `(start + probe) % SLOTS_PER_SHARD`. -/
def probePath (k : Key) : List (Fin slotsPerShard) := Probe.ringPath (slotStart k)

-- ==== shards

/-- What one stripe's lock guards. -/
structure Shard where
  slots : Fin slotsPerShard → Slot
  rings : ℕ → Cells

namespace Shard

/-- `slots[i] = s`. -/
def setSlot (sh : Shard) (i : Fin slotsPerShard) (s : Slot) : Shard :=
  { sh with slots := Function.update sh.slots i s }

/-- The shard as shared memory is initialised: every slot default. -/
def initial (rings : ℕ → Cells) : Shard := ⟨fun _ => {}, rings⟩

end Shard

/-- What `SegmentStore::recover` reads off a partition's files. -/
structure Recovered where
  nextOffset : ℤ
  activeBase : ℤ
  activeBytes : ℕ
  maxTimestamp : ℤ × ℤ
  timeIndexedTs : ℤ

/-- The slot a partition gets when it is first tracked. -/
def Recovered.slot (r : Recovered) (stripes : ℕ) (k : Key) (i : Fin slotsPerShard) : Slot :=
  { topic := k.topic
    partition := k.partition
    nextOffset := r.nextOffset
    activeBase := r.activeBase
    activeBytes := r.activeBytes
    ringIndex := shardOf stripes k * slotsPerShard + i
    maxTimestampSoFar := r.maxTimestamp.1
    maxTimestampOffset := r.maxTimestamp.2
    timeIndexedTs := r.timeIndexedTs }

/-- The refusal of a full stripe. -/
def shardFull : StoreError := .io
  "kafgres: lock shard full at 256 actively written partitions; raise SLOTS_PER_SHARD (or kafgres.segment_lock_stripes, which narrows capacity as well as concurrency) and restart"

/-- Find the partition's slot, or take the first empty one on its path
and fill it from `recover`'s answer. The probe stops at an empty slot. -/
def slotFor (stripes : ℕ) (sh : Shard) (k : Key) (recover : StoreResult Recovered) :
    StoreResult (Fin slotsPerShard × Shard) :=
  match Probe.probe (fun i => (sh.slots i).holds k) (fun i => (sh.slots i).empty) (probePath k) with
  | .hit i => .ok (i, sh)
  | .hole i => recover.map fun r => (i, sh.setSlot i (r.slot stripes k i))
  | .full => .error shardFull

/-- What a caller of `with_slot` does to the slot and its ring. No
caller assigns the slot's key. -/
structure SlotBody where
  run : Slot → Cells → Slot × Cells
  topic_run : ∀ s c, (run s c).1.topic = s.topic
  partition_run : ∀ s c, (run s c).1.partition = s.partition

/-- `with_slot`: the body runs on the slot `slot_for` found, or not at
all. -/
def withSlot (stripes : ℕ) (sh : Shard) (k : Key)
    (recover : StoreResult Recovered) (body : SlotBody) : Shard :=
  match slotFor stripes sh k recover with
  | .error _ => sh
  | .ok (i, sh') =>
    let ran := body.run (sh'.slots i) (sh'.rings (sh'.slots i).ringIndex)
    { sh'.setSlot i ran.1 with
      rings := Function.update sh'.rings (sh'.slots i).ringIndex ran.2 }

/-- `drop_partition`: once the metadata row and the files are gone, every
slot of the partition becomes default. A failed removal returns before
the slots are touched. -/
def dropPartition (sh : Shard) (k : Key) (removed : StoreResult Unit) : Shard :=
  match removed with
  | .error _ => sh
  | .ok () =>
    { sh with slots := fun i =>
        if (sh.slots i).holds k then {} else sh.slots i }

/-- `release_pending`: the first slot of the partition in the array, not
on its probe path, gives up the reservation at `base`. -/
def releasePending (sh : Shard) (k : Key) (base : ℤ) : Shard :=
  match (List.finRange slotsPerShard).find? fun i =>
      (sh.slots i).holds k with
  | none => sh
  | some i =>
    let s := sh.slots i
    let out := s.pending.release (sh.rings s.ringIndex) base
    { sh.setSlot i { s with pending := out.1 } with
      rings := Function.update sh.rings s.ringIndex out.2.1 }

/-- One call on a shard, with what the disk answered. -/
inductive ShardOp where
  | withSlot (k : Key) (recover : StoreResult Recovered) (body : SlotBody)
  | dropPartition (k : Key) (removed : StoreResult Unit)
  | releasePending (k : Key) (base : ℤ)

/-- The shard after one call. -/
def ShardOp.apply (stripes : ℕ) (sh : Shard) : ShardOp → Shard
  | .withSlot k recover body => Storage.withSlot stripes sh k recover body
  | .dropPartition k removed => Storage.dropPartition sh k removed
  | .releasePending k base => Storage.releasePending sh k base

/-- The shard after a run of calls. -/
def runShard (stripes : ℕ) (sh : Shard) (ops : List ShardOp) : Shard :=
  ops.foldl (ShardOp.apply stripes) sh

end Kafgres.Storage
