/-
A standby that pulls a compacted partition (`apply` of replication.rs,
`SegmentStore::append_replicated`, extension/src/storage/segment.rs).

The standby fetches at its own log end as a `read_committed` consumer
would, so the leader's side is `Fetch.read`, over the log of a run of
`Compaction.System`. A reply is a list of whole batches. `RecordBatch::new`
refuses a batch by its length, its magic and its last offset delta; of
these the delta is there to look at. A stored batch has the checksum it
was validated or rebuilt with.
-/
import Kafgres.Fetch.Read
import Kafgres.Lib.Spans

namespace Kafgres.Standby

open Compaction

variable {B : Type}

-- ==== the standby

/-- The standby's copy of the partition: its log and its log end. -/
structure Replica (B : Type) where
  batches : List (Batch B)
  nextOffset : ℤ

/-- The first offset past a batch. -/
def stop (b : Batch B) : ℤ := b.lastOffset + 1

/-- `append_replicated`. -/
def Replica.appendReplicated (r : Replica B) (b : Batch B)
    (expectedBase : ℤ) : Storage.StoreResult (Replica B) :=
  let logEnd := r.nextOffset
  let base := b.baseOffset
  if b.lastOffsetDelta < 0 then .error .corruptBatch
  else if logEnd ≠ expectedBase then
    .error (.io (s!"replication position moved: caller expected log end " ++
      s!"{expectedBase}, partition is at {logEnd}"))
  else if base ≠ logEnd then
    .error (.io (s!"replicated batch starts at {base} but the log ends at " ++
      s!"{logEnd}: a gap or overlap, not something to write through"))
  else .ok ⟨r.batches ++ [b], stop b⟩

inductive ApplyError where
  | undecodable
  | store (e : Storage.StoreError)
deriving DecidableEq, Repr

/-- `apply`, on one partition: the standby after it, and the number of
batches applied. A batch that begins below the log end is skipped; what
was applied before an error stays. -/
def Replica.apply (r : Replica B) : List (Batch B) → Replica B × Except ApplyError ℕ
  | [] => (r, .ok 0)
  | b :: bs =>
    if b.lastOffsetDelta < 0 then (r, .error .undecodable)
    else if b.baseOffset < r.nextOffset then r.apply bs
    else
      match r.appendReplicated b r.nextOffset with
      | .error e => (r, .error (.store e))
      | .ok r =>
        let res := r.apply bs
        (res.1, res.2.map (· + 1))

-- ==== the leader

/-- A partition as it is created. -/
def created (mtime : ℤ) : System B where
  part :=
    { closed := []
      active := ⟨0, mtime, []⟩
      nextOffset := 0
      layoutGeneration := 0
      compactCursor := 0
      lastStable := 0
      txns := {} }
  procs := fun _ => {}

/-- The leader's log after some operations. -/
def leader [Wire B] (mtime : ℤ) (ops : List (Op B)) : Partition B :=
  (ops.foldl System.step (created mtime)).part

/-- A store whose files are those of the partition, with hints that
point no further than the batch they name. -/
structure Serves (s : Fetch.Store B) (p : Partition B) : Prop where
  segments : s.segments = p.segments
  hints : ∀ seg ∈ p.segments, ∀ e ∈ s.hints seg.base,
    ∀ b ∈ seg.batches.take e.2, b.lastOffset < e.1

-- ==== taking a reply

/-- The standby is one that copied a log up to its own end. -/
structure Follows (r : Replica B) (p : Partition B) : Prop where
  batches : r.batches <+: p.log
  nextOffset : r.nextOffset = Spans.stop stop 0 r.batches

/-- Applying the batches succeeds, and extends the log by just them. -/
def Replica.Takes (r : Replica B) (bs : List (Batch B)) : Prop :=
  (r.apply bs).2.isOk ∧ (r.apply bs).1.batches = r.batches ++ bs

/-- Each batch begins where the one before it stops, the first at the
offset. -/
def EndToEnd (offset : ℤ) (bs : List (Batch B)) : Prop := Spans.Laid Batch.baseOffset stop offset bs

instance (offset : ℤ) (bs : List (Batch B)) : Decidable (EndToEnd offset bs) :=
  inferInstanceAs (Decidable (Spans.Laid Batch.baseOffset stop offset bs))

/-- Every offset in a range lies in a batch. -/
def Gapless (bs : List (Batch B)) (from_ to_ : ℤ) : Prop := ∀ o, from_ ≤ o → o < to_ →
    ∃ b ∈ bs, b.baseOffset ≤ o ∧ o ≤ b.lastOffset

end Kafgres.Standby
