/-
The epochs a start takes (`raise_leader_epochs`, `epoch_timeline`,
`next_leader_epoch`, server/mod.rs). The high half of an epoch is the
timeline, the low half counts the starts on it. The WAL's timeline may go
back (pg_upgrade, pg_resetwal), so a bias kept in `kafgres_timeline` is
added to it.

A start is one transaction. Values are integers here, and `values` lists
those of a start that the source computes in an `i32`.
-/
import Mathlib.Order.Lattice
import Mathlib.Algebra.Group.Int.Defs

namespace Kafgres.LeaderEpoch

/-- The row of `kafgres_timeline`. -/
structure TimelineRow where
  lastTimeline : ℤ
  bias : ℤ

/-- The timeline of the start that left the row. -/
def TimelineRow.effective (r : TimelineRow) : ℤ := r.lastTimeline + r.bias

/-- `EPOCHS_PER_TIMELINE`. -/
def epochsPerTimeline : ℤ := 65536

/-- The first epoch of a timeline. -/
def firstEpoch (timeline : ℤ) : ℤ := max 0 (min (timeline - 1) 32767) * epochsPerTimeline

/-- `next_leader_epoch`. -/
def nextLeaderEpoch (current timeline : ℤ) : ℤ :=
  if current < firstEpoch timeline then firstEpoch timeline
  else if current.tmod epochsPerTimeline = epochsPerTimeline - 1 then current
  else current + 1

/-- A partition's epoch, and those it had before. -/
structure PartitionEpoch where
  leaderEpoch : ℤ
  past : List ℤ := []

def PartitionEpoch.raise (timeline : ℤ) (p : PartitionEpoch) : PartitionEpoch :=
  ⟨nextLeaderEpoch p.leaderEpoch timeline, p.leaderEpoch :: p.past⟩

/-- The row and the partitions. `minted` are the epochs that starts
took, each with its timeline. -/
structure Epochs where
  row : Option TimelineRow
  partitions : List PartitionEpoch
  minted : List (ℤ × ℤ) := []

inductive EpochOp where
  | start (walTimeline : ℤ)
  /-- `create_partition`, which a topic's creation calls with epoch 0. -/
  | createPartition

namespace Epochs

/-- `COALESCE(max(leader_epoch), 0)`. -/
def highest (s : Epochs) : ℤ := (s.partitions.map (·.leaderEpoch)).max?.getD 0

/-- The bias `epoch_timeline` leaves in the row. -/
def bias (s : Epochs) (wal : ℤ) : ℤ :=
  match s.row with
  | some r => if wal < r.lastTimeline then r.bias + (r.lastTimeline - wal) + 1 else r.bias
  | none => if s.highest = 0 then 0 else max (s.highest.tdiv epochsPerTimeline + 2 - wal) 0

/-- `epoch_timeline`, with its `saturating_add`. -/
def timeline (s : Epochs) (wal : ℤ) : ℤ := max (-2 ^ 31) (min (2 ^ 31 - 1) (wal + s.bias wal))

def values (s : Epochs) (wal : ℤ) : List ℤ :=
  (match s.row with
    | some r =>
      if wal < r.lastTimeline then [r.lastTimeline - wal, r.bias + (r.lastTimeline - wal)] else []
    | none => [s.highest.tdiv epochsPerTimeline + 2, s.highest.tdiv epochsPerTimeline + 2 - wal]) ++
  [s.bias wal, s.timeline wal - 1, firstEpoch (s.timeline wal)] ++
  s.partitions.map fun p => nextLeaderEpoch p.leaderEpoch (s.timeline wal)

def step (s : Epochs) : EpochOp → Epochs
  | .start wal =>
    let partitions := s.partitions.map (·.raise (s.timeline wal))
    { row := some ⟨wal, s.bias wal⟩
      partitions := partitions
      minted := s.minted ++ partitions.map fun p => (s.timeline wal, p.leaderEpoch) }
  | .createPartition => { s with partitions := s.partitions ++ [⟨0, []⟩] }

-- ==== epochs that grow

/-- The WAL timeline is positive and the effective one below 2^15. -/
def InScope (s : Epochs) : EpochOp → Prop
  | .start wal => 1 ≤ wal ∧ wal < 2 ^ 31 ∧ s.timeline wal < 2 ^ 15
  | .createPartition => True

instance (s : Epochs) : (op : EpochOp) → Decidable (s.InScope op)
  | .start wal => inferInstanceAs (Decidable (1 ≤ wal ∧ _ ∧ _))
  | .createPartition => isTrue trivial

/-- A start goes no timeline back, and forward if the WAL's differs from
the one before; every partition takes an epoch above all it had, unless
it has used up the timeline; and no value overflows. -/
def Grows (s : Epochs) : EpochOp → Prop
  | .start wal =>
    (∀ r ∈ s.row, r.effective ≤ s.timeline wal ∧
      (wal ≠ r.lastTimeline → r.effective < s.timeline wal)) ∧
    (∀ p ∈ s.partitions, (∀ e ∈ p.leaderEpoch :: p.past,
        e < nextLeaderEpoch p.leaderEpoch (s.timeline wal)) ∨
      p.leaderEpoch = s.timeline wal * epochsPerTimeline - 1) ∧
    ∀ v ∈ s.values wal, -2 ^ 31 ≤ v ∧ v < 2 ^ 31
  | .createPartition => True

/-- Timelines do not share epochs. -/
def Ordered (s : Epochs) : Prop := ∀ a ∈ s.minted, ∀ b ∈ s.minted, a.1 < b.1 → a.2 < b.2

/-- The row fits the epochs: none is of a later timeline. -/
structure Consistent (s : Epochs) : Prop where
  row : ∀ r ∈ s.row, 1 ≤ r.lastTimeline ∧ r.lastTimeline < 2 ^ 31 ∧ 1 ≤ r.effective
  below : ∀ r ∈ s.row, ∀ p ∈ s.partitions, p.leaderEpoch < r.effective * epochsPerTimeline
  range : ∀ p ∈ s.partitions, 0 ≤ p.leaderEpoch ∧ p.leaderEpoch < 2 ^ 31

/-- The state a run begins in. -/
def stored (row : Option TimelineRow) (epochs : List ℤ) : Epochs := ⟨row, epochs.map (⟨·, []⟩), []⟩

end Epochs

end Kafgres.LeaderEpoch
