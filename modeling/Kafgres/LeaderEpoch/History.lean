/-
Leader epochs of one partition: its columns of `kafgres_partitions` and
its rows of `kafgres_leader_epochs` (storage/pmeta.rs), with the two
engines' `epoch_end_offset`.

The engines ask for the end of an epoch in different words: the segment
engine takes the lowest start among the epochs above the matched one, the
table engine the start of the lowest such epoch.
-/
import Kafgres.Lib.Table
import Mathlib.Data.List.Sort

namespace Kafgres.LeaderEpoch

/-- A row of `kafgres_leader_epochs`. -/
structure Entry where
  leaderEpoch : ℤ
  startOffset : ℤ
deriving DecidableEq

abbrev History := Table Entry.leaderEpoch

structure Meta where
  leaderEpoch : ℤ
  epochStartOffset : ℤ := 0
  logStartOffset : ℤ := 0
  history : History

/-- `create_partition`. -/
def createPartition (epoch : ℤ) : Meta where
  leaderEpoch := epoch
  history := ⟨[⟨epoch, 0⟩], List.nodup_singleton _⟩

/-- The second statement of `record_epoch`: epochs below that began here
or later are replaced. -/
def recordEntry (h : History) (epoch start : ℤ) : History :=
  (h.delete fun r => decide (start ≤ r.startOffset)
      && decide (r.leaderEpoch < epoch)).upsert ⟨epoch, start⟩
    (fun r => { r with startOffset := start }) fun _ => rfl

/-- `record_epoch`. -/
def recordEpoch (m : Meta) (epoch start : ℤ) : Meta :=
  { m with
    leaderEpoch := epoch
    epochStartOffset := start
    history := recordEntry m.history epoch start }

structure EpochEnd where
  leaderEpoch : ℤ
  endOffset : ℤ
deriving DecidableEq

/-- The latest recorded epoch not above one. -/
def matched (h : History) (epoch : ℤ) : Option ℤ :=
  ((h.rows.filter fun r => r.leaderEpoch ≤ epoch).map (·.leaderEpoch)).max?

/-- Both engines' `epoch_end_offset`, over how they find where the epoch
after the matched one begins. -/
def epochEnd (next : History → ℤ → Option ℤ) (m : Meta) (epoch logEnd : ℤ) : EpochEnd :=
  if epoch = m.leaderEpoch then ⟨m.leaderEpoch, logEnd⟩
  else if epoch > m.leaderEpoch then ⟨-1, -1⟩
  else match matched m.history epoch with
    | none => ⟨-1, m.logStartOffset⟩
    | some e => ⟨e, (next m.history e).getD logEnd⟩

/-- The lowest start of an epoch above one, as the segment engine asks
for it. -/
def minStart (h : History) (epoch : ℤ) : Option ℤ :=
  ((h.rows.filter fun r => epoch < r.leaderEpoch).map (·.startOffset)).min?

/-- The start of the lowest epoch above one, as the table engine does. -/
def firstStart (h : History) (epoch : ℤ) : Option ℤ :=
  ((h.rows.filter fun r => epoch < r.leaderEpoch).insertionSort
    fun a b => a.leaderEpoch ≤ b.leaderEpoch).head?.map (·.startOffset)

/-- `epoch_end_offset` of the segment engine. -/
def epochEndOffset (m : Meta) (epoch logEnd : ℤ) : EpochEnd := epochEnd minStart m epoch logEnd

end Kafgres.LeaderEpoch
