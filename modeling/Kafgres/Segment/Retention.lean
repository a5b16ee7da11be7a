/-
Retention (storage/segment.rs: `retention_cutoff`, `reclaim`,
`enforce_retention`; storage/pmeta.rs: `advance_log_start`).

A pass lists a partition's segments, decides from sizes and ages below
which offset they may go, lists them once more and unlinks from the
oldest on. Every file operation succeeds here; a segment that another
process rolls in between is only in the second listing.
-/
import Kafgres.Segment.Truncate

namespace Kafgres.Segment

open Storage

/-- `SegInfo`: a segment's base, the size of its `.log` and when that was
last written. -/
structure SegInfo where
  base : ℤ
  bytes : ℕ
  mtimeMs : ℤ

structure RetentionPolicy where
  retentionMs : Option ℤ
  retentionBytes : Option ℤ
  deriving DecidableEq

/-- `i64::saturating_sub`. -/
def saturatingSub (a b : ℤ) : ℤ := max i64Min (min 9223372036854775807 (a - b))

/-- The first loop of `retention_cutoff`. -/
def timeLoop (horizon : ℤ) : List SegInfo → ℤ → ℤ
  | s :: next :: rest, cutoff =>
    if s.mtimeMs ≤ horizon then timeLoop horizon (next :: rest) (max cutoff next.base)
    else cutoff
  | _, cutoff => cutoff

/-- The second one. -/
def byteLoop : List SegInfo → ℤ → ℤ → ℤ
  | s :: next :: rest, over_, cutoff =>
    if over_ ≤ 0 then cutoff
    else byteLoop (next :: rest) (over_ - s.bytes) (max cutoff next.base)
  | _, _, cutoff => cutoff

/-- The size of the segments, the active one included. -/
def live (infos : List SegInfo) : ℤ := (infos.map fun s => (s.bytes : ℤ)).sum

/-- `retention_cutoff`. -/
def retentionCutoff (now : ℤ) (infos : List SegInfo) (policy : RetentionPolicy) : ℤ :=
  if infos.length < 2 then 0
  else
    let cutoff := policy.retentionMs.elim 0 fun ms => timeLoop (saturatingSub now ms) infos 0
    policy.retentionBytes.elim cutoff fun budget => byteLoop infos (live infos - budget) cutoff

/-- What a pass leaves: the segments it unlinked, and the log start. -/
structure Swept where
  unlinked : List ℤ
  logStart : ℤ
  deriving DecidableEq

/-- `enforce_retention` on one partition. `infos` is the listing the
cutoff is taken from, `fresh` the one `reclaim` makes. -/
def enforceRetention (now : ℤ) (policy : RetentionPolicy) (archived : ℤ → Bool)
    (infos fresh : List SegInfo) (logStart : ℤ) : Swept :=
  if policy.retentionMs = none ∧ policy.retentionBytes = none then ⟨[], logStart⟩
  else
    let target := max (retentionCutoff now infos policy) logStart
    ⟨reclaimed target archived maxSegmentUnlinks (fresh.map (·.base)), max logStart target⟩

end Kafgres.Segment
