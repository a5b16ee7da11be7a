/-
Taking a new leader epoch on the segment engine
(`SegmentStore::set_leader_epoch`, `Slot::epoch_for_append`, storage/
segment.rs), next to the appends that stamp it.

`set_leader_epoch` looks at the row, raises the slot and takes the log
end in one critical section, and then writes the row and the history,
which the others see when its transaction commits. If that rolls back,
the slot stays raised. An append reads the row first and comes to the
slot later.

Everything under the slot lock is one step, and so is what a transaction
writes to the tables. An `epoch_end_offset` asks three queries, each of
which may see a later state (`epochEndAt`).
-/
import Kafgres.LeaderEpoch.History
import Kafgres.Storage.Slot

namespace Kafgres.LeaderEpoch

open Storage

/-- A batch in the log, with the epoch it was stamped with. -/
structure Stamp where
  baseOffset : ℤ
  lastOffsetDelta : ℕ
  leaderEpoch : ℤ
deriving DecidableEq

/-- A `set_leader_epoch` under way: past its check, or past the slot. -/
inductive Raise where
  | checked (epoch : ℤ)
  | raised (epoch start : ℤ)
deriving DecidableEq

/-- One partition. `info` is what is committed; `seeds` are the epochs
appends have read and may still come with. -/
structure State where
  slot : Slot := {}
  log : List Stamp := []
  info : Meta
  seeds : List ℤ := []
  raises : List Raise := []

/-- A partition as it is created, not in any slot yet. -/
def State.created (epoch : ℕ) : State where
  info := createPartition epoch

inductive Op where
  /-- An append reads the committed epoch. -/
  | readSeed
  /-- An append under the slot lock; `written` if the write goes
  through. -/
  | append (seed : ℤ) (lastOffsetDelta : ℕ) (written : Bool)
  | check (epoch : ℤ)
  | raise (epoch : ℤ)
  | commit (epoch start : ℤ)
  | rollback (r : Raise)
deriving DecidableEq

/-- The append's critical section. -/
def State.append (s : State) (seed : ℤ) (lastOffsetDelta : ℕ) (written : Bool) : State :=
  let e := s.slot.epochForAppend seed
  match e.2, written with
  | .ok epoch, true =>
    { s with
      slot := { e.1 with
        nextOffset := e.1.nextOffset + lastOffsetDelta + 1 }
      log := s.log ++ [⟨e.1.nextOffset, lastOffsetDelta, epoch⟩] }
  | _, _ => { s with slot := e.1 }

def State.step (s : State) : Op → State
  | .readSeed => { s with seeds := s.info.leaderEpoch :: s.seeds }
  | .append seed lastOffsetDelta written =>
    if seed ∈ s.seeds then s.append seed lastOffsetDelta written else s
  | .check epoch =>
    if epoch ≤ s.info.leaderEpoch then s
    else { s with raises := .checked epoch :: s.raises }
  | .raise epoch =>
    if .checked epoch ∈ s.raises then
      { s with
        slot := { s.slot with leaderEpoch := epoch }
        raises := .raised epoch s.slot.nextOffset :: s.raises.erase (.checked epoch) }
    else s
  | .commit epoch start =>
    if .raised epoch start ∈ s.raises then
      { s with
        info := recordEpoch s.info epoch start
        raises := s.raises.erase (.raised epoch start) }
    else s
  | .rollback r => { s with raises := s.raises.erase r }

/-- No call of `set_leader_epoch` begins while another is under way. -/
def Op.Alone (s : State) : Op → Prop
  | .check _ => s.raises = []
  | _ => True

instance (s : State) : (op : Op) → Decidable (op.Alone s)
  | .check _ => inferInstanceAs (Decidable (s.raises = []))
  | .readSeed | .append _ _ _ | .raise _ | .commit _ _ | .rollback _ =>
    isTrue trivial

-- ==== the reads

/-- `epochEnd` with each query against the tables of its own moment. -/
def epochEndAt (next : History → ℤ → Option ℤ) (m₁ m₂ m₃ : Meta) (epoch logEnd : ℤ) : EpochEnd :=
  if epoch = m₁.leaderEpoch then ⟨m₁.leaderEpoch, logEnd⟩
  else if epoch > m₁.leaderEpoch then ⟨-1, -1⟩
  else match matched m₂.history epoch with
    | none => ⟨-1, m₃.logStartOffset⟩
    | some e => ⟨e, (next m₃.history e).getD logEnd⟩

/-- The tables after some steps. -/
def tables (epoch : ℕ) (ops : List Op) : Meta := (ops.foldl State.step (.created epoch)).info

-- ==== an exact history

/-- Epochs and the history in one state: epochs do not go down along the
log; a recorded start parts the batches of lower epochs from the others;
and starts go up with the epochs. -/
structure Exact (s : State) : Prop where
  nondecreasing : ∀ a ∈ s.log, ∀ b ∈ s.log, a.baseOffset ≤ b.baseOffset →
    a.leaderEpoch ≤ b.leaderEpoch
  from_start : ∀ r ∈ s.info.history.rows, ∀ b ∈ s.log,
    r.startOffset ≤ b.baseOffset → r.leaderEpoch ≤ b.leaderEpoch
  before_start : ∀ r ∈ s.info.history.rows, ∀ b ∈ s.log,
    b.baseOffset < r.startOffset → b.leaderEpoch < r.leaderEpoch
  increasing : ∀ r ∈ s.info.history.rows, ∀ r' ∈ s.info.history.rows,
    r.leaderEpoch < r'.leaderEpoch → r.startOffset < r'.startOffset

/-- The row of the first recorded epoch above one. -/
structure FirstAbove (h : History) (epoch : ℤ) (r : Entry) : Prop where
  mem : r ∈ h.rows
  above : epoch < r.leaderEpoch
  first : ∀ r' ∈ h.rows, epoch < r'.leaderEpoch →
    r.leaderEpoch ≤ r'.leaderEpoch

/-- The answer for an epoch: where the first recorded epoch above the
one it matches begins, or that it matches none. -/
def Answers (h : History) (epoch : ℤ) (a : EpochEnd) : Prop :=
  match matched h epoch with
  | none => a.leaderEpoch = -1 ∧ ∀ r ∈ h.rows, epoch < r.leaderEpoch
  | some e => ∃ r, FirstAbove h e r ∧ a = ⟨e, r.startOffset⟩

end Kafgres.LeaderEpoch
