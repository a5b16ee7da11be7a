/-
`TableStore::read` (extension/src/storage/table.rs), and what a read of
either engine is to return.

The rows of a partition come in the order of `base_offset`, which is
their primary key and the order the query asks for. The loop over them
keeps as many as `fitting` does: the first in any case, then as long as
they stay within `maxBytes`.
-/
import Kafgres.Fetch.Client

namespace Kafgres.Fetch

open Compaction Storage

variable {B : Type}

/-- What a read of the table engine looks at. -/
structure TableStore (B : Type) where
  rows : List (Batch B)
  nextOffset : ℤ
  logStart : ℤ
  txns : Txns

namespace TableStore

/-- `stable_bound`. -/
def lastStableOffset (s : TableStore B) : ℤ :=
  match kafkaTxnLso s.txns with
  | some o => min o s.nextOffset
  | none => s.nextOffset

def ceiling (s : TableStore B) : IsolationLevel → ℤ
  | .readCommitted => s.lastStableOffset
  | .readUncommitted => s.nextOffset

/-- Where the query begins: at the batch that contains the offset, or
else at the offset. -/
def beginning (s : TableStore B) (offset : ℤ) : ℤ :=
  (((s.rows.filter fun b => decide (b.baseOffset ≤ offset) &&
    decide (offset ≤ b.lastOffset)).map (·.baseOffset)).max?).getD offset

/-- The `LIMIT` of the query. -/
def rowsPerRead : ℕ := 1000

def read (s : TableStore B) (offset : ℤ) (maxBytes : ℕ)
    (isolation : IsolationLevel) : StoreResult (FetchSlice B) :=
  let slice (out : List (Batch B)) (aborted : List AbortedTxn) :=
    FetchSlice.mk out (endOf offset out) s.nextOffset s.logStart s.lastStableOffset aborted
  if offset < s.logStart ∨ offset > s.nextOffset then .error .offsetOutOfRange
  else if offset < s.ceiling isolation then
    let out := fitting maxBytes 0 ((s.rows.filter fun b =>
      decide (s.beginning offset ≤ b.baseOffset) &&
        decide (b.baseOffset < s.ceiling isolation)).take rowsPerRead)
    .ok (slice out (match isolation with
      | .readUncommitted => []
      | .readCommitted => abortedTxns s.txns.aborted offset (max (endOf offset out) (offset + 1))))
  else .ok (slice [] [])

end TableStore

-- ==== what a read is to return

/-- Batches of a log that a plain scan from an offset comes to first:
they lie one after the other, all before them ends below the offset and
none begins at or past the ceiling; more than one stay within the byte
limit; and there is one if any qualifies. -/
structure Scans (log : List (Batch B)) (offset ceiling : ℤ) (maxBytes : ℕ)
    (out : List (Batch B)) : Prop where
  run : ∃ pre post, log = pre ++ out ++ post ∧
    ∀ b ∈ pre, b.lastOffset < offset
  within : ∀ b ∈ out, offset ≤ b.lastOffset ∧ b.baseOffset < ceiling
  fits : (out.map (·.len)).sum ≤ maxBytes ∨ out.length = 1
  some : (∃ b ∈ log, offset ≤ b.lastOffset ∧ b.baseOffset < ceiling) → out ≠ []

/-- If a batch qualifies, the offset is below the ceiling, and some batch
begins below what the read goes up to. -/
def Reached (log : List (Batch B)) (offset ceiling upTo : ℤ) : Prop :=
  (∃ b ∈ log, offset ≤ b.lastOffset ∧ b.baseOffset < ceiling) →
    offset < ceiling ∧ ∃ b ∈ log, offset ≤ b.lastOffset ∧ b.baseOffset < upTo

instance (log : List (Batch B)) (offset ceiling upTo : ℤ) :
    Decidable (Reached log offset ceiling upTo) :=
  inferInstanceAs (Decidable (_ → _))

end Kafgres.Fetch
