/-
The change stream and how a drain reads it (cdc.rs, decoding.rs).

The slot gives whole transactions in commit order, each as a row for its
begin, one for each change and one for its commit. `Stream` is all that
is ever committed: a drain peeks some of the transactions past the slot.

A change is at its transaction's commit end, then at its place in the
transaction; the summary of a transaction is past all its changes. What a
drain reads does not depend on what it has done with it, so a row is read
into the offers it makes to the lanes (`Reader.read`). The texts of
changes and summaries enter with their lengths only.
-/
import Mathlib.Algebra.GroupWithZero.Nat
import Mathlib.Data.Fintype.Defs
import Mathlib.Data.List.FinRange

namespace Kafgres.Cdc

/-- Where a change sits in the stream. -/
structure Pos where
  endLsn : ℕ
  seq : ℕ
deriving DecidableEq

namespace Pos

instance : LE Pos := ⟨fun p q => p.endLsn < q.endLsn ∨ p.endLsn = q.endLsn ∧ p.seq ≤ q.seq⟩

instance : LT Pos := ⟨fun p q => p.endLsn < q.endLsn ∨ p.endLsn = q.endLsn ∧ p.seq < q.seq⟩

instance (p q : Pos) : Decidable (p ≤ q) := inferInstanceAs (Decidable (_ ∨ _))

instance (p q : Pos) : Decidable (p < q) := inferInstanceAs (Decidable (_ ∨ _))

theorem le_iff {p q : Pos} : p ≤ q ↔ p.endLsn < q.endLsn ∨ p.endLsn = q.endLsn ∧ p.seq ≤ q.seq :=
  Iff.rfl

theorem lt_iff {p q : Pos} : p < q ↔ p.endLsn < q.endLsn ∨ p.endLsn = q.endLsn ∧ p.seq < q.seq :=
  Iff.rfl

instance : LinearOrder Pos where
  le_refl p := .inr ⟨rfl, le_rfl⟩
  le_trans p q r hpq hqr := by
    rw [le_iff] at *
    omega
  lt_iff_le_not_ge p q := by
    rw [lt_iff, le_iff, le_iff]
    omega
  le_antisymm := fun ⟨_, _⟩ ⟨_, _⟩ hpq hqp => by
    simp only [le_iff] at hpq hqp
    rw [mk.injEq]
    omega
  le_total p q := by
    rw [le_iff, le_iff]
    omega
  toDecidableLE := inferInstance

end Pos

/-- `SUMMARY_SEQ`, `i64::MAX`. -/
def summarySeq : ℕ := 9223372036854775807

-- ==== the mappings

inductive OnError where
  | skip
  | stall
deriving DecidableEq

/-- A row of `kafgres_cdc_mappings`. Its expressions are the renderer's. -/
structure Mapping where
  name : String
  source : String
  onError : OnError

/-- `TRANSACTION_SOURCE`. -/
def transactionSource : String := "kafgres.transaction"

/-- `split_source`. -/
def splitSource (source : String) : String × String :=
  match source.toList.span (· != '.') with
  | (schema, _ :: table) => (String.ofList schema, String.ofList table)
  | (_, []) => ("public", source)

def Mapping.summary (m : Mapping) : Bool := m.source == transactionSource

/-- A decoded change: what it is routed by, the shape it was captured
under, and the bytes of its element. -/
structure Change where
  schema : String
  table : String
  cols : String
  len : ℕ

/-- A change of the mapping's table. -/
def Mapping.takes (m : Mapping) (c : Change) : Bool :=
  !m.summary && splitSource m.source == (c.schema, c.table)

-- ==== the rows

/-- The transaction being read. -/
structure Txn where
  endLsn : ℕ
  prev : Option ℕ
  seq : ℕ
  events : ℕ

inductive Engine where
  | table
  | segment
deriving DecidableEq

/-- What is fixed over the drains. `keeps` is a mapping's filter, on the
change at a position; `readable` says which shapes parse. -/
structure Config (n : ℕ) where
  mapping : Fin n → Mapping
  keeps : Fin n → Pos → Bool
  chunkBytes : ℕ
  summaryLen : Txn → ℕ
  readable : String → Bool
  engine : Engine

variable {n : ℕ}

/-- The entry of `by_table` for a change. -/
def Config.lanesFor (cfg : Config n) (c : Change) : List (Fin n) :=
  (List.finRange n).filter fun i => (cfg.mapping i).takes c

def Config.summaryLanes (cfg : Config n) : List (Fin n) :=
  (List.finRange n).filter fun i => (cfg.mapping i).summary

def Config.tableLanes (cfg : Config n) : List (Fin n) :=
  (List.finRange n).filter fun i => !(cfg.mapping i).summary

/-- The routing fields of a plugin row. -/
inductive Head where
  | begin (endLsn : Option ℕ)
  | commit
  | change (c : Change)
  | other

structure Row where
  lsn : ℕ
  head : Head

/-- What one row offers one lane. -/
structure Offer (n : ℕ) where
  lane : Fin n
  pos : Pos
  hold : Option ℕ
  cols : String
  len : ℕ

inductive ReadError where
  | noEnd (lsn : ℕ)
  | outsideTransaction (lsn : ℕ)

structure Reader where
  high : Option ℕ := none
  lastEnd : Option ℕ := none
  txn : Option Txn := none

/-- One row of `stream`. -/
def Reader.read (cfg : Config n) (r : Reader) (row : Row) :
    Except ReadError (Reader × List (Offer n)) :=
  let high := some (r.high.elim row.lsn fun h => max h row.lsn)
  match row.head with
  | .begin none => .error (.noEnd row.lsn)
  | .begin (some e) =>
    .ok (⟨high, r.lastEnd, some ⟨e, r.lastEnd, 0, 0⟩⟩, [])
  | .commit =>
    .ok (⟨high, some row.lsn, none⟩,
      match r.txn with
      | some t =>
        if 0 < t.events then
          cfg.summaryLanes.map fun lane =>
            ⟨lane, ⟨t.endLsn, summarySeq⟩, t.prev, "[]", cfg.summaryLen t⟩
        else []
      | none => [])
  | .change c =>
    match r.txn with
    | none => .error (.outsideTransaction row.lsn)
    | some t =>
      .ok (⟨high, r.lastEnd, some { t with seq := t.seq + 1, events := t.events + 1 }⟩,
        (cfg.lanesFor c).map fun lane =>
          ⟨lane, ⟨t.endLsn, t.seq + 1⟩, t.prev, c.cols, c.len⟩)
  | .other => .ok (⟨high, r.lastEnd, r.txn⟩, [])

/-- The rows in turn: what they offer, and where the reader is after
them or why it stopped. -/
def readRows (cfg : Config n) (r : Reader) : List Row → List (Offer n) × Except ReadError Reader
  | [] => ([], .ok r)
  | row :: rows =>
    match r.read cfg row with
    | .error e => ([], .error e)
    | .ok (r', offers) =>
      let rest := readRows cfg r' rows
      (offers ++ rest.1, rest.2)

-- ==== the stream

/-- A committed transaction; each change with the LSN of its row. -/
structure Tx where
  beginLsn : ℕ
  endLsn : ℕ
  changes : List (ℕ × Change)

/-- A transaction as the plugin writes it. -/
def Tx.rows (t : Tx) : List Row := ⟨t.beginLsn, .begin (some t.endLsn)⟩ ::
    t.changes.map (fun c => ⟨c.1, .change c.2⟩) ++ [⟨t.endLsn, .commit⟩]

/-- Every transaction ever committed. Commit order is the order of the
commit ends, and a transaction's rows are not past its end. -/
structure Stream where
  txs : List Tx
  ordered : txs.Pairwise fun t t' => t.endLsn < t'.endLsn
  ends : ∀ t ∈ txs, t.beginLsn ≤ t.endLsn ∧ ∀ c ∈ t.changes, c.1 ≤ t.endLsn
  positive : ∀ t ∈ txs, 0 < t.endLsn
  counted : ∀ t ∈ txs, t.changes.length < summarySeq

/-- `pg_logical_slot_peek_changes`: some transactions past the slot. -/
def Stream.peek (st : Stream) (slot count : ℕ) : List Tx :=
  (st.txs.filter fun t => slot < t.endLsn).take count

/-- What a mapping is to get of one transaction: the changes of its
table, or the summary if there are changes. -/
def Tx.Owes (t : Tx) (m : Mapping) (p : Pos) : Prop := p.endLsn = t.endLsn ∧
    if m.summary then t.changes ≠ [] ∧ p.seq = summarySeq
    else ∃ i c, t.changes[i]? = some c ∧ m.takes c.2 = true ∧ p.seq = i + 1

/-- What a mapping is to get of the stream. -/
def Due (cfg : Config n) (st : Stream) (lane : Fin n) (p : Pos) : Prop :=
  ∃ t ∈ st.txs, t.Owes (cfg.mapping lane) p

end Kafgres.Cdc
