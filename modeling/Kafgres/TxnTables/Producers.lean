/-
`kafgres_producers` (producer.rs): the ids handed out, and the three ways
an epoch moves on.

A row's epoch is a `smallint`; storing a larger value is an error that
rolls the request back. Transactional ids are unique where they are set.
Ids come from a sequence, whose values are never handed out twice and
never taken back; `ON CONFLICT` takes one even when it updates.
-/
import Kafgres.Lib.Table
import Mathlib.Data.String.Basic

namespace Kafgres.TxnTables

-- ==== rows

/-- `i16::MAX`. -/
def smallintMax : ℤ := 32767

/-- What the column holds, counted from zero. -/
abbrev Epoch := { e : ℤ // 0 ≤ e ∧ e ≤ smallintMax }

def Epoch.zero : Epoch := ⟨0, by decide⟩

/-- `producer_epoch + 1`, stored. None is `smallint out of range`. -/
def Epoch.next (e : Epoch) : Option Epoch :=
  if h : e.1 < smallintMax then
    some ⟨e.1 + 1, by have := e.2; omega⟩
  else none

/-- The pair an `EndTxn` retired, and the outcome it asked for. -/
structure Retired where
  producerId : ℤ
  epoch : ℤ
  committed : Bool

/-- A row of `kafgres_producers`. -/
structure Producer where
  producerId : ℤ
  epoch : Epoch
  /-- NULL for a plain idempotent producer. -/
  transactionalId : Option String
  retired : Option Retired

/-- The table, with the next value of its sequence. -/
structure Producers where
  rows : Table Producer.producerId
  next : ℤ
  unique : ∀ r ∈ rows.rows, ∀ r' ∈ rows.rows,
    r.transactionalId = r'.transactionalId → r.transactionalId ≠ none →
    r = r'
  below : ∀ r ∈ rows.rows, r.producerId < next

namespace Producers

def empty : Producers where
  rows := .empty
  next := 1
  unique := nofun
  below := nofun

/-- The row of a producer id. -/
def ofId (ps : Producers) (pid : ℤ) : Option Producer := ps.rows.find? pid

/-- The row of a transactional id. -/
def ofTxn (ps : Producers) (id : String) : Option Producer :=
  ps.rows.rows.find? fun r => r.transactionalId = some id

/-- The pair a transactional id is at. -/
def pair (ps : Producers) (id : String) : Option (ℤ × ℤ) :=
  (ps.ofTxn id).map fun p => (p.producerId, p.epoch.1)

-- ==== statements

/-- `UPDATE … SET producer_epoch, retired … WHERE producer_id`. -/
def set (ps : Producers) (pid : ℤ) (epoch : Epoch) (retired : Option Retired) : Producers where
  rows := ps.rows.updateWhere (fun r => r.producerId = pid)
    (fun r => { r with epoch := epoch, retired := retired }) fun _ => rfl
  next := ps.next
  unique := by
    intro r hr r' hr' heq hne
    obtain ⟨s, hs, rfl⟩ := Table.mem_updateWhere.1 hr
    obtain ⟨s', hs', rfl⟩ := Table.mem_updateWhere.1 hr'
    have htxn : ∀ q : Producer, (if decide (q.producerId = pid) = true then
        { q with epoch := epoch, retired := retired } else q).transactionalId
          = q.transactionalId := by
      intro q
      split <;> rfl
    rw [htxn, htxn] at heq
    rw [htxn] at hne
    rw [ps.unique s hs s' hs' heq hne]
  below := by
    intro r hr
    obtain ⟨s, hs, rfl⟩ := Table.mem_updateWhere.1 hr
    split <;> exact ps.below s hs

/-- `nextval`, and nothing else. -/
def skip (ps : Producers) : Producers :=
  { ps with
    next := ps.next + 1
    below := fun r hr => lt_trans (ps.below r hr) (Int.lt_succ _) }

/-- `DELETE … WHERE`. -/
def remove (ps : Producers) (gone : Producer → Bool) : Producers where
  rows := ps.rows.delete gone
  next := ps.next
  unique := fun r hr r' hr' =>
    ps.unique r (Table.mem_delete.1 hr).1 r' (Table.mem_delete.1 hr').1
  below := fun r hr => ps.below r (Table.mem_delete.1 hr).1

/-- `INSERT` under the next id at epoch 0, for a transactional id that
has no row. -/
def insert (ps : Producers) (txn : Option String) (retired : Option Retired)
    (free : ∀ r ∈ ps.rows.rows, txn ≠ none → r.transactionalId ≠ txn) : Producers where
  rows := ps.rows.insert ⟨ps.next, .zero, txn, retired⟩ fun h => by
    obtain ⟨r, hr, hid⟩ := Table.mem_keys.1 h
    exact absurd hid (ps.below r hr).ne
  next := ps.next + 1
  unique := by
    intro r hr r' hr' heq hne
    rcases Table.mem_insert.1 hr with hr | rfl <;>
      rcases Table.mem_insert.1 hr' with hr' | rfl
    · exact ps.unique r hr r' hr' heq hne
    · exact absurd heq (free r hr fun h => hne (heq.trans h))
    · exact absurd heq.symm (free r' hr' hne)
    · rfl
  below := by
    intro r hr
    rcases Table.mem_insert.1 hr with hr | rfl
    · exact lt_trans (ps.below r hr) (Int.lt_succ _)
    · exact Int.lt_succ _

theorem free_of_ofTxn {ps : Producers} {id : String} (h : ps.ofTxn id = none) :
    ∀ r ∈ ps.rows.rows, some id ≠ none → r.transactionalId ≠ some id := by
  intro r hr _ heq
  have := List.find?_eq_none.1 h r hr
  exact this (decide_eq_true heq)

theorem free_of_remove {ps : Producers} {pid : ℤ} {p : Producer} (h : ps.ofId pid = some p) :
    ∀ r ∈ (ps.remove fun r => r.producerId = pid).rows.rows, p.transactionalId ≠ none →
      r.transactionalId ≠ p.transactionalId := by
  intro r hr hne heq
  obtain ⟨hr, hid⟩ := Table.mem_delete.1 hr
  obtain ⟨hp, hpid⟩ := Table.find?_eq_some.1 h
  have := ps.unique p hp r hr heq.symm hne
  subst this
  simp [hpid] at hid

-- ==== calls

/-- `init_producer_id` for a transactional id. None is an SQL error. -/
def initProducerId (ps : Producers) (id : String) : Option (Producers × ℤ × ℤ) :=
  match h : ps.ofTxn id with
  | some p =>
    p.epoch.next.map fun e =>
      ((ps.set p.producerId e none).skip, p.producerId, e.1)
  | none => some (ps.insert (some id) none (free_of_ofTxn h), ps.next, 0)

/-- `init_producer_id` without one. -/
def allocate (ps : Producers) : Producers := ps.insert none none fun _ _ h => absurd rfl h

/-- One below `i16::MAX`, as the other bumps add one unguarded. -/
def epochCeiling : ℤ := 32766

/-- `bump_epoch_for_next_txn`, and the pair it answers with. -/
def rotate (ps : Producers) (pid : ℤ) (committed : Bool) : Producers × ℤ × ℤ :=
  match h : ps.ofId pid with
  | none => (ps, pid, -1)
  | some p =>
    let retired := some ⟨pid, p.epoch.1, committed⟩
    if hlt : p.epoch.1 < epochCeiling then
      let e : Epoch := ⟨p.epoch.1 + 1, by
        have := p.epoch.2
        have : p.epoch.1 < 32766 := hlt
        show 0 ≤ p.epoch.1 + 1 ∧ p.epoch.1 + 1 ≤ 32767
        omega⟩
      (ps.set pid e retired, pid, e.1)
    else
      ((ps.remove fun r => r.producerId = pid).insert p.transactionalId
        retired (free_of_remove h), ps.next, 0)

/-- `fence`. -/
def fence (ps : Producers) (pid : ℤ) : Option Producers :=
  match ps.ofId pid with
  | none => some ps
  | some p => p.epoch.next.map fun e => ps.set pid e none

end Producers

/-- What is done to the table. -/
inductive Call where
  | init (id : String)
  | rotate (pid : ℤ) (committed : Bool)
  | fence (pid : ℤ)
  /-- A plain idempotent producer. -/
  | allocate
  /-- The retention sweep drops these rows. -/
  | evict (gone : Producer → Bool)
  /-- A value of the sequence is lost to a rollback. -/
  | skip

/-- The table after a call; none is an error. -/
def Producers.call (ps : Producers) : Call → Option Producers
  | .init id => (ps.initProducerId id).map (·.1)
  | .rotate pid committed => some (ps.rotate pid committed).1
  | .fence pid => ps.fence pid
  | .allocate => some ps.allocate
  | .evict gone => some (ps.remove gone)
  | .skip => some ps.skip

/-- An error leaves the table as it was. -/
def Producers.step (ps : Producers) (c : Call) : Producers := (ps.call c).getD ps

/-- The epoch is not at its end where one is added to it unguarded. -/
def Call.Room (ps : Producers) : Call → Prop
  | .init id => ∀ p, ps.ofTxn id = some p → p.epoch.1 < smallintMax
  | .fence pid => ∀ p, ps.ofId pid = some p → p.transactionalId ≠ none → p.epoch.1 < smallintMax
  | .rotate .. | .allocate | .evict _ | .skip => True

end Kafgres.TxnTables
