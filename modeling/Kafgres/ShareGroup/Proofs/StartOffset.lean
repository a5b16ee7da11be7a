/-
What the start offset of a share partition keeps to, over every run of
any number of sessions, and the three ways in which it can fail.
-/
import Kafgres.ShareGroup.Proofs.Alone

namespace Kafgres.ShareGroup

-- ==== the theorem

/-- A share partition without in-flight rows. -/
def Server.fresh (offset : Option ℤ) : Server :=
  { db := { offset := offset } }

/-- In every run in which no advance writes over a start offset that its
snapshot did not see, and no acquire inserts a record below the start
offset: the start offset never moves back and moves over finished records
only, no row of an unfinished record is deleted, and after a call that
runs alone and settles it is the end of the run of finished records. -/
theorem start_offset_exact (offset : Option ℤ) (es : List Event)
    (hok : Run.EachStep Server.step (.fresh offset) es Current) :
    Run.EachStep Server.step (.fresh offset) es Sound ∧
    Run.Always Server.step (.fresh offset) es fun s =>
      s.backends.rows = [] → ∀ pid now lockMs call,
        call.Settles s.db now → Exact s pid now lockMs call := by
  have hinv := Run.Always.of_eachStep Server.Inv.step (Server.Inv.init offset) hok
  constructor
  · intro pre e hpre
    have hlast := hinv pre ((List.prefix_append pre [e]).trans hpre)
    exact hlast.sound (hok pre e hpre)
  · intro pre hpre hquiet pid now lockMs call hcall
    exact (hinv pre hpre).exact hquiet pid lockMs hcall

-- ==== runs

/-- The beginning and the end of `n` statements without rows, one after
the other. -/
def statementsOf (pid n : ℕ) : List Event := List.replicate (2 * n) (.next pid)

/-- A statement that gets to the rows. -/
def statementOn (pid : ℕ) (rows : List Key) : List Event :=
  .next pid :: rows.map (.row pid) ++ [.next pid]

/-- The advance of a call, and the deletes. -/
def advanceOn (pid : ℕ) (rows : List Key) : List Event :=
  statementOn pid [.start] ++ statementOn pid rows

/-- A transaction in which a member acquires records from 0 on. -/
def acquireAll (pid : ℕ) (member : String) (records : List Key) : List Event :=
  [.start pid 0, .call pid 30000 (.acquire member 1 records.length)] ++
    statementsOf pid 2 ++ statementOn pid records ++ advanceOn pid [] ++
    [.commit pid]

/-- A transaction that accepts a record, up to its advance. -/
def acceptOne (pid : ℕ) (member : String) (o : ℤ) : List Event :=
  [.start pid 0, .call pid 30000 (.shareAck member o o .accept)] ++
    statementOn pid [.record o] ++ statementsOf pid 1

/-- Two sessions accept a record each. The advance of the second has its
snapshot before the first commits, and writes after. -/
def lostAdvance : List Event :=
  acquireAll 0 "m" [.record 0, .record 1] ++
    acceptOne 1 "m" 0 ++ acceptOne 2 "m" 1 ++ [.next 2] ++
    advanceOn 1 [.record 0] ++ [.commit 1] ++
    [.row 2 .start, .next 2] ++ statementsOf 2 1

/-- An acquire reads the start offset, which another session then moves.
The record it inserts lies below, where its own advance deletes it. -/
def deletedAcquire : List Event :=
  acquireAll 0 "m" [.record 0] ++
    [.start 1 0, .call 1 30000 (.acquire "n" 1 1)] ++ statementsOf 1 1 ++
    acceptOne 2 "m" 0 ++ advanceOn 2 [.record 0] ++ [.commit 2] ++
    statementsOf 1 1 ++ statementOn 1 [.record 0] ++
    statementOn 1 [.start] ++ [.next 1]

/-- A member holds record 0. -/
def holding : Server :=
  (acquireAll 0 "m" [.record 0]).foldl Server.step (.fresh none)

/-- The broker accepts record 0 for it, and refuses record 1. -/
def refused : Server :=
  holding.alone 1 0 30000 (.acknowledge "m" 0 1 [.accept, .accept])
    (statementOn 1 [.record 0] ++ statementsOf 1 1)

/-- Its transaction is at the end of the call, which has finished record
0. -/
def Backend.refusedAt (b : Backend) : Bool := (match b.phase with
    | .idle => true
    | _ => false) &&
  decide ((b.kept holding.db).rows.find? 0 = some ⟨0, .acked, 1, none, none⟩)

/-- The start offset goes from 1 back to 0; the row of a record that is
being processed is deleted; and an acknowledgement alone leaves the start
offset before a record it has finished. -/
theorem start_offset_moves_back :
    ¬ Run.EachStep Server.step (.fresh none) (lostAdvance ++ [.commit 2]) Sound ∧
    ¬ Run.EachStep Server.step (.fresh none) (deletedAcquire ++ [.row 1 (.record 0)]) Sound ∧
    ¬ Exact holding 1 0 30000 (.acknowledge "m" 0 1 [.accept, .accept]) := by
  refine ⟨fun h => ?_, fun h => ?_, fun h => ?_⟩
  · have hle := (h lostAdvance (.commit 2) (List.prefix_refl _)).start_le
    revert hle
    decide +kernel
  · have hdeletes := (h deletedAcquire (.row 1 (.record 0)) (List.prefix_refl _)).deletes
    revert hdeletes
    decide +kernel
  have hown : ∀ e ∈ statementOn 1 [.record 0] ++ statementsOf 1 1, Event.ownedBy 1 e := by
    unfold statementOn statementsOf
    simp [Event.ownedBy]
  have hstart : (refused.step (.commit 1)).db.start = 0 := by
    decide +kernel
  have hsome : (refused.backends.find? 1).any Backend.refusedAt = true := by
    decide +kernel
  obtain ⟨b, hb, hat⟩ := (Option.any_eq_true _ _).1 hsome
  unfold Backend.refusedAt at hat
  rw [Bool.and_eq_true, decide_eq_true_eq] at hat
  have hidle : b.phase = .idle := by
    have hphase := hat.1
    split at hphase
    next hidle => exact hidle
    next => cases hphase
  have hstops := (h.2 _ hown b ⟨hb, hidle⟩).stops
  rw [show ((holding.alone _ _ _ _ _).step (.commit 1)).db.start = 0 from hstart] at hstops
  exact hstops ⟨_, hat.2, nofun⟩

/-- The same two sessions, where the second's advance begins after the
first has committed. -/
def acceptedInTurn : List Event :=
  acquireAll 0 "m" [.record 0, .record 1] ++
    acceptOne 1 "m" 0 ++ acceptOne 2 "m" 1 ++
    advanceOn 1 [.record 0] ++ [.commit 1] ++
    advanceOn 2 [.record 1] ++ [.commit 2]

theorem start_offset_exact_in_turn :
    Run.EachStep Server.step (.fresh none) acceptedInTurn Current ∧
    (acceptedInTurn.foldl Server.step (.fresh none)).db.start = 2 ∧
    Run.EachStep Server.step (.fresh none) acceptedInTurn Sound := by
  have hok : Run.EachStep Server.step (.fresh none) acceptedInTurn Current := by
    decide +kernel
  exact ⟨hok, by decide +kernel, (start_offset_exact none acceptedInTurn hok).1⟩

end Kafgres.ShareGroup
