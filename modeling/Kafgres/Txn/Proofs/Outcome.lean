/-
One outcome per transaction, and when there are two.

`finish_partition` writes the outcome it is asked for and records the
first one afterwards. `finish_transaction` reads the record, but an
append that fails rolls the request back with some of its markers in the
log and nothing recorded; whoever ends the transaction next decides anew.

The invariant is kept in two movements: a request's markers join the log
whatever becomes of it, and its rows change if it commits.
-/
import Kafgres.Lib.Run
import Kafgres.Txn.Coordinator

namespace Kafgres.Txn

open Storage Run List Function Coordinator

variable {id : ℕ} {c : Coordinator} {log : List Marker} {db : Db}

-- ==== the condition

/-- The outcome already decided for the transaction that is open: the
forced result on record, or else that of a marker in the log. -/
def Coordinator.decision (c : Coordinator) (id : ℕ) (log : List Marker) : Option Bool :=
  c.forcedResult <|> (log.find? fun m => decide (m.IsOf id c.txn)).map (·.committed)

/-- A caller that ends a whole transaction decides its outcome only if
none is on record. -/
def Coordinator.Undecided (c : Coordinator) : Prop := c.state = .ongoing ∧ c.forcedResult = none

instance (c : Coordinator) : Decidable c.Undecided := inferInstanceAs (Decidable (_ ∧ _))

/-- The expiry sweep takes the transaction. -/
def Coordinator.Overdue (c : Coordinator) (now : ℤ) : Prop :=
  c.state = .ongoing ∧ now - c.startedAt > c.timeoutMs

instance (c : Coordinator) (now : ℤ) : Decidable (c.Overdue now) :=
  inferInstanceAs (Decidable (_ ∧ _))

/-- The entry writes a marker. -/
def Force.Marks (e : Force) (db : Db) (c : Coordinator) : Prop :=
  db.has e.key = true ∧ refuses e c = none ∧ e.lands = true

instance (e : Force) (db : Db) (c : Coordinator) : Decidable (e.Marks db c) :=
  inferInstanceAs (Decidable (_ ∧ _ ∧ _))

/-- The request ends the transaction open under `id`, or a part of it,
with this outcome, and takes the outcome from its own arguments. -/
def Asks (db : Db) (id : ℕ) (c : Coordinator) (o : Bool) : Request → Prop
  | .initProducerId id' _ _ _ _ => id' = id ∧ c.Undecided ∧ o = false
  | .endTxn req => req.transactionalId = id ∧ c.Undecided ∧
      verdict c req.producerId req.producerEpoch = none ∧
      o = req.committed
  | .expire now stale => (∃ e ∈ stale, e.transactionalId = id) ∧
      c.Undecided ∧ c.Overdue now ∧ o = false
  | .writeTxnMarkers entries => ∃ e ∈ entries,
      e.transactionalId = id ∧ e.Marks db c ∧ o = e.committed
  | _ => False

instance (db : Db) (id : ℕ) (c : Coordinator) (o : Bool)
    (req : Request) : Decidable (Asks db id c o req) := by
  cases req <;> dsimp only [Asks] <;> infer_instance

/-- The transactional ids a request can end a transaction of. -/
def Request.ids : Request → List ℕ
  | .initProducerId id _ _ _ _ => [id]
  | .endTxn req => [req.transactionalId]
  | .expire _ stale => stale.map (·.transactionalId)
  | .writeTxnMarkers entries => entries.map (·.transactionalId)
  | _ => []

/-- What is asked of an open transaction is one outcome, and the one it
is decided for if it is. -/
def Agrees (s : System) (op : Request × Bool) : Prop :=
  ∀ id ∈ op.1.ids, ∀ c ∈ s.db.rows id, ∀ o, Asks s.db id c o op.1 →
    (∀ o', Asks s.db id c o' op.1 → o' = o) ∧
    ∀ d ∈ c.decision id s.log, d = o

instance (s : System) (op : Request × Bool) : Decidable (Agrees s op) :=
  inferInstanceAs (Decidable (∀ id ∈ op.1.ids, _))

-- ==== the invariant

/-- The coordinator of a transactional id and the log. -/
structure Good (id : ℕ) (c : Coordinator) (log : List Marker) : Prop where
  begun : ∀ m ∈ log, m.transactionalId = id → m.txn ≤ c.txn
  agree : ∀ m ∈ log, ∀ m' ∈ log, m.transactionalId = id →
    m'.transactionalId = id → m.txn = m'.txn → m.committed = m'.committed
  forced : c.state = .ongoing → ∀ f ∈ c.forcedResult, ∀ m ∈ log,
    m.IsOf id c.txn → m.committed = f
  ended : ∀ n o, (n, o) ∈ c.ended → n ≤ c.txn ∧
    (c.state = .ongoing → n ≠ c.txn) ∧
    (∀ m ∈ log, m.IsOf id n → m.committed = o) ∧
    c.appliedIn n = if o then c.stagedIn n else []
  pending : ∀ n, ¬ c.Over n → c.appliedIn n = []
  settled : ∀ n, 0 < n → n ≤ c.txn →
    c.Over n ∨ n = c.txn ∧ c.state = .ongoing
  staged : ∀ x ∈ c.staged, x.1 ≤ c.txn
  table : c.state = .ongoing → c.offsets = c.stagedIn c.txn

/-- A transactional id nobody has asked for has no markers. -/
def GoodRow (id : ℕ) (log : List Marker) : Option Coordinator → Prop
  | none => ∀ m ∈ log, m.transactionalId ≠ id
  | some c => Good id c log

/-- All of them. -/
def GoodDb (db : Db) (log : List Marker) : Prop := ∀ id, GoodRow id log (db.rows id)

theorem GoodDb.row (h : GoodDb db log) (hc : db.rows id = some c) : Good id c log := by
  have := h id
  rwa [hc] at this

theorem GoodDb.absent (h : GoodDb db log) (hc : db.rows id = none) :
    ∀ m ∈ log, m.transactionalId ≠ id := by
  have := h id
  rwa [hc] at this

variable {s : System}

/-- One outcome is what a reader of the log and of the groups sees of the
invariant. -/
theorem GoodDb.oneOutcome (h : GoodDb s.db s.log) : OneOutcome s := by
  refine ⟨?_, ?_, fun id c hc => (h.row hc).pending, fun id c hc => (h.row hc).settled⟩
  · intro m hm m' hm' hid htxn
    cases hc : s.db.rows m.transactionalId with
    | none => exact absurd rfl (h.absent hc m hm)
    | some c => exact (h.row hc).agree m hm m' hm' rfl hid.symm htxn
  · intro id c hc n o hno
    exact ((h.row hc).ended n o hno).2.2

-- ==== rows that change

variable {c' : Coordinator}

section

variable (h : Good id c log)
include h

/-- Where nothing is open, the state and the record may become others. -/
theorem Good.rest (hidle : c.state ≠ .ongoing) (state : TxnState)
    (hstate : state ≠ .ongoing) (forcedResult : Option Bool) :
    Good id { c with state, forcedResult } log :=
  { h with
    forced := fun ho => absurd ho hstate
    ended := fun n o hno => by
      obtain ⟨hle, -, hrest⟩ := h.ended n o hno
      exact ⟨hle, fun ho => absurd ho hstate, hrest⟩
    settled := fun n h0 hn => .inl ((h.settled n h0 hn).resolve_right fun ho => hidle ho.2)
    table := fun ho => absurd ho hstate }

theorem Good.fence : Good id (fence c) log := { h with }

theorem Good.bump (fresh : ℕ) (committed : Bool) :
    Good id (bumpEpochForNextTxn fresh committed c) log := by
  unfold bumpEpochForNextTxn
  split <;> exact { h with }

theorem Good.reinit (timeout : ℤ) : Good id (reinit timeout c) log := by
  unfold Txn.reinit
  split_ifs with ho
  · rw [← ho]
    exact { h with }
  · exact { h.rest ho .empty nofun none with }

theorem Good.addPartition (k : Key) : Good id (addPartition c k) log := by
  unfold Txn.addPartition
  split
  · exact h
  · exact { h with }

/-- A transaction that begins is a new one. -/
theorem Good.begin (now : ℤ) : Good id (beginOrContinue now c) log := by
  unfold beginOrContinue
  split
  · exact { h with }
  next hidle =>
  have hover : ∀ n, 0 < n → n ≤ c.txn → c.Over n := fun n h0 hn =>
    (h.settled n h0 hn).resolve_right fun ho => hidle ho.2
  have hfresh : c.stagedIn (c.txn + 1) = [] := by
    have hnone : (c.staged.filter fun x => x.1 = c.txn + 1) = [] := by
      rw [filter_eq_nil_iff]
      intro x hx
      have := h.staged x hx
      simp only [decide_eq_true_eq]
      omega
    rw [stagedIn, hnone]
    rfl
  constructor
  · intro m hm hid
    exact Nat.le_succ_of_le (h.begun m hm hid)
  · exact h.agree
  · intro _ f hf
    cases hf
  · intro n o hno
    obtain ⟨hle, -, hms, happ⟩ := h.ended n o hno
    exact ⟨Nat.le_succ_of_le hle, fun _ => by dsimp only; omega, hms, happ⟩
  · exact h.pending
  · intro n h0 hn
    rcases Nat.lt_or_ge c.txn n with hlt | hge
    · exact .inr ⟨Nat.le_antisymm hn hlt, rfl⟩
    · exact .inl (hover n h0 hge)
  · intro x hx
    exact Nat.le_succ_of_le (h.staged x hx)
  · intro _
    exact hfresh.symm

/-- A row staged in the open transaction is in its table. -/
theorem Good.stage (ho : c.state = .ongoing) (row : Staged) : Good id (stage c row) log := by
  have hother : ∀ n, n ≠ c.txn → (Txn.stage c row).stagedIn n = c.stagedIn n := by
    intro n hn
    have hne : ¬ c.txn = n := fun he => hn he.symm
    simp [stagedIn, Txn.stage, hne]
  have hsame : (Txn.stage c row).stagedIn c.txn = upsert row (c.stagedIn c.txn) := by
    simp [stagedIn, Txn.stage]
  refine { h with ended := ?_, staged := ?_, table := ?_ }
  · intro n o hno
    obtain ⟨hle, hopen, hms, happ⟩ := h.ended n o hno
    refine ⟨hle, hopen, hms, ?_⟩
    rw [hother n (hopen ho)]
    exact happ
  · exact forall_mem_append.2 ⟨h.staged, forall_mem_singleton.2 le_rfl⟩
  · intro _
    show upsert row c.offsets = _
    rw [h.table ho]
    exact hsame.symm

/-- Partitions are added and rows staged one by one. -/
theorem Good.addPartitions (keys : List Key) : Good id (keys.foldl Txn.addPartition c) log :=
  foldl_inv (fun c => Good id c log) (fun _ k h => h.addPartition k) h keys

theorem Good.stages (ho : c.state = .ongoing)
    (rows : List Staged) : Good id (rows.foldl Txn.stage c) log :=
  (foldl_inv (fun c => Good id c log ∧ c.state = .ongoing)
    (fun _ row h => ⟨h.1.stage h.2 row, h.2⟩) ⟨h, ho⟩ rows).1

end

theorem beginOrContinue_state (now : ℤ) (c : Coordinator) :
    (beginOrContinue now c).state = .ongoing := by
  unfold beginOrContinue
  split
  · assumption
  · rfl

-- ==== an outcome

/-- Every marker of the open transaction carries the outcome. -/
def Settles (id : ℕ) (c : Coordinator) (log : List Marker) (o : Bool) : Prop :=
  ∀ m ∈ log, m.IsOf id c.txn → m.committed = o

theorem close_idle (o : Bool) (c : Coordinator) : (close o c).state ≠ .ongoing := by
  cases o <;> exact nofun

/-- What an end applies joins what its transaction has applied. -/
theorem appliedIn_close (o : Bool) (c : Coordinator) (n : ℕ) :
    (close o c).appliedIn n =
    c.appliedIn n ++ if o = true ∧ n = c.txn then c.offsets else [] := by
  cases o with
  | false => simp [close, appliedIn]
  | true =>
    by_cases hn : c.txn = n
    · simp [close, appliedIn, filter_map, comp_def, hn]
    · simp [close, appliedIn, filter_map, comp_def, hn, Ne.symm hn]

variable {o : Bool}

/-- The end of a transaction with the outcome of its markers. -/
theorem Good.close (h : Good id c log) (ho : c.state = .ongoing)
    (hs : Settles id c log o) : Good id (close o c) log := by
  have hidle := close_idle o c
  have hnew : ¬ c.Over c.txn := by
    intro hover
    obtain ⟨e, he, hn⟩ := mem_map.1 hover
    exact (h.ended e.1 e.2 he).2.1 ho hn
  have hself : (Txn.close o c).appliedIn c.txn = if o then c.stagedIn c.txn else [] := by
    rw [appliedIn_close, h.pending c.txn hnew, h.table ho]
    simp
  have hother : ∀ n, n ≠ c.txn → (Txn.close o c).appliedIn n = c.appliedIn n := by
    intro n hn
    simp [appliedIn_close, hn]
  have hover : ∀ n, (Txn.close o c).Over n ↔ c.Over n ∨ n = c.txn := by
    intro n
    simp [Over, Txn.close]
  refine ⟨h.begun, h.agree, fun hf => absurd hf hidle, ?_, ?_, ?_, h.staged,
    fun hf => absurd hf hidle⟩
  · intro n o' hno
    rcases mem_append.1 hno with hno | hno
    · obtain ⟨hle, hopen, hms, happ⟩ := h.ended n o' hno
      refine ⟨hle, fun hf => absurd hf hidle, hms, ?_⟩
      rw [hother n (hopen ho)]
      exact happ
    · obtain ⟨rfl, rfl⟩ := Prod.mk.inj (mem_singleton.1 hno)
      exact ⟨le_rfl, fun hf => absurd hf hidle, hs, hself⟩
  · intro n hn
    rw [hover, not_or] at hn
    rw [hother n hn.2]
    exact h.pending n hn.1
  · intro n h0 hn
    rw [hover]
    rcases h.settled n h0 hn with hdone | ⟨hcur, -⟩
    · exact .inl (.inl hdone)
    · exact .inl (.inr hcur)

/-- One partition ended with the outcome of the markers: the record is
that outcome. -/
theorem Good.finishPartition (h : Good id c log) (ho : c.state = .ongoing) (hs : Settles id c log o)
    (hforced : ∀ f ∈ c.forcedResult, f = o) (k : Key) : Good id (finishPartition c k o) log := by
  have hrec : c.forcedResult.getD o = o := by
    cases hf : c.forcedResult with
    | none => rfl
    | some f => exact hforced f hf
  have hmarked : Good id { c with
      partitions := c.partitions.erase k
      forcedResult := some (c.forcedResult.getD o) } log := by
    refine { h with forced := ?_ }
    intro _ f hf m hm hof
    obtain rfl : c.forcedResult.getD o = f := by simpa using hf
    rw [hrec]
    exact hs m hm hof
  unfold Txn.finishPartition
  dsimp only
  split
  · exact (hmarked.close ho hs).fence
  · exact hmarked

/-- Markers of the open transaction join the log with the outcome of
those already there. -/
theorem Good.write (h : Good id c log) {ms : List Marker} (hnew : ∀ m ∈ ms, m.transactionalId = id →
      c.state = .ongoing ∧ m.txn = c.txn)
    (hs : ∀ m ∈ ms, m.transactionalId = id → Settles id c (log ++ ms) m.committed)
    (hf : ∀ m ∈ ms, m.transactionalId = id → ∀ f ∈ c.forcedResult, f = m.committed) :
    Good id c (log ++ ms) := by
  refine ⟨?_, ?_, ?_, ?_, h.pending, h.settled, h.staged, h.table⟩
  · exact forall_mem_append.2 ⟨h.begun, fun m hm hid => (hnew m hm hid).2.le⟩
  · intro m hm m' hm' hid hid' htxn
    rcases mem_append.1 hm with hold | hadd
    · rcases mem_append.1 hm' with hold' | hadd'
      · exact h.agree m hold m' hold' hid hid' htxn
      · exact hs m' hadd' hid' m hm ⟨hid, htxn.trans (hnew m' hadd' hid').2⟩
    · exact (hs m hadd hid m' hm' ⟨hid', htxn.symm.trans (hnew m hadd hid).2⟩).symm
  · intro ho f hf'
    exact forall_mem_append.2 ⟨h.forced ho f hf', fun m hm hof => (hf m hm hof.1 f hf').symm⟩
  · intro n o hno
    obtain ⟨hle, hopen, hms, happ⟩ := h.ended n o hno
    refine ⟨hle, hopen, forall_mem_append.2 ⟨hms, fun m hm hof => ?_⟩, happ⟩
    obtain ⟨ho, htxn⟩ := hnew m hm hof.1
    exact absurd (hof.2.symm.trans htxn) (hopen ho)

-- ==== one ending

variable {lands : Key → Bool} {m : Marker}

/-- What `finish_transaction` can come to: nothing, or the markers of one
outcome and then an error or the end. -/
theorem finishTransaction_cases (db : Db) (id : ℕ) (c : Coordinator)
    (epoch : ℕ) (committed : Bool) (lands : Key → Bool) :
    let r := finishTransaction db id c epoch committed lands
    let o := c.forcedResult.getD committed
    (∃ f, r = (some (c, f), []) ∧ (f = .notOurs ∨ ∃ last, f = .notOpen last ∧ c.state ≠ .ongoing)) ∨
    (c.state = .ongoing ∧ (∀ m ∈ r.2, m.IsOf id c.txn ∧ m.committed = o) ∧
      ∀ c' f, r.1 = some (c', f) → c' = close o c ∨ c' = fence (close o c)) := by
  unfold finishTransaction
  split
  · exact .inl ⟨_, rfl, .inl rfl⟩
  split
  iterate 3
    next hst => exact .inl ⟨_, rfl, .inr ⟨_, rfl, by rw [hst]; decide⟩⟩
  next hst =>
  refine .inr ⟨hst, ?_⟩
  have hwrote : ∀ m ∈ (appendMarkers (marker id c epoch (c.forcedResult.getD committed)) lands
      (c.partitions.filter fun k => (db.topics k.topic).isSome)).2,
      m.IsOf id c.txn ∧ m.committed = c.forcedResult.getD committed := by
    intro m hm
    obtain ⟨k, rfl⟩ := appendMarkers_wrote hm
    exact ⟨⟨rfl, rfl⟩, rfl⟩
  dsimp only
  split
  · split
    · exact ⟨hwrote, by rintro _ _ ⟨⟩; exact .inr rfl⟩
    · exact ⟨hwrote, by rintro _ _ ⟨⟩; exact .inl rfl⟩
  · exact ⟨hwrote, nofun⟩

variable {committed : Bool} {f : Finish} {epoch : ℕ}

/-- Its markers are those of the open transaction, with the outcome on
record or, if none is, the one asked for. -/
theorem finishTransaction_wrote (hm : m ∈ (finishTransaction db id c epoch committed lands).2) :
    c.state = .ongoing ∧ m.IsOf id c.txn ∧ (c.Undecided ∧ m.committed = committed ∨
        c.forcedResult = some m.committed) := by
  rcases finishTransaction_cases db id c epoch committed lands with
    ⟨f, hrun, -⟩ | ⟨ho, hwrote, -⟩
  · simp [hrun] at hm
  obtain ⟨hof, hout⟩ := hwrote m hm
  refine ⟨ho, hof, ?_⟩
  cases hf : c.forcedResult with
  | none =>
    rw [hf] at hout
    exact .inl ⟨⟨ho, hf⟩, hout⟩
  | some f =>
    rw [hf] at hout
    exact .inr (congrArg some hout.symm)

/-- A transaction that is not decided is asked for the outcome of its
markers. -/
theorem Good.settles (h : Good id c log) (ho : c.state = .ongoing)
    (hasked : c.Undecided → Settles id c log committed) :
    Settles id c log (c.forcedResult.getD committed) := by
  cases hf : c.forcedResult with
  | none => exact hasked ⟨ho, hf⟩
  | some f => exact h.forced ho f hf

/-- Whatever it answers but `NotOurs`, nothing is open after it. -/
theorem finishTransaction_idle (hrun : (finishTransaction db id c epoch committed lands).1 =
      some (c', f)) (hf : f ≠ .notOurs) : c'.state ≠ .ongoing := by
  rcases finishTransaction_cases db id c epoch committed lands with
    ⟨g, hres, hg⟩ | ⟨-, -, hend⟩
  · rw [hres] at hrun
    obtain ⟨rfl, rfl⟩ : c = c' ∧ g = f := by simpa using hrun
    rcases hg with hg | ⟨-, -, hst⟩
    · exact absurd hg hf
    · exact hst
  · rcases hend c' f hrun with rfl | rfl <;> exact close_idle _ c

/-- What `finish_transaction` leaves. -/
theorem Good.finishTransaction (h : Good id c log)
    (hasked : c.Undecided → Settles id c log committed)
    (hrun : (finishTransaction db id c epoch committed lands).1 =
      some (c', f)) : Good id c' log := by
  rcases finishTransaction_cases db id c epoch committed lands with
    ⟨g, hres, -⟩ | ⟨ho, -, hend⟩
  · rw [hres] at hrun
    obtain ⟨rfl, -⟩ : c = c' ∧ g = f := by simpa using hrun
    exact h
  have hclosed := h.close ho (h.settles ho hasked)
  rcases hend c' f hrun with rfl | rfl
  · exact hclosed
  · exact hclosed.fence

/-- The tail of `EndTxn`. -/
theorem Good.answer (h : Good id c log) (req : EndTxn)
    (hidle : ∀ last, f = .notOpen last → c.state ≠ .ongoing) : Good id (req.answer c f).1 log := by
  have hrotate : ∀ {c : Coordinator}, Good id c log → Good id (req.rotate c).1 log := by
    intro c h
    unfold EndTxn.rotate
    split
    · exact h.bump req.fresh req.committed
    · exact h
  cases f with
  | notOurs | overridden => exact h
  | ended => exact hrotate h
  | notOpen last =>
    have hst := hidle last rfl
    unfold EndTxn.answer
    dsimp only
    split
    · split
      · exact h
      · apply hrotate
        exact h.rest hst .aborted nofun c.forcedResult
    · split <;> exact h

-- ==== one marker

/-- The transaction open after some entries of a `WriteTxnMarkers` was
open before them, and what an entry may still mark it could have marked
before. -/
theorem finishPartition_open {k : Key} (ho : (finishPartition c k o).state = .ongoing) :
    (finishPartition c k o).txn = c.txn ∧ c.state = .ongoing ∧
      ∀ e, refuses e (finishPartition c k o) = none → refuses e c = none := by
  unfold finishPartition at ho ⊢
  dsimp only at ho ⊢
  split
  next hlast =>
    -- the last partition closed the transaction
    rw [if_pos hlast] at ho
    cases o <;> exact nomatch ho
  next hmore =>
    rw [if_neg hmore] at ho
    refine ⟨rfl, ho, fun e he => ?_⟩
    unfold refuses at he ⊢
    split at he
    · cases he
    next hpair =>
    rw [if_neg hpair]
    split at he
    · cases he
    next hlisted =>
    have hmem : e.key ∈ c.partitions := mem_of_mem_erase (Decidable.not_not.1 hlisted)
    rw [if_neg (not_not_intro hmem)]
    exact he

variable {db' : Db} {entries : List Force} {stale : List Stale} {now : ℤ}

theorem Db.has_congr {db : Db} (h : db'.topics = db.topics) (k : Key) : db'.has k = db.has k := by
  rw [Db.has, h, Db.has]

theorem Db.put_rows (db : Db) (id id' : ℕ) (c : Coordinator) :
    (db.put id c).rows id' = if id' = id then some c else db.rows id' := by
  show update db.rows id (some c) id' = _
  rw [update_apply]

/-- `mark_one` writes one marker or changes nothing. -/
theorem markOne_cases (db : Db) (e : Force) :
    ((markOne db e).1.1 = db ∧ (markOne db e).2 = []) ∨
    ∃ c, db.rows e.transactionalId = some c ∧ e.Marks db c ∧
      (markOne db e).1.1 = db.put e.transactionalId (finishPartition c e.key e.committed) ∧
      (markOne db e).2 = [marker e.transactionalId c e.producerEpoch e.committed e.key] := by
  unfold markOne
  split
  next hhas =>
    split
    next => exact .inl ⟨rfl, rfl⟩
    next c hc =>
    split
    next => exact .inl ⟨rfl, rfl⟩
    next hok =>
    split
    next hlands =>
      exact .inr ⟨c, hc, ⟨hhas, hok, hlands⟩, rfl, rfl⟩
    next => exact .inl ⟨rfl, rfl⟩
  next => exact .inl ⟨rfl, rfl⟩

theorem markOne_topics (db : Db) (e : Force) : (markOne db e).1.1.topics = db.topics := by
  rcases markOne_cases db e with ⟨hsame, -⟩ | ⟨c, -, -, hput, -⟩
  · rw [hsame]
  · rw [hput]
    rfl

/-- A row after an entry is as it was, or the entry has marked it. -/
theorem markOne_row {e : Force} (hc' : (markOne db e).1.1.rows id = some c') :
    ∃ c, db.rows id = some c ∧ (c' = c ∨
      e.transactionalId = id ∧ e.Marks db c ∧ c' = finishPartition c e.key e.committed) := by
  rcases markOne_cases db e with ⟨hsame, -⟩ | ⟨c, hc, hmk, hput, -⟩
  · rw [hsame] at hc'
    exact ⟨c', hc', .inl rfl⟩
  rw [hput, Db.put_rows] at hc'
  split at hc'
  next hid =>
    cases hc'
    exact ⟨c, hid ▸ hc, .inr ⟨hid.symm, hmk, rfl⟩⟩
  next => exact ⟨c', hc', .inl rfl⟩

theorem Force.Marks.open {e : Force} (h : e.Marks db c) : c.state = .ongoing := by
  have hok := h.2.1
  unfold refuses at hok
  iterate 3
    split at hok
    · cases hok
  next hst => exact Decidable.not_not.1 hst

/-- What the next entries mark, they could have marked before. -/
theorem markOne_back {e e' : Force} (hc' : (markOne db e).1.1.rows id = some c')
    (hmarks : e'.Marks (markOne db e).1.1 c') :
    ∃ c, db.rows id = some c ∧ c.txn = c'.txn ∧ e'.Marks db c := by
  have hhas := hmarks.1
  rw [Db.has_congr (markOne_topics db e)] at hhas
  obtain ⟨c, hc, rfl | ⟨-, -, rfl⟩⟩ := markOne_row hc'
  · exact ⟨c', hc, rfl, hhas, hmarks.2⟩
  · obtain ⟨htxn, -, hback⟩ := finishPartition_open hmarks.open
    exact ⟨c, hc, htxn.symm, hhas, hback e' hmarks.2.1, hmarks.2.2⟩

/-- The markers of a `WriteTxnMarkers` are asked for by its entries. -/
theorem writeTxnMarkers_wrote (hm : m ∈ (writeTxnMarkers db entries).2) :
    ∃ c, db.rows m.transactionalId = some c ∧ m.txn = c.txn ∧
      ∃ e ∈ entries, e.transactionalId = m.transactionalId ∧
        e.Marks db c ∧ m.committed = e.committed := by
  induction entries generalizing db with
  | nil => cases hm
  | cons e rest ih =>
    rcases mem_append.1 hm with hm | hm
    · rcases markOne_cases db e with ⟨-, hnone⟩ | ⟨c, hc, hmk, -, hone⟩
      · simp [hnone] at hm
      · rw [hone] at hm
        obtain rfl := mem_singleton.1 hm
        exact ⟨c, hc, rfl, e, .head _, rfl, hmk, rfl⟩
    · obtain ⟨c', hc', htxn, e', he', hid, hmk, ho⟩ := ih hm
      obtain ⟨c, hc, hsame, hmk'⟩ := markOne_back hc' hmk
      exact ⟨c, hc, htxn.trans hsame.symm, e', .tail _ he', hid, hmk', ho⟩

theorem GoodDb.put (h : GoodDb db log) (hc : Good id c log) : GoodDb (db.put id c) log := by
  intro id'
  rw [Db.put_rows]
  split
  next hid => exact hid ▸ hc
  next => exact h id'

/-- The outcome asked for is that of the markers and of the record. -/
def Fits (id : ℕ) (c : Coordinator) (log : List Marker) (o : Bool) : Prop :=
  Settles id c log o ∧ ∀ f ∈ c.forcedResult, f = o

theorem finishPartition_forced (c : Coordinator) (k : Key) (o : Bool) :
    (finishPartition c k o).forcedResult = some (c.forcedResult.getD o) := by
  unfold finishPartition
  dsimp only
  split <;> rfl

/-- The entries in turn. What one records is what the later ones on the
same transaction ask for, since they agree. -/
theorem GoodDb.writeTxnMarkers (h : GoodDb db log)
    (hagree : ∀ e ∈ entries, ∀ e' ∈ entries, ∀ c, e.transactionalId = e'.transactionalId →
      db.rows e.transactionalId = some c → e.Marks db c →
      e'.Marks db c → e.committed = e'.committed)
    (hfits : ∀ e ∈ entries, ∀ c, db.rows e.transactionalId = some c →
      e.Marks db c → Fits e.transactionalId c log e.committed) :
    GoodDb (writeTxnMarkers db entries).1.1 log := by
  induction entries generalizing db with
  | nil => exact h
  | cons e rest ih =>
    apply ih
    · rcases markOne_cases db e with ⟨hsame, -⟩ | ⟨c, hc, hmk, hput, -⟩
      · rw [hsame]
        exact h
      · rw [hput]
        obtain ⟨hs, hf⟩ := hfits e mem_cons_self c hc hmk
        exact h.put ((h.row hc).finishPartition hmk.open hs hf e.key)
    · intro e₁ h₁ e₂ h₂ c' hid hc' hm₁ hm₂
      obtain ⟨c, hc, -, hm₁'⟩ := markOne_back hc' hm₁
      obtain ⟨d, hd, -, hm₂'⟩ := markOne_back hc' hm₂
      cases hc.symm.trans hd
      exact hagree e₁ (.tail _ h₁) e₂ (.tail _ h₂) c hid hc hm₁' hm₂'
    · intro e₁ h₁ c' hc' hm₁
      obtain ⟨c, hc, htxn, hm₁'⟩ := markOne_back hc' hm₁
      obtain ⟨hs, hf⟩ := hfits e₁ (.tail _ h₁) c hc hm₁'
      refine ⟨?_, fun f hf' => ?_⟩
      · unfold Settles
        rw [← htxn]
        exact hs
      obtain ⟨d, hd, hrow⟩ := markOne_row hc'
      cases hc.symm.trans hd
      rcases hrow with rfl | ⟨hid, hmk, rfl⟩
      · exact hf f hf'
      have hsame : e.committed = e₁.committed :=
        hagree e mem_cons_self e₁ (.tail _ h₁) c hid (hid ▸ hc) hmk hm₁'
      rw [finishPartition_forced] at hf'
      cases hf'
      cases hcf : c.forcedResult with
      | none => exact hsame
      | some g => exact hf g hcf

-- ==== the sweep

/-- A round of the sweep leaves everything, or ends a transaction that is
overdue. -/
theorem expireOne_cases (db : Db) (now : ℤ) (e : Stale) :
    expireOne db now e = (some db, []) ∨
    ∃ c, db.rows e.transactionalId = some c ∧ c.Overdue now ∧
      (expireOne db now e).2 = (finishTransaction db e.transactionalId c
        c.txnEpoch false e.lands).2 ∧
      ∀ db', (expireOne db now e).1 = some db' → db' = db ∨
        ∃ c' f d, (finishTransaction db e.transactionalId c c.txnEpoch false
            e.lands).1 = some (c', f) ∧ f ≠ .notOurs ∧
          db' = db.put e.transactionalId d ∧ (d = c' ∨ d = fence c') := by
  unfold expireOne
  split
  · exact .inl rfl
  next c hc =>
  split
  next hdue =>
    refine .inr ⟨c, hc, hdue, rfl, ?_⟩
    intro db' hrun
    obtain ⟨⟨c', f⟩, hfin, hres⟩ := Option.map_eq_some_iff.1 hrun
    cases f with
    | notOurs | notOpen => exact .inl hres.symm
    | overridden =>
      exact .inr ⟨c', _, _, hfin, nofun, hres.symm, .inl rfl⟩
    | ended =>
      exact .inr ⟨c', _, _, hfin, nofun, hres.symm, .inr rfl⟩
  next => exact .inl rfl

/-- A transaction open after a round of the sweep is as it was. -/
theorem expireOne_open {e : Stale} (hrun : (expireOne db now e).1 = some db')
    (hc : db'.rows id = some c) (ho : c.state = .ongoing) : db.rows id = some c := by
  rcases expireOne_cases db now e with hsame | ⟨d, -, -, -, hres⟩
  · rw [hsame] at hrun
    rw [Option.some.inj hrun]
    exact hc
  rcases hres db' hrun with rfl | ⟨c', f, d, hfin, hf, rfl, hd⟩
  · exact hc
  have hidle := finishTransaction_idle hfin hf
  rw [Db.put_rows] at hc
  split at hc
  · cases hc
    rcases hd with rfl | rfl <;> exact absurd ho hidle
  · exact hc

theorem expireOne_wrote {e : Stale} (hm : m ∈ (expireOne db now e).2) :
    ∃ c, db.rows m.transactionalId = some c ∧ c.state = .ongoing ∧
      m.txn = c.txn ∧ e.transactionalId = m.transactionalId ∧
      c.Overdue now ∧ (c.Undecided ∧ m.committed = false ∨ c.forcedResult = some m.committed) := by
  rcases expireOne_cases db now e with hsame | ⟨c, hc, hdue, hw, -⟩
  · simp [hsame] at hm
  · rw [hw] at hm
    obtain ⟨ho, hof, hout⟩ := finishTransaction_wrote hm
    exact ⟨c, hof.1 ▸ hc, ho, hof.2, hof.1.symm, hdue, hout⟩

/-- The markers of a sweep, those of a sweep that fails included. -/
theorem expireStaleTransactions_wrote (hm : m ∈ (expireStaleTransactions now db stale).2) :
    ∃ c, db.rows m.transactionalId = some c ∧ c.state = .ongoing ∧
      m.txn = c.txn ∧ (∃ e ∈ stale, e.transactionalId = m.transactionalId) ∧
      c.Overdue now ∧ (c.Undecided ∧ m.committed = false ∨ c.forcedResult = some m.committed) := by
  induction stale generalizing db with
  | nil => cases hm
  | cons e rest ih =>
    have hsplit : m ∈ (expireOne db now e).2 ∨ ∃ db', (expireOne db now e).1 = some db' ∧
        m ∈ (expireStaleTransactions now db' rest).2 := by
      unfold expireStaleTransactions at hm
      cases hrun : expireOne db now e with
      | mk next ms =>
        rw [hrun] at hm
        cases next with
        | none => exact .inl hm
        | some db' =>
          exact (mem_append.1 hm).imp_right fun h => ⟨db', rfl, h⟩
    rcases hsplit with hm | ⟨db', hrun, hm⟩
    · obtain ⟨c, hc, ho, htxn, hid, hrest⟩ := expireOne_wrote hm
      exact ⟨c, hc, ho, htxn, ⟨e, .head _, hid⟩, hrest⟩
    · obtain ⟨c, hc, ho, htxn, ⟨e', he', hid⟩, hrest⟩ := ih hm
      exact ⟨c, expireOne_open hrun hc ho, ho, htxn, ⟨e', .tail _ he', hid⟩, hrest⟩

theorem GoodDb.expire (h : GoodDb db log)
    (hasked : ∀ e ∈ stale, ∀ c, db.rows e.transactionalId = some c → c.Overdue now → c.Undecided →
      Settles e.transactionalId c log false)
    (hrun : (expireStaleTransactions now db stale).1 = some db') : GoodDb db' log := by
  induction stale generalizing db with
  | nil =>
    cases hrun
    exact h
  | cons e rest ih =>
    unfold expireStaleTransactions at hrun
    cases hone : expireOne db now e with
    | mk next ms =>
      rw [hone] at hrun
      cases next with
      | none => cases hrun
      | some db₁ =>
        have hone₁ : (expireOne db now e).1 = some db₁ := by rw [hone]
        refine ih ?_ ?_ hrun
        · rcases expireOne_cases db now e with
            hsame | ⟨c, hc, hdue, -, hres⟩
          · rw [hsame] at hone₁
            cases hone₁
            exact h
          rcases hres db₁ hone₁ with rfl | ⟨c', f, d, hfin, -, rfl, hd⟩
          · exact h
          have hgood := (h.row hc).finishTransaction (hasked e mem_cons_self c hc hdue) hfin
          rcases hd with rfl | rfl
          · exact h.put hgood
          · exact h.put hgood.fence
        · intro e' he' c hc hdue hund
          have hback := expireOne_open hone₁ hc hund.1
          exact hasked e' (.tail _ he') c hback hdue hund

-- ==== one request

theorem Good.register (now timeout : ℤ) (fresh : ℕ) (h : ∀ m ∈ log, m.transactionalId ≠ id) :
    Good id (register now timeout fresh) log := by
  refine ⟨fun m hm hid => absurd hid (h m hm),
    fun m hm _ _ hid => absurd hid (h m hm), nofun, nofun, fun n _ => rfl, ?_,
    nofun, nofun⟩
  intro n h0 hn
  exact absurd hn (Nat.not_le_of_lt h0)

theorem GoodDb.addPartitions (h : GoodDb db log)
    (id producerId epoch : ℕ) (now : ℤ) (keys : List Key) :
    GoodDb (handleAddPartitions db id producerId epoch now keys).1 log := by
  unfold handleAddPartitions
  split
  · exact h
  next c hc =>
  split
  · exact h
  · exact h.put (((h.row hc).begin now).addPartitions _)

theorem GoodDb.txnOffsetCommit (h : GoodDb db log)
    (id producerId epoch version : ℕ) (now : ℤ) (any : Bool) (accepted : List Staged) :
    GoodDb (handleTxnOffsetCommit db id producerId epoch version now any accepted).1 log := by
  unfold handleTxnOffsetCommit
  split
  · exact h
  next c hc =>
  split
  · exact h
  split
  · split
    · exact h.put (((h.row hc).begin now).stages (beginOrContinue_state now c) accepted)
    · exact h
  · split
    next hopen => exact h.put ((h.row hc).stages hopen.1 accepted)
    next => exact h

theorem GoodDb.initProducerId (h : GoodDb db log) {id fresh : ℕ} {timeoutMs : ℤ}
    (hasked : ∀ c, db.rows id = some c → c.Undecided → Settles id c log false) {pair : ℕ × ℕ}
    (hrun : (initProducerId db id now timeoutMs fresh lands).rows =
      some (db', pair)) : GoodDb db' log := by
  unfold Txn.initProducerId at hrun
  cases hc : db.rows id with
  | none =>
    rw [hc] at hrun
    cases hrun
    exact h.put (Good.register now _ fresh (h.absent hc))
  | some c =>
    rw [hc] at hrun
    obtain ⟨c', hab, hres⟩ := Option.map_eq_some_iff.1 hrun
    cases hres
    apply h.put
    apply Good.reinit
    unfold abortAbandoned at hab
    split at hab
    · obtain ⟨⟨d, f⟩, hfin, rfl⟩ := Option.map_eq_some_iff.1 hab
      exact (h.row hc).finishTransaction (hasked c hc) hfin
    · cases hab
      exact h.row hc

theorem GoodDb.endTxn (h : GoodDb db log) {req : EndTxn}
    (hasked : ∀ c, db.rows req.transactionalId = some c →
      verdict c req.producerId req.producerEpoch = none → c.Undecided →
      Settles req.transactionalId c log req.committed) {reply : EndTxnReply}
    (hrun : (handleEndTxn db req).rows = some (db', reply)) : GoodDb db' log := by
  unfold handleEndTxn at hrun
  cases hc : db.rows req.transactionalId with
  | none =>
    rw [hc] at hrun
    cases hrun
    exact h
  | some c =>
    rw [hc] at hrun
    dsimp only at hrun
    split at hrun
    iterate 2
      · cases hrun
        exact h
    split at hrun
    · cases hrun
      exact h
    next hadmit =>
    obtain ⟨⟨c', f⟩, hfin, hres⟩ := Option.map_eq_some_iff.1 hrun
    cases hres
    apply h.put
    apply Good.answer
    · exact (h.row hc).finishTransaction (hasked c hc hadmit) hfin
    · rintro last (rfl : f = _)
      exact finishTransaction_idle hfin nofun

/-- Every marker a request writes is of a transaction that is open, and
carries an outcome that was asked for or is on record. -/
theorem Request.run_wrote {req : Request} (hm : m ∈ (req.run db).2) :
    ∃ c, db.rows m.transactionalId = some c ∧ c.state = .ongoing ∧
      m.txn = c.txn ∧ (Asks db m.transactionalId c m.committed req ∨
        c.forcedResult = some m.committed) := by
  cases req with
  | addPartitions | addOffsets | txnOffsetCommit | setTopic => cases hm
  | initProducerId id now timeoutMs fresh lands =>
    have hm' : m ∈ (Txn.initProducerId db id now timeoutMs fresh lands).wrote := hm
    unfold Txn.initProducerId at hm'
    cases hc : db.rows id with
    | none =>
      simp [hc] at hm'
    | some c =>
      rw [hc] at hm'
      unfold abortAbandoned at hm'
      dsimp only at hm'
      split at hm'
      · obtain ⟨ho, hof, hout⟩ := finishTransaction_wrote hm'
        refine ⟨c, hof.1 ▸ hc, ho, hof.2, hout.imp_left fun h => ?_⟩
        exact ⟨hof.1.symm, h⟩
      · cases hm'
  | endTxn req =>
    have hm' : m ∈ (handleEndTxn db req).wrote := hm
    unfold handleEndTxn at hm'
    cases hc : db.rows req.transactionalId with
    | none =>
      simp [hc] at hm'
    | some c =>
      rw [hc] at hm'
      dsimp only at hm'
      split at hm'
      · cases hm'
      · cases hm'
      split at hm'
      · cases hm'
      next hadmit =>
      obtain ⟨ho, hof, hout⟩ := finishTransaction_wrote hm'
      refine ⟨c, hof.1 ▸ hc, ho, hof.2, hout.imp_left fun h => ?_⟩
      exact ⟨hof.1.symm, h.1, hadmit, h.2⟩
  | expire now stale =>
    obtain ⟨c, hc, ho, htxn, hid, hdue, hout⟩ := expireStaleTransactions_wrote hm
    exact ⟨c, hc, ho, htxn, hout.imp_left fun h =>
      ⟨hid, h.1, hdue, h.2⟩⟩
  | writeTxnMarkers entries =>
    obtain ⟨c, hc, htxn, e, he, hid, hmk, hout⟩ := writeTxnMarkers_wrote hm
    exact ⟨c, hc, hmk.open, htxn, .inl ⟨e, he, hid, hmk, hout⟩⟩

/-- What a request leaves under a log that its own markers have joined,
if what it asks for fits the markers and the record. -/
theorem GoodDb.run (h : GoodDb db log) {req : Request}
    (hone : ∀ id c, db.rows id = some c → ∀ o o', Asks db id c o req → Asks db id c o' req → o = o')
    (hfits : ∀ id c, db.rows id = some c → ∀ o, Asks db id c o req →
      Fits id c log o) (hrun : (req.run db).1 = some db') : GoodDb db' log := by
  cases req with
  | setTopic topic count =>
    cases hrun
    exact h
  | addPartitions id producerId epoch now keys =>
    cases hrun
    exact h.addPartitions id producerId epoch now keys
  | addOffsets id producerId epoch now =>
    cases hrun
    exact h.addPartitions id producerId epoch now []
  | txnOffsetCommit id producerId epoch version now any acc =>
    cases hrun
    exact h.txnOffsetCommit id producerId epoch version now any acc
  | initProducerId id now timeoutMs fresh lands =>
    obtain ⟨⟨d, pair⟩, hres, rfl⟩ := Option.map_eq_some_iff.1 hrun
    refine h.initProducerId (fun c hc hund => ?_) hres
    exact (hfits id c hc false ⟨rfl, hund, rfl⟩).1
  | endTxn req =>
    obtain ⟨⟨d, reply⟩, hres, rfl⟩ := Option.map_eq_some_iff.1 hrun
    refine h.endTxn (fun c hc hadmit hund => ?_) hres
    exact (hfits _ c hc req.committed ⟨rfl, hund, hadmit, rfl⟩).1
  | expire now stale =>
    refine h.expire (fun e he c hc hdue hund => ?_) hrun
    exact (hfits _ c hc false ⟨⟨e, he, rfl⟩, hund, hdue, rfl⟩).1
  | writeTxnMarkers entries =>
    cases hrun
    apply h.writeTxnMarkers
    · intro e he e' he' c hid hc hmk hmk'
      exact hone _ c hc _ _ ⟨e, he, rfl, hmk, rfl⟩ ⟨e', he', hid.symm, hmk', rfl⟩
    · intro e he c hc hmk
      exact hfits _ c hc _ ⟨e, he, rfl, hmk, rfl⟩

-- ==== one step

theorem Asks.mem_ids {req : Request} (h : Asks db id c o req) : id ∈ req.ids := by
  cases req with
  | initProducerId | endTxn => exact mem_singleton.2 h.1.symm
  | expire now stale =>
    obtain ⟨e, he, hid⟩ := h.1
    exact mem_map.2 ⟨e, he, hid⟩
  | writeTxnMarkers entries =>
    obtain ⟨e, he, hid, -⟩ := h
    exact mem_map.2 ⟨e, he, hid⟩
  | addPartitions | addOffsets | txnOffsetCommit | setTopic => exact h.elim

/-- The outcome is asked of the transaction, or is on record for it. -/
def Justified (db : Db) (id : ℕ) (c : Coordinator) (req : Request) (o : Bool) : Prop :=
  Asks db id c o req ∨ c.forcedResult = some o

variable {op : Request × Bool}

/-- Under the condition only one outcome is justified. -/
theorem Agrees.unique (h : Agrees s op) (hc : s.db.rows id = some c)
    {o' : Bool} (ho : Justified s.db id c op.1 o) (ho' : Justified s.db id c op.1 o') : o' = o := by
  have hrec : ∀ {o f}, Asks s.db id c o op.1 → c.forcedResult = some f → f = o := by
    intro o f hask hf
    refine (h id hask.mem_ids c hc o hask).2 f ?_
    rw [decision, hf]
    rfl
  rcases ho with ho | ho <;> rcases ho' with ho' | ho'
  · exact (h id ho.mem_ids c hc o ho).1 o' ho'
  · exact hrec ho ho'
  · exact (hrec ho' ho).symm
  · exact Option.some.inj (ho'.symm.trans ho)

/-- The markers already in the log carry it. -/
theorem Agrees.settles (h : Agrees s op) (hg : Good id c s.log)
    (hc : s.db.rows id = some c) (hopen : c.state = .ongoing)
    (ho : Justified s.db id c op.1 o) : Settles id c s.log o := by
  intro m hm hof
  cases hf : c.forcedResult with
  | some f =>
    rw [hg.forced hopen f hf m hm hof]
    exact h.unique hc ho (.inr hf)
  | none =>
    rcases ho with ho | ho
    · have hsome : (s.log.find? fun m =>
          decide (m.IsOf id c.txn)).isSome = true :=
        find?_isSome.2 ⟨m, hm, decide_eq_true hof⟩
      obtain ⟨m₀, hm₀⟩ := Option.isSome_iff_exists.1 hsome
      have hof₀ : m₀.IsOf id c.txn := by
        have hp := find?_some hm₀
        exact of_decide_eq_true hp
      have hdec : c.decision id s.log = some m₀.committed := by
        rw [decision, hf, hm₀]
        rfl
      calc m.committed = m₀.committed := hg.agree m hm m₀ (mem_of_find?_eq_some hm₀) hof.1
              hof₀.1 (hof.2.trans hof₀.2.symm)
        _ = o := (h id ho.mem_ids c hc o ho).2 _ hdec
    · exact nomatch hf.symm.trans ho

/-- Whoever asks is asking an open transaction. -/
theorem Asks.open {req : Request} (h : Asks db id c o req) : c.state = .ongoing := by
  cases req with
  | initProducerId | endTxn | expire => exact h.2.1.1
  | writeTxnMarkers entries =>
    obtain ⟨e, -, -, hmk, -⟩ := h
    exact hmk.open
  | addPartitions | addOffsets | txnOffsetCommit | setTopic => exact h.elim

/-- So do the markers that the request itself writes. -/
theorem Agrees.settles_wrote (h : Agrees s op) (hg : Good id c s.log)
    (hc : s.db.rows id = some c) (hopen : c.state = .ongoing) (ho : Justified s.db id c op.1 o) :
    Settles id c (s.log ++ (op.1.run s.db).2) o := by
  intro m hm hof
  rcases mem_append.1 hm with hm | hm
  · exact h.settles hg hc hopen ho m hm hof
  obtain ⟨d, hd, -, -, hjust⟩ := Request.run_wrote hm
  obtain rfl := hof.1
  cases hc.symm.trans hd
  exact h.unique hc ho hjust

/-- The markers of a request join the log, whatever becomes of its
rows. -/
theorem GoodDb.wrote (h : GoodDb s.db s.log) (hag : Agrees s op) :
    GoodDb s.db (s.log ++ (op.1.run s.db).2) := by
  intro id
  cases hc : s.db.rows id with
  | none =>
    refine forall_mem_append.2 ⟨h.absent hc, fun m hm hid => ?_⟩
    obtain ⟨c, hsome, -⟩ := Request.run_wrote hm
    simp [hid, hc] at hsome
  | some c =>
    have hof : ∀ m ∈ (op.1.run s.db).2, m.transactionalId = id →
        c.state = .ongoing ∧ m.txn = c.txn ∧
        Justified s.db id c op.1 m.committed := by
      rintro m hm rfl
      obtain ⟨d, hd, ho, htxn, hjust⟩ := Request.run_wrote hm
      cases hc.symm.trans hd
      exact ⟨ho, htxn, hjust⟩
    apply (h.row hc).write
    · exact fun m hm hid => ⟨(hof m hm hid).1, (hof m hm hid).2.1⟩
    · intro m hm hid
      obtain ⟨ho, -, hjust⟩ := hof m hm hid
      exact hag.settles_wrote (h.row hc) hc ho hjust
    · intro m hm hid f hf
      exact hag.unique hc (hof m hm hid).2.2 (.inr hf)

/-- A request under the condition. -/
theorem GoodDb.step (h : GoodDb s.db s.log) (hag : Agrees s op) :
    GoodDb (s.step op).db (s.step op).log := by
  have hlog := h.wrote hag
  show GoodDb (if op.2 then (op.1.run s.db).1.getD s.db else s.db) (s.log ++ (op.1.run s.db).2)
  split
  · cases hrun : (op.1.run s.db).1 with
    | none => exact hlog
    | some db' =>
      refine hlog.run ?_ ?_ hrun
      · intro id c hc o o' ho ho'
        exact hag.unique hc (.inl ho') (.inl ho)
      · intro id c hc o ho
        refine ⟨?_, fun f hf => hag.unique hc (.inl ho) (.inr hf)⟩
        exact hag.settles_wrote (h.row hc) hc ho.open (.inl ho)
  · exact hlog

-- ==== the whole run

theorem System.init_good (topics : UInt32 → Option Int32) :
    GoodDb (System.init topics).db (System.init topics).log :=
  nofun

/-- In every run whose requests ask open transactions only for the
outcome already decided, every transaction has one outcome throughout. -/
theorem txn_one_outcome (topics : UInt32 → Option Int32) (ops : List (Request × Bool))
    (hok : EachStep System.step (System.init topics) ops Agrees) :
    Always System.step (System.init topics) ops OneOutcome := by
  have hgood : Always System.step (System.init topics) ops fun s => GoodDb s.db s.log :=
    Always.of_eachStep (fun _ _ h hag => h.step hag) (System.init_good topics) hok
  exact fun pre hpre => (hgood pre hpre).oneOutcome

-- ==== two of one outcome

/-- One topic of two partitions. -/
def oneTopic : UInt32 → Option Int32 := fun t =>
  if t = 1 then some 2 else none

def part (p : Int32) : Key := ⟨1, p, Key.one_ne_zero⟩

/-- A transaction over both partitions, with an offset to commit. -/
def opening : List (Request × Bool) := [(.initProducerId 0 0 60000 7 fun _ => true, true),
   (.addPartitions 0 7 0 0 [part 0, part 1], true),
   (.txnOffsetCommit 0 7 0 5 0 true [(⟨"g", part 0⟩, ⟨10, 0, none⟩)], true)]

/-- An operator commits one partition and then aborts the other. -/
def forcedTwice : List (Request × Bool) := opening ++
  [(.writeTxnMarkers [⟨0, 7, 0, part 0, true, true⟩], true),
   (.writeTxnMarkers [⟨0, 7, 0, part 1, false, true⟩], true)]

/-- A commit that cannot write to the second partition. -/
def halfCommit (lands : Key → Bool) : EndTxn := ⟨0, 7, 0, true, 2, false, lands, 8⟩

/-- It fails, is not repeated, and the transaction times out. -/
def commitThenExpiry : List (Request × Bool) := opening ++
  [(.endTxn (halfCommit fun k => k.partition = 0), true),
   (.expire 60001 [⟨0, fun _ => true⟩], true)]

/-- Both leave a commit and an abort marker of one transaction in the
log; and the offset of the first was not applied, nor will it be. -/
theorem txn_two_outcomes :
    (¬ OneOutcome (forcedTwice.foldl System.step (System.init oneTopic)) ∧
      ¬ OneOutcome (commitThenExpiry.foldl System.step (System.init oneTopic))) ∧
    ((forcedTwice.foldl System.step (System.init oneTopic)).db.rows 0).map
      (fun c => (c.state, c.forcedResult, c.applied)) = some (.aborted, some true, []) := by
  refine ⟨⟨fun h => ?_, fun h => ?_⟩, by decide⟩
  · have hagree := h.agree ⟨part 0, 7, 0, true, 0, 1⟩ (by decide)
      ⟨part 1, 7, 0, false, 0, 1⟩ (by decide) rfl rfl
    cases hagree
  · have hagree := h.agree ⟨part 0, 7, 0, true, 0, 1⟩ (by decide)
      ⟨part 0, 7, 0, false, 0, 1⟩ (by decide) rfl rfl
    cases hagree

/-- The failed commit repeated, and an abort that finds nothing open. -/
def commitRepeated : List (Request × Bool) := opening ++
  [(.endTxn (halfCommit fun k => k.partition = 0), true),
   (.endTxn (halfCommit fun _ => true), true),
   (.initProducerId 0 5 60000 9 fun _ => true, true)]

theorem txn_one_outcome_repeated :
    EachStep System.step (System.init oneTopic) commitRepeated Agrees ∧
    Always System.step (System.init oneTopic) commitRepeated OneOutcome :=
  have hok : EachStep System.step (System.init oneTopic) commitRepeated Agrees := by decide
  ⟨hok, txn_one_outcome oneTopic commitRepeated hok⟩

end Kafgres.Txn
