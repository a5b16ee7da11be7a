/-
What a request can do to the producers and their transactions: a few
moves, each on the rows of one producer id.
-/
import Kafgres.TxnTables.Epochs
import Kafgres.TxnTables.Proofs.Producers
import Kafgres.Txn.Offsets

namespace Kafgres.TxnTables

open Storage Codec List Option Db
open Txn (TxnState OffsetKey Staged Finish)

variable {db db' : Db} {pid q : ℤ} {id : String} {o : Bool}

-- ==== lookups

theorem Db.txn_onTxn (set : TxnRow → TxnRow) (same : ∀ t, (set t).producerId = t.producerId) :
    (db.onTxn pid set same).txn q = if q = pid then (db.txn q).map set else db.txn q := by
  unfold onTxn txn
  rw [Table.find?_updateWhere]
  cases hf : db.txns.find? q with
  | none => simp
  | some t =>
    obtain rfl := (Table.find?_eq_some.1 hf).2
    split <;> simp [*]

theorem Db.txn_id {t : TxnRow} (h : db.txn pid = some t) :
    t.producerId = pid := (Table.find?_eq_some.1 h).2

theorem Db.ongoing_eq_true :
    db.ongoing pid = true ↔ ∃ t, db.txn pid = some t ∧ t.state = .ongoing := by
  unfold ongoing
  split
  next h => simp [h]
  next t h => simp [h]

theorem Db.ongoing_eq_false :
    db.ongoing pid = false ↔ ∀ t, db.txn pid = some t → t.state ≠ .ongoing := by
  rw [← Bool.not_eq_true, ongoing_eq_true]
  push Not
  rfl

/-- The row of a transaction that ended. -/
def TxnRow.ended (o : Bool) (t : TxnRow) : TxnRow :=
  { t with state := .ofResult o, offsetsPartitions := [] }

theorem TxnRow.ended_state (o : Bool) (t : TxnRow) : (t.ended o).state ≠ .ongoing := by
  cases o <;> exact nofun

theorem Db.txn_close :
    (db.close pid o).txn q = if q = pid then (db.txn q).map (TxnRow.ended o) else db.txn q := by
  unfold close
  rw [txn_onTxn]
  rfl

theorem Db.close_ongoing : (db.close pid o).ongoing pid = false := by
  rw [ongoing_eq_false]
  intro t ht
  rw [txn_close, if_pos rfl] at ht
  obtain ⟨t₀, -, rfl⟩ := map_eq_some_iff.1 ht
  exact TxnRow.ended_state o t₀

theorem Db.fence_eq_some :
    db.fence pid = some db' ↔ ∃ ps, db.producers.fence pid = some ps ∧
      { db with producers := ps } = db' := Option.map_eq_some_iff

/-- The row `begin_or_continue` leaves. -/
theorem Db.txn_begin (db : Db) (now : ℤ) (a : Admitted) (id : String) :
    ∃ t', (beginOrContinue db now a id).txn a.producerId = some t' ∧
      t'.state = .ongoing ∧ t'.epoch = a.epoch ∧
      t'.transactionalId = (db.txn a.producerId).elim id (·.transactionalId) := by
  unfold beginOrContinue txn
  rw [Table.find?_upsert, if_pos rfl]
  refine ⟨_, rfl, ?_⟩
  cases db.txns.find? a.producerId with
  | none | some => exact ⟨rfl, rfl, rfl⟩

variable {now : ℤ} {a : Admitted}

theorem Db.txn_begin_of_ne (h : q ≠ a.producerId) :
    (beginOrContinue db now a id).txn q = db.txn q := by
  unfold beginOrContinue txn
  rw [Table.find?_upsert, if_neg h]

@[simp] theorem begin_producers : (beginOrContinue db now a id).producers = db.producers := by
  unfold beginOrContinue
  split <;> rfl

-- ==== moves

/-- What a request may touch: the ids it acts for, the producers whose
rows it reaches, the offsets it sets, and the producers it drops. -/
structure Scope where
  acts : String → Prop
  reaches : ℤ → Prop
  keys : OffsetKey → Prop
  victims : ℤ → Prop

/-- Any rows and offsets. -/
abbrev Scope.wide (acts : String → Prop) (victims : ℤ → Prop) : Scope :=
  ⟨acts, fun _ => True, fun _ => True, victims⟩

variable {W : Scope} {α : Type}

/-- The tables beside producers and transactions. -/
structure Rest (W : Scope) (db db' : Db) : Prop where
  rows : ∀ q, ¬ W.reaches q →
    db'.partitions.filter (fun r => r.1 = q) = db.partitions.filter (fun r => r.1 = q) ∧
    db'.staged.filter (fun r => r.1 = q) = db.staged.filter fun r => r.1 = q
  offsets : ∀ k, Txn.stored db'.offsets k = Txn.stored db.offsets k ∨ W.keys k

/-- The transaction may end, with the offsets it staged. -/
def Ends (W : Scope) (db : Db) (pid : ℤ) : Prop :=
  W.reaches pid ∧ ∀ r ∈ db.staged, r.1 = pid → W.keys r.2.1

/-- One change of a producer's rows. -/
inductive Move (W : Scope) : Db → Db → Prop
  /-- Other tables, or a transaction that is not opened and keeps its
  epoch while it is open. -/
  | keep {db db' : Db} (pid : ℤ) (f : TxnRow → TxnRow)
      (producers : db'.producers = db.producers)
      (txns : ∀ q, db'.txn q =
        if q = pid then (db.txn q).map f else db.txn q)
      (owner : ∀ t, (f t).transactionalId = t.transactionalId)
      (stays : ∀ t, (f t).state = .ongoing → t.state = .ongoing ∧ (f t).epoch = t.epoch)
      (reach : W.reaches pid) (rest : Rest W db db') : Move W db db'
  | begins {db : Db} (now : ℤ) (a : Admitted) (id : String) (p : Producer)
      (by_id : W.acts id) (row : db.producers.ofId a.producerId = some p)
      (owner : p.transactionalId = some id) (epoch : p.epoch.1 = a.epoch) :
      Move W db (beginOrContinue db now a id)
  /-- An open transaction ends and its producer is fenced. -/
  | fences {db db' : Db} {pid : ℤ} (o : Bool)
      (isOpen : db.ongoing pid = true)
      (fenced : db.producers.fence pid = some db'.producers)
      (txns : ∀ q, db'.txn q =
        if q = pid then (db.txn q).map (TxnRow.ended o) else db.txn q)
      (reach : W.reaches pid) (rest : Rest W db db') : Move W db db'
  | rotates {db db' : Db} {pid : ℤ} {r : ℤ × ℤ} (committed : Bool)
      (id : String) (p : Producer) (by_id : W.acts id)
      (row : db.producers.ofId pid = some p)
      (owner : p.transactionalId = some id)
      (closed : db.ongoing pid = false)
      (rotated : db.rotate pid committed = some (db', r)) : Move W db db'
  | inits {db : Db} {pid : ℤ} (id : String) (ps : Producers)
      (epoch now timeout : ℤ) (by_id : W.acts id)
      (bumped : db.producers.initProducerId id = some (ps, pid, epoch)) :
      Move W db (({ db with producers := ps }.tidy id pid).initTxn id pid epoch now timeout)
  | evicts {db : Db} (gone : Producer → Bool)
      (idle : ∀ p, gone p = true → W.victims p.producerId ∧ db.ongoing p.producerId = false) :
      Move W db { db with producers := db.producers.remove gone }
  | allocates {db : Db} : Move W db { db with producers := db.producers.allocate }
  | loses {db : Db} : Move W db { db with producers := db.producers.skip }

abbrev Moves (W : Scope) := Relation.ReflTransGen (Move W)

/-- A filter that keeps every row of a producer id. -/
theorem filter_keep {rows : List (ℤ × α)} {f : ℤ × α → Bool}
    (h : ∀ r ∈ rows, r.1 = q → f r = true) :
    (rows.filter f).filter (fun r => r.1 = q) = rows.filter fun r => r.1 = q := by
  rw [List.filter_filter]
  refine filter_congr fun r hr => ?_
  by_cases hrq : r.1 = q
  · simp [hrq, h r hr hrq]
  · simp [hrq]

theorem filter_others (rows : List (ℤ × α)) (hq : q ≠ pid) :
    (rows.filter fun r => r.1 ≠ pid).filter (fun r => r.1 = q) = rows.filter fun r => r.1 = q :=
  filter_keep fun r _ hr => by simp [hr, hq]

theorem Rest.of_eq (hp : db'.partitions = db.partitions) (hs : db'.staged = db.staged)
    (ho : db'.offsets = db.offsets) : Rest W db db' :=
  ⟨fun _ _ => by rw [hp, hs]; exact ⟨rfl, rfl⟩, fun _ => .inl (by rw [ho])⟩

/-- The rows are those of one producer id, and no offset changes. -/
theorem Rest.of_pid (hpid : W.reaches pid) (ho : db'.offsets = db.offsets)
    (h : ∀ q, q ≠ pid →
      db'.partitions.filter (fun r => r.1 = q) = db.partitions.filter (fun r => r.1 = q) ∧
      db'.staged.filter (fun r => r.1 = q) = db.staged.filter fun r => r.1 = q) :
    Rest W db db' :=
  ⟨fun q hq => h q fun he => hq (he ▸ hpid), fun _ => .inl (by rw [ho])⟩

theorem Ends.mono (h : Ends W db pid) (hsub : ∀ r ∈ db'.staged, r ∈ db.staged) : Ends W db' pid :=
  ⟨h.1, fun r hr => h.2 r (hsub r hr)⟩

theorem Ends.wide {acts : String → Prop} {victims : ℤ → Prop} : Ends (.wide acts victims) db pid :=
  ⟨trivial, fun _ _ _ => trivial⟩

/-- The end of a transaction: its offsets are the ones it staged. -/
theorem Ends.rest (h : Ends W db pid) : Rest W db (db.close pid o) := by
  constructor
  · intro q hq
    have hne : q ≠ pid := fun he => hq (he ▸ h.1)
    exact ⟨filter_others _ hne, filter_others _ hne⟩
  · intro k
    cases o with
    | false => exact .inl rfl
    | true =>
      by_cases hmem : ∃ r ∈ db.staged, r.1 = pid ∧ r.2.1 = k
      · obtain ⟨r, hr, hpid, rfl⟩ := hmem
        exact .inr (h.2 r hr hpid)
      refine .inl (Txn.stored_applied_of_notMem ?_ _)
      intro row hrow he
      obtain ⟨r, hr, rfl⟩ := mem_map.1 hrow
      obtain ⟨hr, hpid⟩ := mem_filter.1 hr
      exact hmem ⟨r, hr, of_decide_eq_true hpid, he⟩

/-- Neither table is touched. -/
theorem Move.aside (h : db'.producers = db.producers ∧ db'.txns = db.txns) (hpid : W.reaches pid)
    (hrest : Rest W db db') : Move W db db' := by
  refine .keep pid (fun t => t) h.1 (fun q => ?_) (fun _ => rfl) (fun t h => ⟨h, rfl⟩) hpid hrest
  unfold txn
  rw [h.2, Option.map_id', ite_self]

theorem Move.beside {acts : String → Prop} {victims : ℤ → Prop}
    (h : db'.producers = db.producers ∧ db'.txns = db.txns) : Move (.wide acts victims) db db' :=
  @Move.aside _ _ 0 _ h trivial ⟨fun _ hq => absurd trivial hq, fun _ => .inr trivial⟩

/-- A transaction ends. -/
theorem Move.closes (o : Bool) (h : Ends W db pid) : Move W db (db.close pid o) :=
  .keep pid (TxnRow.ended o) rfl (fun _ => txn_close) (fun _ => rfl)
    (fun t h => absurd h (TxnRow.ended_state o t)) h.1 h.rest

/-- A transaction ends and its producer is fenced. -/
theorem Move.closesFenced (he : Ends W db pid) (hopen : db.ongoing pid = true)
    (h : (db.close pid o).fence pid = some db') : Move W db db' := by
  obtain ⟨ps, hps, rfl⟩ := fence_eq_some.1 h
  have hrest : Rest W db (db.close pid o) := he.rest
  exact .fences o hopen hps (fun _ => txn_close) he.1 ⟨hrest.rows, hrest.offsets⟩

/-- An abort with nothing open. -/
theorem Move.aborts (hpid : W.reaches pid) :
    Move W db (db.onTxn pid (fun t => { t with state := .aborted, offsetsPartitions := [] })
      fun _ => rfl) :=
  .keep pid _ rfl (fun _ => txn_onTxn _ _) (fun _ => rfl) nofun hpid (.of_eq rfl rfl rfl)

theorem moves_same {α : Type} {x y : α}
    (h : some (db, x) = some (db', y)) : Moves W db db' := by
  cases h
  exact .refl

-- ==== endings

variable {lands : Key → Bool} {epoch : ℤ} {committed : Bool} {reply : EndTxnReply}
  {code : ErrorCode} {f : Finish} {k : Key} {txn : Option String} {group : String} {version : ℤ}

/-- What `finish_transaction` leaves when it does not fail. -/
theorem finishTransaction_cases
    (h : (finishTransaction db pid epoch committed lands).1 = some (db', f)) :
    (db' = db ∧ f = .notOurs) ∨
    (∃ last, db' = db ∧ f = .notOpen last ∧ db.ongoing pid = false) ∨
    (db.ongoing pid = true ∧ f = .ended ∧ db' = db.close pid committed) ∨
    (∃ o, db.ongoing pid = true ∧ f = .overridden ∧ (db.close pid o).fence pid = some db') := by
  unfold finishTransaction at h
  cases ht : db.txn pid with
  | none =>
    rw [ht] at h
    cases h
    exact .inl ⟨rfl, rfl⟩
  | some t =>
    simp only [ht] at h
    split at h
    · cases h
      exact .inl ⟨rfl, rfl⟩
    have hclosed : t.state ≠ .ongoing → db.ongoing pid = false := by
      intro hne
      rw [ongoing_eq_false]
      intro t' ht'
      rw [ht, some_inj] at ht'
      exact ht' ▸ hne
    cases hs : t.state with
    | empty | committed | aborted =>
      simp only [hs] at h
      cases h
      exact .inr (.inl ⟨_, rfl, rfl, hclosed (by simp [hs])⟩)
    | ongoing =>
      have hopen : db.ongoing pid = true := ongoing_eq_true.2 ⟨t, ht, hs⟩
      simp only [hs] at h
      split at h
      · split at h
        · obtain ⟨db₁, hf, heq⟩ := map_eq_some_iff.1 h
          cases heq
          exact .inr (.inr (.inr ⟨_, hopen, rfl, hf⟩))
        · next heq =>
          cases h
          exact .inr (.inr (.inl ⟨hopen, rfl, by rw [not_not.1 heq]⟩))
      · cases h

theorem fence_staged (h : (db.close pid o).fence pid = some db') :
    ∀ r ∈ db'.staged, r ∈ db.staged := by
  obtain ⟨ps, -, rfl⟩ := fence_eq_some.1 h
  exact fun r hr => (mem_filter.1 hr).1

theorem finishTransaction_moves (he : Ends W db pid)
    (h : (finishTransaction db pid epoch committed lands).1 = some (db', f)) :
    Moves W db db' ∧ ∀ r ∈ db'.staged, r ∈ db.staged := by
  rcases finishTransaction_cases h with ⟨rfl, -⟩ | ⟨-, rfl, -, -⟩ | ⟨-, -, rfl⟩ | ⟨o, hopen, -, hf⟩
  · exact ⟨.refl, fun _ hr => hr⟩
  · exact ⟨.refl, fun _ hr => hr⟩
  · exact ⟨.single (.closes _ he), fun r hr => (mem_filter.1 hr).1⟩
  · exact ⟨.single (.closesFenced he hopen hf), fence_staged hf⟩

/-- What `finish_partition` leaves: all as it was, or the partition
marked and, if it was the last, the transaction ended. -/
theorem finishPartition_cases {lands : Bool}
    (h : (finishPartition db pid epoch k committed lands).1 = some (db', code)) :
    db' = db ∨ db.ongoing pid = true ∧ (db' = db.mark pid k committed ∨
      ((db.mark pid k committed).close pid committed).fence pid = some db') := by
  unfold finishPartition at h
  cases ht : db.txn pid with
  | none =>
    rw [ht] at h
    cases h
    exact .inl rfl
  | some t =>
    simp only [ht] at h
    split at h
    · cases h
      exact .inl rfl
    next hlisted =>
    push Not at hlisted
    split at h
    · cases h
      exact .inl rfl
    split at h
    · refine .inr ⟨ongoing_eq_true.2 ⟨t, ht, hlisted.1⟩, ?_⟩
      split at h
      · cases h
        exact .inl rfl
      obtain ⟨db₁, hf, heq⟩ := map_eq_some_iff.1 h
      cases heq
      exact .inr hf
    · cases h
      exact .inl rfl

theorem Db.txn_mark :
    (db.mark pid k committed).txn q = if q = pid then (db.txn q).map fun t => { t with
        forcedResult := some (t.forcedResult.getD committed) }
      else db.txn q :=
  txn_onTxn _ _

theorem finishPartition_moves {lands : Bool} (he : Ends W db pid)
    (h : (finishPartition db pid epoch k committed lands).1 = some (db', code)) :
    Moves W db db' ∧ ∀ r ∈ db'.staged, r ∈ db.staged := by
  have hmark : Move W db (db.mark pid k committed) := by
    refine .keep pid _ rfl (fun _ => txn_mark) (fun _ => rfl) (fun t h => ⟨h, rfl⟩) he.1 ?_
    refine .of_pid he.1 rfl fun q hq => ⟨filter_keep fun r _ hr => ?_, rfl⟩
    simp [Prod.ext_iff, hr, hq]
  rcases finishPartition_cases h with rfl | ⟨hopen, rfl | hf⟩
  · exact ⟨.refl, fun _ hr => hr⟩
  · exact ⟨.single hmark, fun _ hr => hr⟩
  · have hsub := fence_staged hf
    refine ⟨.tail (.single hmark) (.closesFenced he ?_ hf), hsub⟩
    obtain ⟨t, ht, hst⟩ := ongoing_eq_true.1 hopen
    simp [ongoing_eq_true, txn_mark, ht, hst]

/-- A marker that is not refused is `finish_partition`'s. -/
theorem markOne_cases (db : Db) (e : Force) :
    (∃ code, markOne db e = (some (db, code), [])) ∨
      ∃ k, markOne db e = finishPartition db e.producerId e.producerEpoch k
        e.committed e.lands := by
  unfold markOne
  iterate 5
    split
    · exact .inl ⟨_, rfl⟩
  exact .inr ⟨_, rfl⟩

theorem markOne_moves {e : Force} (he : Ends W db e.producerId)
    (h : (markOne db e).1 = some (db', code)) :
    Moves W db db' ∧ ∀ r ∈ db'.staged, r ∈ db.staged := by
  rcases markOne_cases db e with ⟨code', hsame⟩ | ⟨k, hone⟩
  · rw [hsame] at h
    cases h
    exact ⟨.refl, fun _ hr => hr⟩
  · rw [hone] at h
    exact finishPartition_moves he h

theorem writeTxnMarkers_moves {es : List Force} {codes : List ErrorCode}
    (hes : ∀ e ∈ es, Ends W db e.producerId)
    (h : (writeTxnMarkers db es).1 = some (db', codes)) : Moves W db db' := by
  induction es generalizing db codes with
  | nil => exact moves_same h
  | cons e es ih =>
    unfold writeTxnMarkers at h
    split at h
    next => cases h
    next db₁ code ms he =>
    obtain ⟨⟨db₂, codes'⟩, hr, heq⟩ := map_eq_some_iff.1 h
    cases heq
    have hone : (markOne db e).1 = some (db₁, code) := by rw [he]
    obtain ⟨hmoves, hsub⟩ := markOne_moves (hes e mem_cons_self) hone
    exact hmoves.trans (ih (fun e' he' => (hes e' (.tail _ he')).mono hsub) hr)

theorem abortAll_moves {l : List (ℤ × ℤ)} (hl : ∀ x ∈ l, Ends W db x.1)
    (h : (abortAll lands db l).1 = some db') : Moves W db db' := by
  induction l generalizing db with
  | nil => exact some_inj.1 h ▸ .refl
  | cons x l ih =>
    obtain ⟨pid, epoch⟩ := x
    unfold abortAll at h
    split at h
    next => cases h
    next db₁ f ms he =>
    have hone : (finishTransaction db pid epoch false lands).1 = some (db₁, f) := by rw [he]
    obtain ⟨hmoves, hsub⟩ := finishTransaction_moves (hl _ mem_cons_self) hone
    exact hmoves.trans (ih (fun x hx => (hl x (.tail _ hx)).mono hsub) h)

section

variable {acts : String → Prop} {victims : ℤ → Prop}

theorem expireOne_moves (h : (expireOne db now pid lands).1 = some db') :
    Moves (.wide acts victims) db db' := by
  unfold expireOne at h
  split at h
  · exact some_inj.1 h ▸ .refl
  split at h
  · obtain ⟨⟨db₁, f⟩, hf, hrest⟩ := bind_eq_some_iff.1 h
    rcases finishTransaction_cases hf with ⟨rfl, rfl⟩ |
      ⟨last, rfl, rfl, -⟩ | ⟨hopen, rfl, rfl⟩ | ⟨o, hopen, rfl, hfence⟩
    · exact some_inj.1 hrest ▸ .refl
    · exact some_inj.1 hrest ▸ .refl
    · exact .single (.closesFenced .wide hopen hrest)
    · exact some_inj.1 hrest ▸ .single (.closesFenced .wide hopen hfence)
  · exact some_inj.1 h ▸ .refl

theorem expire_moves {stale : List ℤ}
    (h : (expireStaleTransactions now lands db stale).1 = some db') :
    Moves (.wide acts victims) db db' := by
  induction stale generalizing db with
  | nil => exact some_inj.1 h ▸ .refl
  | cons pid stale ih =>
    unfold expireStaleTransactions at h
    split at h
    next => cases h
    next db₁ ms he =>
    have hone : (expireOne db now pid lands).1 = some db₁ := by
      rw [he]
    exact (expireOne_moves hone).trans (ih h)

end

-- ==== admission

/-- A verdict lets the current pair of the id act, and no other. -/
theorem verdict_eq_ok :
    verdict db id pid epoch = .ok a ↔
      id ≠ "" ∧ a = ⟨pid, epoch⟩ ∧ ∃ p, db.producers.ofId pid = some p ∧
        p.transactionalId = some id ∧ p.epoch.1 = epoch := by
  unfold verdict judge
  split
  next hid => simp [hid]
  next hid =>
  cases hp : db.producers.ofId pid with
  | none => simp [hid]
  | some p =>
    cases ho : p.transactionalId with
    | none => simp [hid, ho]
    | some owner =>
      unfold admission
      by_cases hown : owner = id
      · by_cases he : epoch = p.epoch.1
        · simp [hown, hid, he, ho, eq_comm]
        · simp [hown, hid, he, ho, Ne.symm he]
      · simp [hown, hid, ho]

/-- A batch is let through only with the current pair. -/
theorem verifyHeldProduce_admitted {b : Batch} (h : ∀ code,
      verifyHeldProduce db txn b version ≠ .refused code) :
    ∃ id a, txn = some id ∧ verdict db id b.producerId b.producerEpoch = .ok a ∧
      (verifyHeldProduce db txn b version = .added ∨
        verifyHeldProduce db txn b version = .addsPartition a) := by
  unfold verifyHeldProduce at h ⊢
  cases txn with
  | none => exact absurd rfl (h _)
  | some id =>
    dsimp only at h ⊢
    have hverdict : verdict db id b.producerId b.producerEpoch =
        (judge db id b.producerId b.producerEpoch (some b.key)).1 := by
      unfold verdict judge
      iterate 3
        split
        · rfl
      unfold admission
      split
      · rfl
      · split <;> rfl
    unfold produceVerdict at h ⊢
    split at h
    case h_1 | h_2 => exact absurd rfl (h _)
    next a hj =>
      exact ⟨id, a, rfl, hverdict.trans (by rw [hj]), .inl rfl⟩
    next a hj =>
    split at h
    next hv =>
      exact ⟨id, a, rfl, hverdict.trans (by rw [hj]), .inr (if_pos hv)⟩
    next =>
      split at h <;> exact absurd rfl (h _)

theorem verdict_begins (now : ℤ) (hacts : W.acts id) (hps : db'.producers = db.producers)
    (h : verdict db id pid epoch = .ok a) : Move W db' (beginOrContinue db' now a id) := by
  obtain ⟨-, rfl, p, hp, howner, he⟩ := verdict_eq_ok.1 h
  exact .begins now _ id p hacts (by rw [hps]; exact hp) howner he

theorem Verdict.code_ne_none (version : ℤ) (v : Verdict) : v.code version ≠ .none := by
  cases v with
  | noTransactionalId | unknownProducer => exact nofun
  | stale =>
    unfold Verdict.code
    dsimp only
    split <;> exact nofun

/-- Nothing is staged for a pair that may not act. -/
theorem TxnOffsetCommit.refused {req : TxnOffsetCommit} {v : Verdict}
    (h : verdict db req.transactionalId req.producerId req.producerEpoch = .error v) :
    (∀ p, req.partitionCode db p ≠ .none) ∧ req.accepted db = [] := by
  have hcode : req.code (.error v) ≠ .none := by
    unfold TxnOffsetCommit.code
    split
    · next heq => cases heq
    · exact nofun
    · exact Verdict.code_ne_none _ _
  have hpart : ∀ p, req.partitionCode db p ≠ .none := by
    intro p
    unfold TxnOffsetCommit.partitionCode
    simp only [h]
    split
    · exact hcode
    split
    · exact nofun
    split
    · exact nofun
    · have hok : req.unverified db (.error v) = .none := rfl
      rw [hok, if_neg fun h => h rfl]
      exact hcode
  refine ⟨hpart, ?_⟩
  unfold TxnOffsetCommit.accepted
  rw [filterMap_eq_nil_iff]
  intro p _
  split
  · rfl
  · exact if_neg (hpart p)

-- ==== requests

theorem foldl_moves {f : Db → α → Db} (hf : ∀ db x, Move W db (f db x)) (l : List α) (db : Db) :
    Moves W db (l.foldl f db) := by
  induction l generalizing db with
  | nil => exact .refl
  | cons x l ih => exact .head (hf db x) (ih _)

theorem addPartition_aside (db : Db) (pid : ℤ) (k : Key) :
    (addPartition db pid k).producers = db.producers ∧ (addPartition db pid k).txns = db.txns := by
  unfold addPartition
  split <;> exact ⟨rfl, rfl⟩

theorem Move.addsPartition (hpid : W.reaches pid) (db : Db) (k : Key) :
    Move W db (addPartition db pid k) := by
  refine .aside (addPartition_aside db pid k) hpid ?_
  unfold addPartition
  split
  · exact .of_eq rfl rfl rfl
  · exact .of_pid hpid rfl fun q hq => ⟨by simp [filter_append, Ne.symm hq], rfl⟩

theorem Move.stages (hpid : W.reaches pid) (db : Db) (row : Staged) :
    Move W db (stage db pid row) := by
  refine .aside ⟨rfl, rfl⟩ hpid (.of_pid hpid rfl fun q hq => ⟨rfl, ?_⟩)
  show (db.staged.filter _ ++ [(pid, row)]).filter _ = _
  rw [filter_append, filter_keep fun r _ hr => by simp [hr, hq]]
  simp [Ne.symm hq]

/-- Another of the transaction's offsets partitions. -/
theorem Move.addsOffsets (hpid : W.reaches a.producerId) :
    Move W db (addOffsetsPartition db a group) :=
  .keep a.producerId _ rfl (fun _ => txn_onTxn _ _) (fun _ => rfl) (fun _ h => ⟨h, rfl⟩) hpid
    (.of_eq rfl rfl rfl)

/-- A pair that is admitted moves its own rows; if a transaction begins,
it acts for its id. -/
def Admits (W : Scope) (db : Db) (begins : Prop) (id : String) (pid epoch : ℤ) : Prop :=
  ∀ a, verdict db id pid epoch = .ok a → W.reaches pid ∧ (begins → W.acts id)

theorem addPartitions_moves {topics : List (String × List Int32)}
    (h : Admits W db (version < 4) id pid epoch) :
    Moves W db (handleAddPartitions db id pid epoch version now topics).1 := by
  unfold handleAddPartitions
  split
  · exact .refl
  next hv =>
  split
  · exact .refl
  · next a ha =>
    exact .head (verdict_begins now ((h a ha).2 (lt_of_not_ge hv)) rfl ha)
      (foldl_moves (Move.addsPartition (h a ha).1) _ _)

theorem Admits.begins_adds {begins : Prop} (h : Admits W db begins id pid epoch) (hb : begins)
    (ha : verdict db id pid epoch = .ok a) :
    Moves W db (addOffsetsPartition (beginOrContinue db now a id) a group) := by
  refine .tail (.single (verdict_begins _ ((h a ha).2 hb) rfl ha)) (.addsOffsets ?_)
  obtain ⟨-, rfl, -⟩ := verdict_eq_ok.1 ha
  exact (h _ ha).1

theorem addOffsets_moves (h : Admits W db True id pid epoch) :
    Moves W db (handleAddOffsets db id pid epoch version now group).1 := by
  unfold handleAddOffsets
  split
  · exact .refl
  · next a ha => exact h.begins_adds trivial ha

theorem txnOffsetCommit_moves {req : TxnOffsetCommit}
    (h : Admits W db (req.begins db = true) req.transactionalId req.producerId
      req.producerEpoch) :
    Moves W db (handleTxnOffsetCommit db req).1 := by
  unfold handleTxnOffsetCommit
  cases ha : verdict db req.transactionalId req.producerId req.producerEpoch with
  | error v =>
    rw [(TxnOffsetCommit.refused ha).2]
    exact .refl
  | ok a =>
    refine .trans ?_ (foldl_moves (Move.stages (h a ha).1) _ _)
    dsimp only
    split
    · next hb => exact h.begins_adds hb ha
    · exact .refl

/-- The batches of a produce are reserved one after another; the
producers are as they were when the batches were judged. -/
theorem reserve_moves {batches : List Batch} {s : Db × List ℤ}
    (hacts : ∀ b ∈ batches, ∀ id, txn = some id →
      Admits W db (∃ a, verifyHeldProduce db txn b version = .addsPartition a) id b.producerId
        b.producerEpoch)
    (hs : s.1.producers = db.producers) :
    Moves W s.1 ((batches.zip (batches.map fun b =>
        verifyHeldProduce db txn b version)).foldl (reserve now (txn.getD "")) s).1 := by
  induction batches generalizing s with
  | nil => exact .refl
  | cons b batches ih =>
    rw [map_cons, zip_cons_cons, foldl_cons]
    have hone : let s' := reserve now (txn.getD "") s (b, verifyHeldProduce db txn b version)
        Moves W s.1 s'.1 ∧ s'.1.producers = db.producers := by
      by_cases hr : ∃ code, verifyHeldProduce db txn b version = .refused code
      · obtain ⟨code, hr⟩ := hr
        simp only [hr]
        exact ⟨.refl, hs⟩
      push Not at hr
      obtain ⟨id, a, rfl, ha, hcase⟩ := verifyHeldProduce_admitted hr
      obtain ⟨hpid, hid⟩ := hacts b mem_cons_self id rfl a ha
      have hadd := fun d : Db => Move.addsPartition hpid d b.key
      have haside := fun d : Db => (addPartition_aside d b.producerId b.key).1
      unfold reserve
      rcases hcase with hcase | hcase <;> simp only [hcase]
      · exact ⟨.single (hadd _), (haside _).trans hs⟩
      split
      · exact ⟨.single (hadd _), (haside _).trans hs⟩
      · exact ⟨.tail (.single (verdict_begins _ (hid ⟨a, hcase⟩) hs ha)) (hadd _),
          ((haside _).trans begin_producers).trans hs⟩
    exact hone.1.trans (ih (fun b' hb' => hacts b' (.tail _ hb')) hone.2)

theorem EndTxn.rotate_cases {req : EndTxn} (h : req.rotate db = some (db', reply)) :
    db' = db ∨ ∃ r, db.rotate req.producerId req.committed = some (db', r) := by
  unfold EndTxn.rotate at h
  split at h
  · obtain ⟨⟨db₁, r⟩, hr, heq⟩ := map_eq_some_iff.1 h
    cases heq
    exact .inr ⟨r, hr⟩
  · cases h
    exact .inl rfl

theorem EndTxn.aborted_ongoing (req : EndTxn) (db : Db) :
    (req.aborted db).ongoing req.producerId = false := by
  rw [ongoing_eq_false]
  intro t ht
  rw [txn_onTxn, if_pos rfl] at ht
  obtain ⟨t₀, -, rfl⟩ := map_eq_some_iff.1 ht
  exact nofun

/-- What follows `finish_transaction`: nothing, or a rotation, which an
abort gets also with nothing open. -/
theorem EndTxn.answer_cases {req : EndTxn} (h : req.answer db f = some (db', reply)) :
    db' = db ∨ f = .ended ∧ req.rotate db = some (db', reply) ∨ (∃ last, f = .notOpen last) ∧
        req.rotate (req.aborted db) = some (db', reply) := by
  cases f with
  | notOurs | overridden =>
    cases h
    exact .inl rfl
  | ended => exact .inr (.inl ⟨rfl, h⟩)
  | notOpen last =>
    unfold EndTxn.answer at h
    dsimp only at h
    split at h
    · split at h
      · cases h
        exact .inl rfl
      · exact .inr (.inr ⟨⟨last, rfl⟩, h⟩)
    · split at h <;> cases h <;> exact .inl rfl

theorem EndTxn.rotate_moves {req : EndTxn} (hacts : W.acts id) {p : Producer}
    (hp : db.producers.ofId req.producerId = some p) (howner : p.transactionalId = some id)
    (hclosed : db.ongoing req.producerId = false)
    (h : req.rotate db = some (db', reply)) : Moves W db db' := by
  rcases EndTxn.rotate_cases h with rfl | ⟨r, hr⟩
  · exact .refl
  · exact .single (.rotates req.committed id p hacts hp howner hclosed hr)

theorem endTxn_moves {req : EndTxn} (hacts : ∀ a, verdict db req.transactionalId req.producerId
      req.producerEpoch = .ok a → W.acts req.transactionalId ∧ Ends W db req.producerId)
    (h : (handleEndTxn db req).1 = some (db', reply)) : Moves W db db' := by
  unfold handleEndTxn at h
  split at h
  · exact moves_same h
  split at h
  · exact moves_same h
  · exact moves_same h
  split at h
  · exact moves_same h
  next a ha =>
  obtain ⟨⟨db₁, f⟩, hf, hans⟩ := bind_eq_some_iff.1 h
  obtain ⟨-, -, p, hp, howner, -⟩ := verdict_eq_ok.1 ha
  obtain ⟨hid, hends⟩ := hacts a ha
  have hfin := (finishTransaction_moves hends hf).1
  rcases finishTransaction_cases hf with ⟨-, rfl⟩ | ⟨last, rfl, rfl, -⟩ |
    ⟨-, rfl, rfl⟩ | ⟨o, -, rfl, -⟩
  · exact hfin.trans (moves_same hans)
  · rcases EndTxn.answer_cases hans with rfl | ⟨hf, -⟩ | ⟨-, hrot⟩
    · exact .refl
    · cases hf
    · exact .head (.aborts hends.1) (EndTxn.rotate_moves hid hp howner (req.aborted_ongoing _) hrot)
  · exact hfin.trans (EndTxn.rotate_moves hid hp howner close_ongoing hans)
  · exact hfin.trans (moves_same hans)

theorem initProducerId_moves {timeoutMs : ℤ} {r : ℤ × ℤ}
    (hacts : ∀ id, txn = some id → id ≠ "" → W.acts id ∧ ∀ x ∈ abandoned db id, Ends W db x.1)
    (h : (handleInitProducerId db txn now timeoutMs lands).1 = some (db', r)) : Moves W db db' := by
  unfold handleInitProducerId at h
  split at h
  · cases h
    exact .single .allocates
  next id hid =>
  obtain ⟨db₁, habort, hrest⟩ := bind_eq_some_iff.1 h
  obtain ⟨⟨ps, pid, epoch⟩, hinit, heq⟩ := map_eq_some_iff.1 hrest
  cases heq
  obtain ⟨hid, hne⟩ := filter_eq_some_iff.1 hid
  obtain ⟨hid, hends⟩ := hacts id hid (of_decide_eq_true hne)
  exact .tail (abortAll_moves hends habort) (.inits id ps epoch now _ hid hinit)

theorem exists_of_map_fst {o : Option (Db × α)} (h : o.map (·.1) = some db') :
    ∃ x, o = some (db', x) := by
  obtain ⟨⟨d, x⟩, rfl, rfl⟩ := map_eq_some_iff.1 h
  exact ⟨x, rfl⟩

/-- Every request is a sequence of moves, for the ids it turns. -/
theorem Request.moves {req : Request} (h : (req.run db).1 = some db') :
    Moves (.wide (req.Turns db) req.Victims) db db' := by
  cases req with
  | initProducerId txn now timeoutMs lands =>
    obtain ⟨r, hr⟩ := exists_of_map_fst h
    exact initProducerId_moves (fun id hid _ => ⟨hid, fun _ _ => .wide⟩) hr
  | addPartitions id pid epoch version now topics =>
    exact some_inj.1 h ▸ addPartitions_moves fun a ha => ⟨trivial, fun hv => ⟨hv, rfl, a, ha⟩⟩
  | addOffsets id pid epoch version now group =>
    exact some_inj.1 h ▸ addOffsets_moves fun a ha => ⟨trivial, fun _ => ⟨rfl, a, ha⟩⟩
  | txnOffsetCommit req =>
    exact some_inj.1 h ▸ txnOffsetCommit_moves fun a ha => ⟨trivial, fun hb => ⟨hb, rfl, a, ha⟩⟩
  | produce txn version now batches =>
    refine some_inj.1 h ▸ reserve_moves (s := (db, [])) ?_ rfl
    exact fun b hb id hid a ha => ⟨trivial, fun hadds => ⟨hid, b, hb, hadds⟩⟩
  | endTxn req =>
    obtain ⟨r, hr⟩ := exists_of_map_fst h
    exact endTxn_moves (fun a ha => ⟨⟨rfl, a, ha⟩, .wide⟩) hr
  | writeTxnMarkers entries =>
    obtain ⟨r, hr⟩ := exists_of_map_fst h
    exact writeTxnMarkers_moves (fun _ _ => .wide) hr
  | expire now stale lands => exact expire_moves h
  | sweepProducers victims =>
    refine some_inj.1 h ▸ .single (.evicts _ fun p hp => ?_)
    rw [Bool.and_eq_true, decide_eq_true_eq, Bool.not_eq_true'] at hp
    exact hp
  | createTopic | createPartitions =>
    exact some_inj.1 h ▸ .single (.beside ⟨rfl, rfl⟩)
  | deleteTopic name =>
    have hdb : TxnTables.deleteTopic db name = db' := some_inj.1 h
    subst hdb
    unfold TxnTables.deleteTopic
    split
    · exact .refl
    · exact .single (.beside ⟨rfl, rfl⟩)

end Kafgres.TxnTables
