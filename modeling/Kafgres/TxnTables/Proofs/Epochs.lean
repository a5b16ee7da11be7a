/-
Epochs of producers and of their transactions.
-/
import Kafgres.TxnTables.Proofs.Moves

namespace Kafgres.TxnTables

open Storage Meta Producers Function Option Db
open Txn (Finish)

variable {db db' : Db} {pid q : ℤ} {id : String}
  {W : Scope} {committed o : Bool} {p : Producer} {ps : Producers}
  {t : TxnRow} {epoch now timeout : ℤ} {r : ℤ × ℤ}

-- ==== lookups

theorem Db.txn_tidy :
    (db.tidy id pid).txn q = (db.txn q).filter fun t =>
      !(decide (t.transactionalId = id) && decide (t.producerId ≠ pid) &&
        decide (t.state ≠ .ongoing)) :=
  Table.find?_delete ..

theorem Db.txn_tidy_self : (db.tidy id pid).txn pid = db.txn pid := by
  rw [txn_tidy]
  cases h : db.txn pid with
  | none => rfl
  | some t => simp [txn_id h]

theorem Db.txn_of_tidy (h : (db.tidy id pid).txn q = some t) : db.txn q = some t := by
  rw [txn_tidy, filter_eq_some_iff] at h
  exact h.1

theorem Db.txn_initTxn (db : Db) (id : String) (pid epoch now timeout : ℤ) :
    ∃ t', (db.initTxn id pid epoch now timeout).txn pid = some t' ∧ t'.epoch = epoch ∧
      t'.transactionalId = (db.txn pid).elim id (·.transactionalId) := by
  unfold initTxn txn
  rw [Table.find?_upsert, if_pos rfl]
  refine ⟨_, rfl, ?_⟩
  cases db.txns.find? pid with
  | none | some => exact ⟨rfl, rfl⟩

theorem Db.txn_initTxn_of_ne (h : q ≠ pid) :
    (db.initTxn id pid epoch now timeout).txn q = db.txn q := by
  unfold initTxn txn
  rw [Table.find?_upsert, if_neg h]

/-- A rotation keeps the producer id, or moves both rows to a fresh
one. -/
theorem Db.rotate_cases (hp : db.producers.ofId pid = some p)
    (h : db.rotate pid committed = some (db', r)) :
    (∃ e', r = (pid, e'.1) ∧ e'.1 = p.epoch.1 + 1 ∧ db'.txn = db.txn ∧
      db'.producers = (db.producers.rotate pid committed).1 ∧
      db'.producers.ofId = update db.producers.ofId pid (some { p with
          epoch := e'
          retired := some ⟨pid, p.epoch.1, committed⟩ }) ∧
      db'.producers.next = db.producers.next) ∨
    (r = (db.producers.next, 0) ∧ (∀ q, db'.txn q = if q = db.producers.next then
          (db.txn pid).map fun t =>
            { t with producerId := db.producers.next, epoch := 0 }
        else if q = pid then none else db.txn q) ∧
      db'.producers = (db.producers.rotate pid committed).1 ∧
      db'.producers.ofId = update (update db.producers.ofId pid none)
          db.producers.next
          (some ⟨db.producers.next, .zero, p.transactionalId, some ⟨pid, p.epoch.1, committed⟩⟩) ∧
      db'.producers.next = db.producers.next + 1) := by
  have hlt := lt_next hp
  unfold rotate at h
  rcases Producers.rotate_cases committed hp with
    ⟨e', hr, he', hrow, hnext⟩ | ⟨hr, hrow, hnext⟩
  · rw [if_pos (by rw [hr])] at h
    cases h
    exact .inl ⟨e', hr, he', rfl, rfl, hrow, hnext⟩
  · rw [if_neg (by rw [hr]; exact hlt.ne')] at h
    split at h
    · cases h
      refine .inr ⟨hr, fun q => ?_, rfl, hrow, hnext⟩
      have hfst : (db.producers.rotate pid committed).2.1 = db.producers.next := by rw [hr]
      unfold txn
      rw [Table.find?_rename]
      simp only [hfst]
    · cases h

-- ==== agreement

/-- What holds of the two rows of a producer id. -/
structure Inv (db : Db) : Prop where
  below : ∀ q t, db.txn q = some t → q < db.producers.next
  owner : ∀ q t p, db.txn q = some t → db.producers.ofId q = some p →
    p.transactionalId = some t.transactionalId
  agree : ∀ q t p, db.txn q = some t → t.state = .ongoing →
    db.producers.ofId q = some p → t.epoch = p.epoch.1

theorem Inv.init (topics : Topics) : Inv (System.init topics).db := by
  have hnone : ∀ q t, (System.init topics).db.txn q ≠ some t :=
    fun q t h => nomatch (show none = some t from h)
  exact ⟨fun q t ht => absurd ht (hnone q t), fun q t p ht => absurd ht (hnone q t),
    fun q t p ht => absurd ht (hnone q t)⟩

/-- Both rows of a producer id. -/
theorem Inv.row (h : Inv db) (ht : db.txn q = some t) (hp : db.producers.ofId q = some p) :
    p.transactionalId = some t.transactionalId ∧ (t.state = .ongoing → t.epoch = p.epoch.1) :=
  ⟨h.owner q t p ht hp, fun ho => h.agree q t p ht ho hp⟩

theorem Inv.of_rows (hbelow : ∀ q t, db.txn q = some t → q < db.producers.next)
    (h : ∀ q t p, db.txn q = some t → db.producers.ofId q = some p →
      p.transactionalId = some t.transactionalId ∧ (t.state = .ongoing → t.epoch = p.epoch.1)) :
    Inv db :=
  ⟨hbelow, fun q t p ht hp => (h q t p ht hp).1, fun q t p ht ho hp => (h q t p ht hp).2 ho⟩

section

variable (h : Inv db)
include h

/-- One transaction row moves on: it keeps its owner, and its epoch if it
is open. -/
theorem Inv.keep {f : TxnRow → TxnRow} (hps : db'.producers = db.producers)
    (htxn : ∀ q, db'.txn q = if q = pid then (db.txn q).map f else db.txn q)
    (howner : ∀ t, (f t).transactionalId = t.transactionalId)
    (hstays : ∀ t, (f t).state = .ongoing →
      t.state = .ongoing ∧ (f t).epoch = t.epoch) : Inv db' := by
  have hold : ∀ q t', db'.txn q = some t' → ∃ t, db.txn q = some t ∧
      t'.transactionalId = t.transactionalId ∧
      (t'.state = .ongoing → t.state = .ongoing ∧ t'.epoch = t.epoch) := by
    intro q t' ht'
    rw [htxn] at ht'
    split at ht'
    · obtain ⟨t, ht, rfl⟩ := map_eq_some_iff.1 ht'
      exact ⟨t, ht, howner t, hstays t⟩
    · exact ⟨t', ht', rfl, fun h => ⟨h, rfl⟩⟩
  apply Inv.of_rows
  · intro q t' ht'
    obtain ⟨t, ht, -⟩ := hold q t' ht'
    rw [hps]
    exact h.below q t ht
  · intro q t' p ht' hp
    obtain ⟨t, ht, ho, hs⟩ := hold q t' ht'
    obtain ⟨howned, hagree⟩ := h.row ht (hps ▸ hp)
    refine ⟨ho ▸ howned, fun hopen => ?_⟩
    obtain ⟨hopen', he⟩ := hs hopen
    exact he.trans (hagree hopen')

/-- The producer row of an id without an open transaction moves on. -/
theorem Inv.setProducer {p' : Producer} (hp : db.producers.ofId pid = some p)
    (howner : p'.transactionalId = p.transactionalId)
    (hclosed : db.ongoing pid = false) (htxn : db'.txn = db.txn)
    (hrow : db'.producers.ofId = update db.producers.ofId pid (some p'))
    (hnext : db'.producers.next = db.producers.next) : Inv db' := by
  apply Inv.of_rows
  · intro q t ht
    rw [hnext]
    exact h.below q t (htxn ▸ ht)
  · intro q t r ht hr
    rw [htxn] at ht
    rw [hrow] at hr
    rcases eq_or_ne q pid with rfl | hq
    · rw [update_self, some_inj] at hr
      rw [← hr, howner]
      exact ⟨h.owner q t p ht hp, fun ho => absurd ho (ongoing_eq_false.1 hclosed t ht)⟩
    · rw [update_of_ne hq] at hr
      exact h.row ht hr

theorem Inv.begins {a : Admitted} (hp : db.producers.ofId a.producerId = some p)
    (howner : p.transactionalId = some id) (he : p.epoch.1 = a.epoch) :
    Inv (beginOrContinue db now a id) := by
  obtain ⟨t', ht', -, hepoch, hid⟩ := txn_begin db now a id
  have hrow : ∀ q t, (beginOrContinue db now a id).txn q = some t →
      (q = a.producerId ∧ t = t') ∨ (q ≠ a.producerId ∧ db.txn q = some t) := by
    intro q t ht
    rcases eq_or_ne q a.producerId with rfl | hq
    · rw [ht', some_inj] at ht
      exact .inl ⟨rfl, ht.symm⟩
    · rw [txn_begin_of_ne hq] at ht
      exact .inr ⟨hq, ht⟩
  apply Inv.of_rows
  · intro q t ht
    rw [begin_producers]
    rcases hrow q t ht with ⟨rfl, -⟩ | ⟨-, ht⟩
    · exact lt_next hp
    · exact h.below q t ht
  · intro q t r ht hr
    rw [begin_producers] at hr
    rcases hrow q t ht with ⟨rfl, rfl⟩ | ⟨-, ht⟩
    · cases hp.symm.trans hr
      refine ⟨?_, fun _ => hepoch.trans he.symm⟩
      rw [hid]
      cases hold : db.txn a.producerId with
      | none => exact howner
      | some t₀ => exact h.owner _ t₀ p hold hp
    · exact h.row ht hr

theorem Inv.fences (hfence : db.producers.fence pid = some db'.producers)
    (htxn : ∀ q, db'.txn q = if q = pid then (db.txn q).map (TxnRow.ended o) else db.txn q) :
    Inv db' := by
  -- first the transaction ends, then its producer is fenced
  have hended : Inv { db' with producers := db.producers } := h.keep rfl htxn (fun _ => rfl)
      fun t ht => absurd ht (TxnRow.ended_state o t)
  rcases fence_cases hfence with ⟨-, hsame⟩ | ⟨p, e', hp, -, hrow, hnext⟩
  · rw [← hsame] at hended
    exact hended
  · refine hended.setProducer hp ?_ ?_ rfl hrow hnext
    · rfl
    rw [ongoing_eq_false]
    intro t ht
    have ht : db'.txn pid = some t := ht
    rw [htxn, if_pos rfl] at ht
    obtain ⟨t₀, -, rfl⟩ := map_eq_some_iff.1 ht
    exact TxnRow.ended_state o t₀

theorem Inv.rotates (hp : db.producers.ofId pid = some p) (hclosed : db.ongoing pid = false)
    (hrot : db.rotate pid committed = some (db', r)) : Inv db' := by
  rcases rotate_cases hp hrot with ⟨e', -, -, htxn, -, hrow, hnext⟩ | ⟨-, htxn, -, hrow, hnext⟩
  · refine h.setProducer hp ?_ hclosed htxn hrow hnext
    rfl
  -- both rows are now under the fresh id, and none under the old one
  have hcases : ∀ q t, db'.txn q = some t → (q = db.producers.next ∧ ∃ t₀, db.txn pid = some t₀ ∧
        t.state = t₀.state ∧ t.transactionalId = t₀.transactionalId) ∨
      (q ≠ db.producers.next ∧ q ≠ pid ∧ db.txn q = some t) := by
    intro q t ht
    rw [htxn] at ht
    split at ht
    · next hq =>
      obtain ⟨t₀, ht₀, rfl⟩ := map_eq_some_iff.1 ht
      exact .inl ⟨hq, t₀, ht₀, rfl, rfl⟩
    next hq =>
    split at ht
    · cases ht
    · next hq' => exact .inr ⟨hq, hq', ht⟩
  have hother : ∀ q, q ≠ db.producers.next → q ≠ pid →
      db'.producers.ofId q = db.producers.ofId q := by
    intro q hq hq'
    rw [hrow, update_of_ne hq, update_of_ne hq']
  apply Inv.of_rows
  · intro q t ht
    rcases hcases q t ht with ⟨rfl, -⟩ | ⟨-, -, ht⟩
    · omega
    · have := h.below q t ht
      omega
  · intro q t s ht hs
    rcases hcases q t ht with ⟨rfl, t₀, ht₀, hstate, hid⟩ | ⟨hq, hq', ht⟩
    · rw [hrow, update_self, some_inj] at hs
      rw [← hs, hid, hstate]
      exact ⟨h.owner pid t₀ p ht₀ hp, fun ho => absurd ho (ongoing_eq_false.1 hclosed t₀ ht₀)⟩
    · rw [hother q hq hq'] at hs
      exact h.row ht hs

theorem Inv.inits (hinit : db.producers.initProducerId id = some (ps, pid, epoch)) :
    Inv (({ db with producers := ps }.tidy id pid).initTxn id pid epoch now timeout) := by
  obtain ⟨p', hrow, -, hepoch, hid, -, hnext, hold⟩ := initProducerId_cases hinit
  obtain ⟨t', ht', hte, hown⟩ :=
    txn_initTxn ({ db with producers := ps }.tidy id pid) id pid epoch now timeout
  rw [txn_tidy_self] at hown
  have hown : t'.transactionalId = (db.txn pid).elim id (·.transactionalId) := hown
  have hlt : pid < ps.next := by
    rcases hold with ⟨p, hp, rfl, -⟩ | ⟨-, rfl, -⟩
    · have := lt_next (ofTxn_eq_some.1 hp).1
      omega
    · omega
  -- the row under the id is of the same transactional id
  have howner : t'.transactionalId = id := by
    rw [hown]
    cases ht : db.txn pid with
    | none => rfl
    | some t =>
      rcases hold with ⟨p, hp, rfl, -⟩ | ⟨-, rfl, -⟩
      · obtain ⟨hp, hpid⟩ := ofTxn_eq_some.1 hp
        have := h.owner _ t p ht hp
        rw [hpid, some_inj] at this
        exact this.symm
      · exact absurd (h.below _ t ht) (lt_irrefl _)
  have hcases : ∀ q t, (({ db with producers := ps }.tidy id pid).initTxn id
      pid epoch now timeout).txn q = some t →
      (q = pid ∧ t = t') ∨ (q ≠ pid ∧ db.txn q = some t) := by
    intro q t ht
    rcases eq_or_ne q pid with rfl | hq
    · rw [ht', some_inj] at ht
      exact .inl ⟨rfl, ht.symm⟩
    · rw [txn_initTxn_of_ne hq] at ht
      exact .inr ⟨hq, txn_of_tidy ht⟩
  apply Inv.of_rows
  · intro q t ht
    show q < ps.next
    rcases hcases q t ht with ⟨rfl, -⟩ | ⟨-, ht⟩
    · exact hlt
    · have := h.below q t ht
      omega
  · intro q t s ht hs
    have hs : ps.ofId q = some s := hs
    rw [hrow] at hs
    rcases hcases q t ht with ⟨rfl, rfl⟩ | ⟨hq, ht⟩
    · rw [update_self, some_inj] at hs
      rw [← hs, hid, howner]
      exact ⟨rfl, fun _ => hte.trans hepoch.symm⟩
    · rw [update_of_ne hq] at hs
      exact h.row ht hs

/-- Rows of producers go, or come above the sequence. -/
theorem Inv.producers (hnext : db.producers.next ≤ ps.next)
    (hrows : ∀ q p, ps.ofId q = some p → q < db.producers.next →
      db.producers.ofId q = some p) : Inv { db with producers := ps } := by
  apply Inv.of_rows
  · intro q t ht
    exact (h.below q t ht).trans_le hnext
  · intro q t p ht hp
    exact h.row ht (hrows q p hp (h.below q t ht))

theorem Inv.move (hm : Move W db db') : Inv db' := by
  cases hm with
  | keep pid f hps htxn howner hstays =>
    exact h.keep hps htxn howner hstays
  | begins now a id p _ hp howner he => exact h.begins hp howner he
  | fences o _ hfence htxn => exact h.fences hfence htxn
  | rotates committed id p _ hp _ hclosed hrot =>
    exact h.rotates hp hclosed hrot
  | inits id ps epoch now timeout _ hinit => exact h.inits hinit
  | evicts gone _ =>
    refine h.producers le_rfl fun q p hp _ => ?_
    rw [ofId_remove, filter_eq_some_iff] at hp
    exact hp.1
  | allocates =>
    refine h.producers (Int.lt_succ _).le fun q p hp hlt => ?_
    unfold allocate at hp
    rw [ofId_insert, update_of_ne hlt.ne] at hp
    exact hp
  | loses => exact h.producers (Int.lt_succ _).le fun q p hp _ => hp

theorem Inv.moves (hm : Moves W db db') : Inv db' := by
  induction hm with
  | refl => exact h
  | tail _ hm ih => exact ih.move hm

end

theorem lose_moves (n : ℕ) : Moves W db (db.lose n) := by
  induction n with
  | zero => exact .refl
  | succ n ih =>
    have hskip : (db.lose n).producers.skip = (db.lose (n + 1)).producers :=
      (iterate_succ_apply' Producers.skip n _).symm
    refine .tail ih ?_
    have hmove : Move W (db.lose n)
        { db.lose n with producers := (db.lose n).producers.skip } :=
      .loses
    rw [hskip] at hmove
    exact hmove

/-- A step is a sequence of moves, whether it commits or not. -/
theorem System.step_moves (s : System) (op : Op) :
    Moves (.wide (op.request.Turns s.db) op.request.Victims) s.db (s.step op).db := by
  refine .trans ?_ (lose_moves op.lost)
  cases hc : op.commits with
  | false => exact .refl
  | true =>
    cases hr : (op.request.run s.db).1 with
    | none => exact .refl
    | some db' => exact Request.moves hr

theorem Inv.run (topics : Topics) (ops : List Op) :
    Inv (ops.foldl System.step (System.init topics)).db :=
  Run.foldl_inv (fun s => Inv s.db)
    (fun s op hs => hs.moves (System.step_moves s op)) (Inv.init topics) ops

-- ==== expiry

variable {lands : Key → Bool} {stale : List ℤ}

/-- At its row's epoch an open transaction is ended. -/
theorem Inv.finish_ours {f : Finish}
    (h : Inv db) (ht : db.txn pid = some t) (hopen : t.state = .ongoing)
    (hf : (finishTransaction db pid t.epoch committed lands).1 =
      some (db', f)) : f = .ended ∨ f = .overridden := by
  unfold finishTransaction at hf
  simp only [ht, hopen] at hf
  split at hf
  next hany =>
    cases hp : db.producers.ofId pid with
    | none => simp [hp] at hany
    | some p =>
      rw [hp, any_some, decide_eq_true_eq] at hany
      have := h.agree pid t p ht hopen hp
      omega
  next =>
    split at hf
    · split at hf
      · obtain ⟨d, -, heq⟩ := map_eq_some_iff.1 hf
        cases heq
        exact .inr rfl
      · cases hf
        exact .inl rfl
    · cases hf

/-- One round of the sweep touches no other transaction, and ends its own
if it is open and past its time. -/
theorem Inv.expireOne (h : Inv db) (he : (expireOne db now pid lands).1 = some db') :
    (∀ q, q ≠ pid → db'.txn q = db.txn q) ∧
    (db'.txn pid = db.txn pid ∨ db'.ongoing pid = false) ∧
    ∀ t, db.txn pid = some t → t.state = .ongoing →
      now - t.startedAt > t.timeoutMs → db'.ongoing pid = false := by
  unfold TxnTables.expireOne at he
  cases ht : db.txn pid with
  | none =>
    simp only [ht] at he
    cases he
    exact ⟨fun _ _ => rfl, .inl ht, nofun⟩
  | some t =>
    simp only [ht] at he
    split at he
    · next hstale =>
      obtain ⟨⟨db₁, f⟩, hf, hrest⟩ := bind_eq_some_iff.1 he
      have hclosed : ∃ o, (db.close pid o).fence pid = some db' := by
        rcases finishTransaction_cases hf with ⟨-, rfl⟩ |
          ⟨last, -, rfl, -⟩ | ⟨-, rfl, rfl⟩ | ⟨o, -, rfl, hfence⟩
        iterate 2
          · exact absurd (h.finish_ours ht hstale.1 hf) (by simp)
        · exact ⟨_, hrest⟩
        · exact ⟨o, some_inj.1 hrest ▸ hfence⟩
      obtain ⟨o, hclosed⟩ := hclosed
      obtain ⟨ps, -, rfl⟩ := fence_eq_some.1 hclosed
      have hends : (db.close pid o).ongoing pid = false := close_ongoing
      exact ⟨fun q hq => txn_close.trans (if_neg hq), .inr hends, fun _ _ _ _ => hends⟩
    · next hfresh =>
      cases he
      refine ⟨fun _ _ => rfl, .inl ht, fun t' ht' hopen hpast => ?_⟩
      cases ht'
      exact absurd ⟨hopen, hpast⟩ hfresh

/-- A transaction that is closed stays so through the sweep. -/
theorem Inv.expire_closed (h : Inv db) (hclosed : db.ongoing q = false)
    (he : (expireStaleTransactions now lands db stale).1 = some db') : db'.ongoing q = false := by
  induction stale generalizing db with
  | nil =>
    simp only [expireStaleTransactions, some.injEq] at he
    exact he ▸ hclosed
  | cons pid stale ih =>
    unfold expireStaleTransactions at he
    split at he
    next => cases he
    next db₁ ms hone =>
    have hone : (TxnTables.expireOne db now pid lands).1 = some db₁ := by rw [hone]
    obtain ⟨hother, hself, -⟩ := h.expireOne hone
    have hmoves : Moves (.wide (fun _ => False) fun _ => False) db db₁ := expireOne_moves hone
    refine ih (h.moves hmoves) ?_ he
    rcases eq_or_ne q pid with rfl | hq
    · rcases hself with hself | hself
      · unfold ongoing
        rw [hself]
        exact hclosed
      · exact hself
    · unfold ongoing
      rw [hother q hq]
      exact hclosed

/-- The sweep ends a transaction it finds past its time. -/
theorem Inv.expire (h : Inv db) (he : (expireStaleTransactions now lands db stale).1 = some db')
    (hq : q ∈ stale) (ht : db.txn q = some t) (hopen : t.state = .ongoing)
    (hpast : now - t.startedAt > t.timeoutMs) : db'.ongoing q = false := by
  induction stale generalizing db with
  | nil => cases hq
  | cons pid stale ih =>
    unfold expireStaleTransactions at he
    split at he
    next => cases he
    next db₁ ms hone =>
    have hone : (TxnTables.expireOne db now pid lands).1 = some db₁ := by rw [hone]
    obtain ⟨hother, -, hself⟩ := h.expireOne hone
    have hmoves : Moves (.wide (fun _ => False) fun _ => False) db db₁ := expireOne_moves hone
    rcases eq_or_ne q pid with rfl | hpid
    · exact (h.moves hmoves).expire_closed (hself t ht hopen hpast) he
    refine ih (h.moves hmoves) he ?_ ?_
    · exact (List.mem_cons.1 hq).resolve_left hpid
    · rw [hother q hpid]
      exact ht

/-- In every state requests lead to, whichever of them fail: an open
transaction carries the epoch of its producer, and the expiry sweep ends
every transaction it finds past its time. -/
theorem epochs_agree (topics : Topics) (ops : List Op) :
    EpochsAgree (ops.foldl System.step (System.init topics)).db := by
  have h := Inv.run topics ops
  constructor
  · exact h.agree
  · intro pid t committed lands ht hopen db' hf
    rcases h.finish_ours ht hopen hf with hf | hf <;> cases hf
  · intro now lands stale db' he pid hpid t ht hopen hpast
    exact h.expire he hpid ht hopen hpast

end Kafgres.TxnTables
