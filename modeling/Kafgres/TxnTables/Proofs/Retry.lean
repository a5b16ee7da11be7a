/-
An `EndTxn` sent again.
-/
import Kafgres.TxnTables.Proofs.Fencing

namespace Kafgres.TxnTables

open Meta Producers Function Option

variable {db db' : Db} {s : System} {req : EndTxn} {pid epoch : ℤ}
  {W : Scope}

-- ==== retired pairs

/-- A row is not at the pair it retired. -/
def Producers.Moved (ps : Producers) : Prop := ∀ q p r, ps.ofId q = some p → p.retired = some r →
    ¬ (r.producerId = q ∧ r.epoch = p.epoch.1)

variable {ps : Producers} {p : Producer}

/-- A row is written that is not at the pair it retired. -/
theorem Producers.Moved.put {ps' : Producers} {p' : Producer} (h : ps.Moved)
    (hrow : ps'.ofId = update ps.ofId pid (some p')) (hmoved : ∀ r, p'.retired = some r →
      ¬ (r.producerId = pid ∧ r.epoch = p'.epoch.1)) : ps'.Moved := by
  intro q p r hp hr
  rw [hrow] at hp
  rcases eq_or_ne q pid with rfl | hq
  · rw [update_self, some_inj] at hp
    subst hp
    exact hmoved r hr
  · rw [update_of_ne hq] at hp
    exact h q p r hp hr

theorem Producers.Moved.remove {gone : Producer → Bool} (h : ps.Moved) :
    (ps.remove gone).Moved := by
  intro q p r hp hr
  rw [ofId_remove, filter_eq_some_iff] at hp
  exact h q p r hp.1 hr

theorem Producers.Moved.rotate {committed : Bool} (h : ps.Moved) :
    (ps.rotate pid committed).1.Moved := by
  cases hp : ps.ofId pid with
  | none =>
    rw [rotate_none hp]
    exact h
  | some p =>
    have hlt := lt_next hp
    rcases rotate_cases committed hp with ⟨e', -, he', hrow, -⟩ | ⟨-, hrow, -⟩
    · refine h.put hrow fun r hr hsame => ?_
      cases hr
      dsimp only at hsame
      omega
    · rw [← ofId_removeOne] at hrow
      refine h.remove.put hrow fun r hr hsame => ?_
      cases hr
      dsimp only at hsame
      omega

theorem Producers.Moved.step (h : ps.Moved) (c : Call) : (ps.step c).Moved := by
  cases c with
  | init id =>
    show (((ps.initProducerId id).map (·.1)).getD ps).Moved
    cases hinit : ps.initProducerId id with
    | none => exact h
    | some r =>
      obtain ⟨ps', pid, e⟩ := r
      obtain ⟨p', hrow, -, -, -, hnone, -⟩ := initProducerId_cases hinit
      refine h.put hrow fun r hr => ?_
      simp [hnone] at hr
  | rotate pid committed => exact h.rotate
  | fence pid =>
    show ((ps.fence pid).getD ps).Moved
    cases hf : ps.fence pid with
    | none => exact h
    | some ps' =>
      rcases fence_cases hf with ⟨-, rfl⟩ | ⟨p, e', -, -, hrow, -⟩
      · exact h
      · exact h.put hrow nofun
  | allocate =>
    show ps.allocate.Moved
    exact h.put ofId_insert nofun
  | evict gone => exact h.remove
  | skip => exact h

theorem Producers.Moved.after (cs : List Call) : (after cs).Moved :=
  Run.foldl_inv Producers.Moved (fun _ c h => h.step c)
    (fun q p _ (hp : Producers.empty.ofId q = some p) => nomatch hp) cs

-- ==== settled

/-- The id is at the pair, which came after the one the request
presents, and nothing is open. -/
def Settled (db : Db) (req : EndTxn) (pid epoch : ℤ) : Prop := ∃ p, db.producers.ofId pid = some p ∧
    p.transactionalId = some req.transactionalId ∧ p.epoch.1 = epoch ∧
    p.retired = some ⟨req.producerId, req.producerEpoch, req.committed⟩ ∧
    ¬ (req.producerId = pid ∧ req.producerEpoch = epoch) ∧
    db.ongoing pid = false

/-- A row keeps its producer id, and what is open is not opened. -/
theorem Settled.of_rows (h : Settled db req pid epoch)
    (hrow : db'.producers.ofId pid = db.producers.ofId pid)
    (hclosed : ∀ t, db'.txn pid = some t → t.state = .ongoing →
      db.ongoing pid = true) : Settled db' req pid epoch := by
  obtain ⟨p, hp, hid, he, hr, hmoved, hnone⟩ := h
  refine ⟨p, hrow.trans hp, hid, he, hr, hmoved, ?_⟩
  rw [Db.ongoing_eq_false]
  intro t ht hopen
  simp [hclosed t ht hopen] at hnone

theorem Settled.of_txn (h : Settled db req pid epoch)
    (hrow : db'.producers.ofId pid = db.producers.ofId pid)
    (htxn : db'.txn pid = db.txn pid) : Settled db' req pid epoch :=
  h.of_rows hrow fun t ht hopen =>
    Db.ongoing_eq_true.2 ⟨t, htxn ▸ ht, hopen⟩

/-- Another id's row is under another producer id. -/
theorem Settled.ne_of_owner {q : ℤ} {id : String}
    (h : Settled db req pid epoch) (hp : db.producers.ofId q = some p)
    (hid : p.transactionalId = some id) (hne : id ≠ req.transactionalId) : pid ≠ q := by
  rintro rfl
  obtain ⟨p', hp', hid', -⟩ := h
  cases hp.symm.trans hp'
  cases hid.symm.trans hid'
  exact hne rfl

theorem Settled.lt_next (h : Settled db req pid epoch) : pid < db.producers.next := by
  obtain ⟨p, hp, -⟩ := h
  exact Producers.lt_next hp

/-- No move for another id reaches the row. -/
theorem Settled.move (h : Settled db req pid epoch)
    (hacts : ¬ W.acts req.transactionalId) (hvictim : ¬ W.victims pid)
    (hm : Move W db db') : Settled db' req pid epoch := by
  have hother : ∀ id, W.acts id → id ≠ req.transactionalId := fun id hid heq => hacts (heq ▸ hid)
  cases hm with
  | keep q f hps htxn howner hstays =>
    refine h.of_rows (by rw [hps]) fun t ht hopen => ?_
    rw [htxn] at ht
    split at ht
    · obtain ⟨t₀, ht₀, rfl⟩ := map_eq_some_iff.1 ht
      exact Db.ongoing_eq_true.2 ⟨t₀, ht₀, (hstays t₀ hopen).1⟩
    · exact Db.ongoing_eq_true.2 ⟨t, ht, hopen⟩
  | begins now a id p hby hp howner he =>
    have hne := h.ne_of_owner hp howner (hother id hby)
    exact h.of_txn (by rw [begin_producers]) (Db.txn_begin_of_ne hne)
  | @fences _ q o hopen hfence htxn =>
    have hne : pid ≠ q := by
      intro hq
      obtain ⟨-, -, -, -, -, -, hclosed⟩ := h
      simp [hq, hopen] at hclosed
    refine h.of_txn ?_ (by rw [htxn, if_neg hne])
    rcases fence_cases hfence with ⟨-, hsame⟩ | ⟨p, e', -, -, hrow, -⟩
    · rw [hsame]
    · rw [hrow, update_of_ne hne]
  | @rotates _ q r committed id p hby hp howner _ hrot =>
    have hne := h.ne_of_owner hp howner (hother id hby)
    rcases Db.rotate_cases hp hrot with ⟨e', -, -, htxn, -, hrow, -⟩ | ⟨-, htxn, -, hrow, -⟩
    · exact h.of_txn (by rw [hrow, update_of_ne hne]) (by rw [htxn])
    have hnext := h.lt_next.ne
    refine h.of_txn ?_ ?_
    · rw [hrow, update_of_ne hnext, update_of_ne hne]
    · rw [htxn, if_neg hnext, if_neg hne]
  | @inits q id ps e now timeout hby hinit =>
    obtain ⟨p', hrow, -, -, -, -, -, hold⟩ := initProducerId_cases hinit
    have hne : pid ≠ q := by
      rcases hold with ⟨p, hp, rfl, -⟩ | ⟨-, rfl, -⟩
      · obtain ⟨hp, hid⟩ := ofTxn_eq_some.1 hp
        exact h.ne_of_owner hp hid (hother id hby)
      · exact h.lt_next.ne
    refine h.of_rows ?_ fun t ht hopen => ?_
    · show ps.ofId pid = _
      rw [hrow, update_of_ne hne]
    · rw [Db.txn_initTxn_of_ne hne] at ht
      exact Db.ongoing_eq_true.2 ⟨t, Db.txn_of_tidy ht, hopen⟩
  | evicts gone hidle =>
    refine h.of_txn ?_ rfl
    obtain ⟨p, hp, -⟩ := h
    rw [ofId_remove, hp, filter_some, if_pos]
    cases hg : gone p with
    | false => rfl
    | true => exact absurd (ofId_id hp ▸ (hidle p hg).1) hvictim
  | allocates =>
    refine h.of_txn ?_ rfl
    unfold allocate
    rw [ofId_insert, update_of_ne h.lt_next.ne]
  | loses => exact h.of_txn rfl rfl

theorem Settled.moves (h : Settled db req pid epoch)
    (hacts : ¬ W.acts req.transactionalId) (hvictim : ¬ W.victims pid)
    (hm : Moves W db db') : Settled db' req pid epoch := by
  induction hm with
  | refl => exact h
  | tail _ hm ih => exact ih.move hacts hvictim hm

-- ==== the first call

/-- A rotation settles the request it was made for. -/
theorem Settled.rotate {reply : ℤ × ℤ} (hp : db.producers.ofId req.producerId = some p)
    (hid : p.transactionalId = some req.transactionalId) (he : p.epoch.1 = req.producerEpoch)
    (hclosed : db.ongoing req.producerId = false)
    (h : db.rotate req.producerId req.committed = some (db', reply)) :
    Settled db' req reply.1 reply.2 := by
  have hlt := Producers.lt_next hp
  rcases Db.rotate_cases hp h with ⟨e', rfl, hnew, htxn, -, hrow, -⟩ | ⟨rfl, htxn, -, hrow, -⟩
  · have hp' := congrFun hrow req.producerId
    rw [update_self] at hp'
    refine ⟨_, hp', hid, rfl, by rw [he], fun hsame => ?_, ?_⟩
    · omega
    · unfold Db.ongoing
      rw [htxn]
      exact hclosed
  · have hp' := congrFun hrow db.producers.next
    rw [update_self] at hp'
    refine ⟨_, hp', hid, rfl, by rw [he], fun hsame => ?_, ?_⟩
    · omega
    rw [Db.ongoing_eq_false]
    intro t ht
    rw [htxn, if_pos rfl] at ht
    obtain ⟨t₀, ht₀, rfl⟩ := map_eq_some_iff.1 ht
    exact Db.ongoing_eq_false.1 hclosed t₀ ht₀

/-- A retry that is recognised finds the id settled. -/
theorem Settled.of_retry (hmoved : db.producers.Moved)
    (h : completedRetry db req.transactionalId req.producerId
      req.producerEpoch req.committed = .of pid epoch) : Settled db req pid epoch := by
  unfold completedRetry at h
  split at h
  · cases h
  next p hp =>
  split at h
  · cases h
  next r hr =>
  split at h
  · next hsame =>
    split at h
    · next hout =>
      cases h
      obtain ⟨hrow, hid⟩ := ofTxn_eq_some.1 hp
      obtain ⟨h1, h2, hclosed⟩ := hsame
      refine ⟨p, hrow, hid, rfl, ?_, ?_, hclosed⟩
      · rw [hr, ← h1, ← h2, ← hout]
      · rw [← h1, ← h2]
        exact hmoved _ p r hrow hr
    · cases h
  · cases h

/-- A version 5 `EndTxn` that succeeded has settled its request. -/
theorem Settled.of_endTxn (hmoved : db.producers.Moved) (hrot : req.rotating = true)
    (h : (handleEndTxn db req).1 = some (db', .none, pid, epoch)) : Settled db' req pid epoch := by
  unfold handleEndTxn at h
  split at h
  · simp [EndTxn.unchanged] at h
  split at h
  · next pid' epoch' hretry =>
    cases h
    exact .of_retry hmoved hretry
  · simp [EndTxn.unchanged] at h
  · split at h
    · next v _ =>
      simp only [some.injEq, Prod.mk.injEq, EndTxn.unchanged] at h
      exact absurd h.2.1 (Verdict.code_ne_none _ v)
    next a ha =>
    obtain ⟨⟨db₁, f⟩, hf, hans⟩ := bind_eq_some_iff.1 h
    obtain ⟨-, -, p, hp, hid, he⟩ := verdict_eq_ok.1 ha
    have hrotated : ∀ d : Db, d.producers = db.producers → d.ongoing req.producerId = false →
        req.rotate d = some (db', .none, pid, epoch) →
        Settled db' req pid epoch := by
      intro d hps hclosed hd
      unfold EndTxn.rotate at hd
      rw [if_pos hrot] at hd
      obtain ⟨⟨d', r⟩, hr, heq⟩ := map_eq_some_iff.1 hd
      cases heq
      exact .rotate (hps ▸ hp) hid he hclosed hr
    rcases finishTransaction_cases hf with ⟨-, rfl⟩ |
      ⟨last, rfl, rfl, hclosed⟩ | ⟨-, rfl, rfl⟩ | ⟨o, -, rfl, -⟩
    · simp [EndTxn.answer, EndTxn.unchanged] at hans
    · -- nothing was open, and an abort rotates
      unfold EndTxn.answer at hans
      dsimp only at hans
      rw [if_pos hrot] at hans
      split at hans
      · simp [EndTxn.unchanged] at hans
      · exact hrotated (req.aborted _) rfl (req.aborted_ongoing _) hans
    · refine hrotated _ ?_ Db.close_ongoing hans
      rfl
    · simp [EndTxn.answer, EndTxn.unchanged] at hans

-- ==== the answers

theorem Settled.retry_eq (h : Settled db req pid epoch) (c : Bool) :
    completedRetry db req.transactionalId req.producerId req.producerEpoch c =
      if req.committed = c then .of pid epoch else .outcomeMismatch := by
  obtain ⟨p, hp, hid, he, hr, -, hclosed⟩ := h
  have hpid := ofId_id hp
  unfold completedRetry
  rw [ofTxn_of_ofId hp hid]
  simp only [hr, hpid, hclosed, he, and_self, if_true]

/-- What the settled state answers, and that it stays. -/
theorem Settled.retried (h : Settled s.db req pid epoch)
    (hrot : req.rotating = true) (hne : req.transactionalId ≠ "") : Retried s req pid epoch := by
  have hagain : handleEndTxn s.db req = (some (s.db, .none, pid, epoch), []) := by
    unfold handleEndTxn
    rw [if_neg hne, if_pos hrot, h.retry_eq, if_pos rfl]
  have hopp : handleEndTxn s.db req.opposite =
      (some (s.db, req.unchanged .invalidTxnState), []) := by
    have hretry : completedRetry s.db req.opposite.transactionalId
        req.opposite.producerId req.opposite.producerEpoch
        req.opposite.committed = .outcomeMismatch := by
      refine (h.retry_eq _).trans (if_neg ?_)
      show ¬ req.committed = !req.committed
      cases req.committed <;> exact nofun
    have hrot' : req.opposite.rotating = true := hrot
    have hne' : req.opposite.transactionalId ≠ "" := hne
    unfold handleEndTxn
    rw [if_neg hne', if_pos hrot', hretry]
    rfl
  have hsame : ∀ r reply, handleEndTxn s.db r = (some (s.db, reply), []) →
      s.step ⟨.endTxn r, true, 0⟩ = s := by
    intro r reply hr
    unfold System.step Request.run
    dsimp only
    rw [hr, List.append_nil]
    rfl
  refine ⟨hagain, hopp, hsame _ _ hagain, hsame _ _ hopp, ?_⟩
  rintro c ⟨-, a, ha⟩
  obtain ⟨-, -, p, hp, hid, he⟩ := verdict_eq_ok.1 ha
  obtain ⟨p', hp', hid', he', -, hmoved, -⟩ := h
  obtain ⟨hq, rfl⟩ := owner_unique hp hp' hid hid'
  exact hmoved ⟨hq, he.symm.trans he'⟩

-- ==== whole runs

theorem EndTxn.transactionalId_ne (h : (handleEndTxn db req).1 =
    some (db', .none, pid, epoch)) : req.transactionalId ≠ "" := by
  intro hempty
  unfold handleEndTxn at h
  rw [if_pos hempty] at h
  simp [EndTxn.unchanged] at h

/-- An `EndTxn` that succeeded with a rotating epoch is answered alike,
whenever it is sent again, until a request acts for its transactional id
or the sweep of idle producers picks its producer. -/
theorem end_txn_retried (topics : Topics) (ops : List Op) (req : EndTxn)
    (hversion : 5 ≤ req.version) (hfeature : 2 ≤ req.transactionVersion)
    (lost : ℕ) (pid epoch : ℤ) (db : Db)
    (hfirst : (handleEndTxn (ops.foldl System.step (.init topics)).db
      req).1 = some (db, .none, pid, epoch)) (between : List Op)
    (hbetween : Run.EachStep System.step ((ops.foldl System.step (.init topics)).step
        ⟨.endTxn req, true, lost⟩) between
      fun s op => ¬ op.request.Turns s.db req.transactionalId ∧ ¬ op.request.Victims pid) :
    Retried (between.foldl System.step ((ops.foldl System.step (.init topics)).step
        ⟨.endTxn req, true, lost⟩)) req pid epoch := by
  have hrot : req.rotating = true := by
    simp [EndTxn.rotating, hversion, hfeature]
  have hmoved : (ops.foldl System.step (.init topics)).db.producers.Moved := by
    obtain ⟨cs, hcs⟩ := System.producers_after topics ops
    rw [hcs]
    exact .after cs
  have hdone : Settled ((ops.foldl System.step (.init topics)).step
      ⟨.endTxn req, true, lost⟩).db req pid epoch := by
    have hdb : ((ops.foldl System.step (.init topics)).step
        ⟨.endTxn req, true, lost⟩).db = db.lose lost := by
      simp [System.step, Request.run, hfirst]
    rw [hdb]
    -- the sequence moves on while the call commits
    have hquiet : Moves (.wide (fun _ => False) fun _ => False) db (db.lose lost) := lose_moves lost
    exact (Settled.of_endTxn hmoved hrot hfirst).moves id id hquiet
  have hstays := Run.Always.of_eachStep (P := fun s : System => Settled s.db req pid epoch)
    (fun s op h hop => h.moves hop.1 hop.2 (System.step_moves s op))
    hdone hbetween between List.prefix_rfl
  exact hstays.retried hrot (EndTxn.transactionalId_ne hfirst)

/-- An abort at epoch 0 of the first producer handed out. -/
theorem end_txn_retried_orders :
    let s := System.init .empty
    let abort : EndTxn := ⟨"orders", 1, 0, false, 5, 2, fun _ => true⟩
    let others : List Op :=
      [⟨.initProducerId (some "billing") 7 60000 fun _ => true, true, 1⟩,
        ⟨.expire 90000 [1] fun _ => true, true, 0⟩]
    Retried (others.foldl System.step
      (([⟨.initProducerId (some "orders") 3 60000 fun _ => true, true, 0⟩]
        |>.foldl System.step s).step ⟨.endTxn abort, true, 0⟩))
      abort 1 1 := by
  intro s abort others
  have hreply : (handleEndTxn ([⟨.initProducerId (some "orders") 3 60000 fun _ => true, true, 0⟩]
        |>.foldl System.step s).db abort).1.map (·.2) =
      some (.none, 1, 1) := by
    decide +kernel
  obtain ⟨⟨db, r⟩, hfirst, rfl⟩ := map_eq_some_iff.1 hreply
  refine end_txn_retried _ _ _ (by decide) (by decide) 0 1 1 db hfirst _ ?_
  refine Run.EachStep.cons_iff.2 ⟨⟨?_, nofun⟩, ?_⟩
  · show ¬ some "billing" = some "orders"
    decide
  · exact Run.EachStep.cons_iff.2 ⟨⟨nofun, nofun⟩, .nil⟩

/-- The sweep of idle producers drops the row the answer is read from. -/
theorem retry_after_sweep :
    let s := [⟨.initProducerId (some "orders") 3 60000 fun _ => true,
      true, 0⟩].foldl System.step (.init .empty)
    let abort : EndTxn := ⟨"orders", 1, 0, false, 5, 2, fun _ => true⟩
    let swept := (s.step ⟨.endTxn abort, true, 0⟩).step ⟨.sweepProducers [1], true, 0⟩
    (handleEndTxn s.db abort).1.map (·.2) = some (.none, 1, 1) ∧
      (handleEndTxn swept.db abort).1.map (·.2) = some (.invalidProducerIdMapping, 1, 0) := by
  decide +kernel

end Kafgres.TxnTables
