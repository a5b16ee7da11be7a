/-
Fencing by epochs. A pair an id has left is superseded: the row of its
producer id is gone or ahead of it, and every API compares the two first.
Whether the id can be given a next pair is a question of room below
`i16::MAX`.
-/
import Kafgres.TxnTables.Proofs.Epochs

namespace Kafgres.TxnTables

open Storage Meta Codec Producers Option TxnOffsetCommit

variable {db db' : Db} {pid epoch : ℤ} {id : String} {ps ps' : Producers} {W : Scope}

-- ==== refusal

/-- The producer's row is gone, or at a later epoch. -/
def Superseded (ps : Producers) (pid epoch : ℤ) : Prop :=
  ∀ p, ps.ofId pid = some p → epoch < p.epoch.1

theorem Superseded.verdict (h : Superseded db.producers pid epoch)
    (id : String) : ∃ v, verdict db id pid epoch = .error v := by
  cases hv : TxnTables.verdict db id pid epoch with
  | error v => exact ⟨v, rfl⟩
  | ok a =>
    obtain ⟨-, -, p, hp, -, he⟩ := verdict_eq_ok.1 hv
    exact absurd (h p hp) (he ▸ lt_irrefl _)

theorem Superseded.produce (h : Superseded db.producers pid epoch)
    (txn : Option String) (k : Key) (version : ℤ) :
    ∃ code, verifyHeldProduce db txn ⟨pid, epoch, k⟩ version = .refused code := by
  by_contra hn
  push Not at hn
  obtain ⟨id, a, -, ha, -⟩ := verifyHeldProduce_admitted hn
  obtain ⟨v, hv⟩ := h.verdict id
  simp [hv] at ha

theorem Superseded.txnOffsetCommit {req : TxnOffsetCommit}
    (h : Superseded db.producers req.producerId req.producerEpoch) :
    (handleTxnOffsetCommit db req).1 = db ∧ ErrorCode.none ∉ (handleTxnOffsetCommit db req).2 := by
  obtain ⟨v, hv⟩ := h.verdict req.transactionalId
  obtain ⟨hpart, hnone⟩ := refused hv
  unfold handleTxnOffsetCommit
  simp only [hv, hnone, List.foldl_nil, List.mem_map, true_and]
  rintro ⟨p, -, hp⟩
  exact hpart p hp

theorem Superseded.endTxn {req : EndTxn}
    (h : Superseded db.producers req.producerId req.producerEpoch)
    (hno : req.rotating = true → completedRetry db req.transactionalId
      req.producerId req.producerEpoch req.committed = .no) :
    ∃ code, code ≠ .none ∧ handleEndTxn db req = (some (db, req.unchanged code), []) := by
  obtain ⟨v, hv⟩ := h.verdict req.transactionalId
  have hretry : (if req.rotating then completedRetry db req.transactionalId
      req.producerId req.producerEpoch req.committed else .no) = .no := by
    split
    · next hr => exact hno hr
    · rfl
  unfold handleEndTxn
  split
  · exact ⟨.invalidRequest, nofun, rfl⟩
  · simp only [hretry, hv]
    exact ⟨_, Verdict.code_ne_none _ _, rfl⟩

theorem Superseded.markOne {e : Force} (h : Superseded db.producers e.producerId e.producerEpoch) :
    ∃ code, code ≠ .none ∧ markOne db e = (some (db, code), []) := by
  unfold TxnTables.markOne
  split
  · exact ⟨.unknownTopicOrPartition, nofun, rfl⟩
  split
  · exact ⟨.unknownTopicOrPartition, nofun, rfl⟩
  split
  · exact ⟨.invalidProducerEpoch, nofun, rfl⟩
  · next p hp =>
    rw [if_pos (h p hp)]
    exact ⟨.invalidProducerEpoch, nofun, rfl⟩

theorem Refuses.of_superseded (h : Superseded db.producers pid epoch) : Refuses db pid epoch where
  produce := h.produce
  addPartitions := by
    intro id version now topics
    obtain ⟨v, hv⟩ := h.verdict id
    unfold handleAddPartitions
    split
    · exact ⟨.invalidRequest, nofun, rfl⟩
    · simp only [hv]
      exact ⟨_, Verdict.code_ne_none _ _, rfl⟩
  addOffsets := by
    intro id version now group
    obtain ⟨v, hv⟩ := h.verdict id
    unfold handleAddOffsets
    simp only [hv]
    exact ⟨_, Verdict.code_ne_none _ _, rfl⟩
  txnOffsetCommit := by
    intro req hp he
    subst hp he
    exact h.txnOffsetCommit
  endTxn := by
    intro req hp he hno
    subst hp he
    exact h.endTxn hno
  writeTxnMarkers := by
    intro e hp he
    subst hp he
    exact h.markOne

/-- A pair that was left is superseded. -/
theorem Producers.Later.superseded {pair : ℤ × ℤ} (h : Later ps ps')
    (hpair : ps.pair id = some pair) (hleft : ps'.pair id ≠ some pair) :
    Superseded ps' pair.1 pair.2 := by
  intro p' hp'
  obtain ⟨p, hp, rfl⟩ := map_eq_some_iff.1 hpair
  obtain ⟨hrow, hid⟩ := ofTxn_eq_some.1 hp
  have hlt := lt_next hrow
  rcases h.rows _ p' hp' with hnew | ⟨r, hr, howner, hle⟩
  · exact absurd hnew (not_le.2 hlt)
  rw [hrow, some_inj] at hr
  subst hr
  refine lt_of_le_of_ne hle fun he => hleft ?_
  have hp'' := ofTxn_of_ofId hp' (howner ▸ hid)
  have he : p.epoch.1 = p'.epoch.1 := he
  unfold pair
  rw [hp'', map_some, ofId_id hp', he]

-- ==== runs

/-- The producers a request leaves are those of some calls. -/
theorem Move.calls (h : Move W db db') :
    ∃ cs : List Call, db'.producers = cs.foldl step db.producers := by
  cases h with
  | keep pid f hps => exact ⟨[], hps⟩
  | begins now a id p => exact ⟨[], begin_producers⟩
  | @fences _ pid o _ hfence =>
    refine ⟨[.fence pid], ?_⟩
    show _ = (db.producers.fence pid).getD db.producers
    rw [hfence]
    rfl
  | @rotates _ pid r committed id p _ hp _ _ hrot =>
    refine ⟨[.rotate pid committed], ?_⟩
    rcases Db.rotate_cases hp hrot with ⟨e', -, -, -, hps, -⟩ | ⟨-, -, hps, -⟩
    · exact hps
    · exact hps
  | inits id ps epoch now timeout _ hinit =>
    refine ⟨[.init id], ?_⟩
    show ps = ((db.producers.initProducerId id).map (·.1)).getD _
    rw [hinit]
    rfl
  | evicts gone => exact ⟨[.evict gone], rfl⟩
  | allocates => exact ⟨[.allocate], rfl⟩
  | loses => exact ⟨[.skip], rfl⟩

theorem Moves.calls (h : Moves W db db') :
    ∃ cs : List Call, db'.producers = cs.foldl step db.producers := by
  induction h with
  | refl => exact ⟨[], rfl⟩
  | tail _ hm ih =>
    obtain ⟨cs, hcs⟩ := ih
    obtain ⟨cs', hcs'⟩ := hm.calls
    exact ⟨cs ++ cs', by rw [hcs', hcs, List.foldl_append]⟩

/-- The producers of every state requests lead to are those of a run of
calls. -/
theorem System.producers_after (topics : Topics) (ops : List Op) :
    ∃ cs, (ops.foldl System.step (System.init topics)).db.producers = after cs := by
  refine Run.foldl_inv (fun s : System => ∃ cs, s.db.producers = after cs)
    (fun s op hs => ?_) ⟨[], rfl⟩ ops
  obtain ⟨cs, hcs⟩ := hs
  obtain ⟨cs', hcs'⟩ := Moves.calls (System.step_moves s op)
  refine ⟨cs ++ cs', ?_⟩
  rw [hcs', hcs]
  exact List.foldl_append.symm

/-- A pair an id was at, and is at no longer, is refused. -/
def Fenced (ps : Producers) (db : Db) : Prop := ∀ id pair, ps.pair id = some pair →
  db.producers.pair id ≠ some pair → Refuses db pair.1 pair.2

/-- Whatever requests and sweeps come in between, and whether they
commit. -/
theorem zombies_refused (topics : Topics) (before after : List Op) :
    let s := before.foldl System.step (System.init topics)
    Fenced s.db.producers (after.foldl System.step s).db := by
  intro s id pair hpair hleft
  have hlater : Later s.db.producers (after.foldl System.step s).db.producers := by
    refine Run.foldl_inv (fun t : System => Later s.db.producers t.db.producers)
      (fun t op ht => ?_) (.refl _) after
    obtain ⟨cs, hcs⟩ := Moves.calls (System.step_moves t op)
    rw [hcs]
    exact ht.trans (.run cs)
  exact .of_superseded (hlater.superseded hpair hleft)

end Kafgres.TxnTables
