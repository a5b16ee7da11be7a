/-
The ACLs gate committed offsets and transactions, where the rules allow
what the handlers leave unchecked: each request stays within the ids and
the offsets its sender may change (`Request.within`).
-/
import Kafgres.Access.Proofs.Frame
import Kafgres.Access.Proofs.Offsets

namespace Kafgres.Access

open Meta List Topics Tables Request
open Txn (OffsetKey OffsetCommit Staged)
open TxnTables
open Offsets (GroupTables OffsetCommitRequest OffsetDeleteRequest)

variable {authz : Authz} {s s' : Tables} {db : Db} {ms : List Marker}

-- ==== transactions

/-- The ids a sender may change transactions of. -/
abbrev MayChange (authz : Authz) (req : Request) (id : String) : Prop :=
  MayWrite authz id ∨ MarksTxns authz req

theorem permit_within (hinv : Inv db) {req req' : TxnTables.Request}
    (hcov : TxnCovered authz db req) (h : permit authz db req = some req') :
    Within (MayChange authz (.transaction req)) (MayRead authz db.topics) db
      ((req'.run db).1.getD db) (req'.run db).2 := by
  have hadmits : ∀ {begins id pid epoch}, MayWrite authz id →
      Admits (scope (MayChange authz (.transaction req)) (MayRead authz db.topics) db) db begins id
        pid epoch :=
    fun hid a ha => ⟨verdict_owned hinv (.inl hid) ha, fun _ => .inl hid⟩
  cases req with
  | initProducerId txn now timeoutMs lands =>
    simp only [permit] at h
    split at h
    · cases h
      refine Moves.served hinv (fun db' h => ?_) fun m hm => ?_
      · obtain ⟨r, hr⟩ := exists_of_map_fst h
        refine initProducerId_moves (fun id hid hne => ?_) hr
        obtain ⟨hwrite, hread⟩ := hcov id hid hne
        refine ⟨.inl hwrite, fun x hx => ⟨abandoned_owned (.inl hwrite) hx, fun r hr hpid => ?_⟩⟩
        obtain ⟨row, hrow, howner, hx⟩ := exists_of_mem_abandoned hx
        exact hread row hrow howner r hr (hpid.trans hx.symm)
      · obtain ⟨id, hid, hne, x, hx, hpid⟩ := initProducerId_markers m hm
        exact hpid ▸ abandoned_owned (.inl (hcov id hid hne).1) hx
    · cases h
  | addPartitions id pid epoch version now topics =>
    cases h
    exact Moves.served hinv (fun db' h => Option.some_inj.1 h ▸
      addPartitions_moves (hadmits hcov)) nofun
  | addOffsets id pid epoch version now group =>
    cases h
    exact Moves.served hinv (fun db' h => Option.some_inj.1 h ▸
      addOffsets_moves (hadmits hcov)) nofun
  | txnOffsetCommit req =>
    cases h
    exact Moves.served hinv (fun db' h => Option.some_inj.1 h ▸
      txnOffsetCommit_moves (hadmits hcov)) nofun
  | endTxn req =>
    cases h
    refine Moves.served hinv (fun db' h => ?_) fun m hm => ?_
    · obtain ⟨r, hr⟩ := exists_of_map_fst h
      refine endTxn_moves (fun a ha => ?_) hr
      exact ⟨.inl hcov.1, verdict_owned hinv (.inl hcov.1) ha, hcov.2⟩
    · obtain ⟨hpid, a, ha⟩ := endTxn_markers m hm
      exact hpid ▸ verdict_owned hinv (.inl hcov.1) ha
  | writeTxnMarkers entries =>
    simp only [permit] at h
    split at h
    next hca =>
      cases h
      refine Moves.served hinv (fun db' h => ?_) fun _ _ _ _ => .inr hca
      obtain ⟨r, hr⟩ := exists_of_map_fst h
      exact writeTxnMarkers_moves (fun e he => ⟨fun _ _ => .inr hca, hcov e he⟩) hr
    next => cases h
  | produce | expire | sweepProducers => cases h
  | createTopic | createPartitions =>
    simp only [permit] at h
    split at h
    · cases h
      exact .of_same rfl rfl rfl rfl
    · cases h
  | deleteTopic name => cases h

/-- A produce under an id its sender may write, with markers of such
transactions only. -/
theorem produce_within (hinv : Inv db) {id : Option String} {version now : ℤ}
    {batches : List TxnTables.Batch} {control : List Marker} {req : Request}
    (hid : ∀ id' ∈ id, id' ≠ "" → MayWrite authz id')
    (hcontrol : ∀ m ∈ control, ∀ row ∈ db.txns.rows, row.producerId = m.producerId →
      MayWrite authz row.transactionalId) :
    Within (MayChange authz req) (MayRead authz db.topics) db
      (TxnTables.produce db id version now batches).1 control := by
  have hmoves : Moves (scope (MayChange authz req) (MayRead authz db.topics) db) db
      (TxnTables.produce db id version now batches).1 := by
    refine reserve_moves (s := (db, [])) (fun b _ id' hid' a ha => ?_) rfl
    have hmay := hid id' hid' (verdict_eq_ok.1 ha).1
    exact ⟨verdict_owned hinv (.inl hmay) ha, fun _ => .inl hmay⟩
  refine Moves.served (r := some _) hinv (fun db' h => Option.some_inj.1 h ▸ hmoves)
    fun m hm t ht => ?_
  obtain ⟨hrow, hpid⟩ := Table.find?_eq_some.1 ht
  exact .inl (hcontrol m hm t hrow hpid)

-- ==== offsets

/-- An offset request leaves the transactions alone. -/
theorem Within.of_offsets {ids : String → Prop} {keys : OffsetKey → Prop} {offsets : List Staged}
    (h : ∀ k, Txn.stored offsets k = stored db k ∨ keys k) :
    Within ids keys db { db with offsets := offsets } [] :=
  ⟨fun _ => .inl rfl, nofun, h⟩

variable {ts : Topics} {db' : Db} {k : OffsetKey} {w : Option String × Uuid} {t : Topic}

/-- The topic of an offset is the one resolved. -/
theorem topic_unique {topic : Topic} (ht : t ∈ ts.rows.rows) (htopic : topic ∈ ts.rows.rows)
    (hid : t.topicId = k.key.topic) (hk : k.key.topic = topic.topicId) : t = topic :=
  Table.eq_of_key ht htopic (hid.trans hk)

/-- A commit that was checked by name, or covered by id. -/
theorem commits_mayRead {req : OffsetCommitRequest} (hcov : ∀ t ∈ req.topics, t.name = "" →
      ∀ topic ∈ ts.byUuid t.topicId, authz.allows .read .topic topic.name = true)
    (h : Offsets.Commits authz ts req k) : MayRead authz ts k := by
  obtain ⟨hgroup, hk, t, ht, hname, topic, htopic, hid⟩ := h
  refine ⟨hk ▸ hgroup, fun t' ht' hid' => ?_⟩
  unfold resolve at htopic
  split at htopic
  next hempty =>
    rw [topic_unique ht' (byUuid_eq_some.1 htopic).1 hid' hid]
    exact hcov t ht hempty topic htopic
  next =>
  obtain ⟨hmem, hn⟩ := byName_eq_some.1 htopic
  rw [topic_unique ht' hmem hid' hid, hn]
  exact hname

theorem deletes_mayRead {req : OffsetDeleteRequest}
    (hgroups : authz.allows .delete .group req.groupId = true →
      authz.allows .read .group req.groupId = true)
    (htopics : ∀ t ∈ req.topics, authz.allows .delete .topic t.1 = true →
      authz.allows .read .topic t.1 = true)
    (h : Offsets.Deletes authz ts req k) : MayRead authz ts k := by
  obtain ⟨hgroup, hk, t, ht, hname, topic, htopic, hid⟩ := h
  refine ⟨hk ▸ hgroups hgroup, fun t' ht' hid' => ?_⟩
  obtain ⟨hmem, hn⟩ := byName_eq_some.1 htopic
  rw [topic_unique ht' hmem hid' hid, hn]
  exact htopics t ht hname

-- ==== topics

theorem resolveDeleted_mem (h : resolveDeleted ts w = some t) : t ∈ ts.rows.rows := by
  unfold resolveDeleted at h
  split at h
  · exact (byUuid_eq_some.1 h).1
  · obtain ⟨name, -, h⟩ := Option.bind_eq_some_iff.1 h
    exact (byName_eq_some.1 h).1

/-- What is resolved among fewer topics is resolved among all. -/
theorem resolveDeleted_mono {ts' : Topics} (hsub : ∀ t ∈ ts'.rows.rows, t ∈ ts.rows.rows)
    (h : resolveDeleted ts' w = some t) : resolveDeleted ts w = some t := by
  unfold resolveDeleted at h ⊢
  split at h
  next hw =>
    rw [if_pos hw]
    obtain ⟨hmem, hu⟩ := byUuid_eq_some.1 h
    exact byUuid_eq_some.2 ⟨hsub t hmem, hu⟩
  next hw =>
    rw [if_neg hw]
    obtain ⟨name, hname, h⟩ := Option.bind_eq_some_iff.1 h
    obtain ⟨hmem, hn⟩ := byName_eq_some.1 h
    exact Option.bind_eq_some_iff.2 ⟨name, hname, byName_eq_some.2 ⟨hsub t hmem, hn⟩⟩

/-- The rows that are left are among those there were. -/
structure Fewer (db db' : Db) : Prop where
  topics : ∀ t ∈ db'.topics.rows.rows, t ∈ db.topics.rows.rows
  offsets : ∀ r ∈ db'.offsets, r ∈ db.offsets
  partitions : ∀ r ∈ db'.partitions, r ∈ db.partitions
  staged : ∀ r ∈ db'.staged, r ∈ db.staged
  txns : db'.txns = db.txns

theorem Fewer.deleteTopic (h : Fewer db db') (name : String) :
    Fewer db (TxnTables.deleteTopic db' name) := by
  unfold TxnTables.deleteTopic
  split
  · exact h
  exact ⟨fun t ht => h.topics t (Table.mem_delete.1 ht).1,
    fun r hr => h.offsets r (mem_filter.1 hr).1,
    fun r hr => h.partitions r (mem_filter.1 hr).1,
    fun r hr => h.staged r (mem_filter.1 hr).1, h.txns⟩

theorem TopicCovered.mono (h : Fewer db db') (hcov : TopicCovered authz db t)
    (hdel : authz.allows .delete .topic t.name = true) :
    (∀ r ∈ db'.offsets, r.1.key.topic = t.topicId → MayRead authz db.topics r.1) ∧
    ∀ row ∈ db'.txns.rows, ((∃ r ∈ db'.partitions, r.1 = row.producerId ∧ r.2.topic = t.topicId) ∨
        ∃ r ∈ db'.staged, r.1 = row.producerId ∧ r.2.1.key.topic = t.topicId) →
      MayWrite authz row.transactionalId := by
  obtain ⟨hoff, htxn⟩ := hcov hdel
  refine ⟨fun r hr => hoff r (h.offsets r hr), fun row hrow hex => ?_⟩
  rw [h.txns] at hrow
  refine htxn row hrow (hex.imp (fun hp => ?_) fun hs => ?_)
  · obtain ⟨r, hr, hr'⟩ := hp
    exact ⟨r, h.partitions r hr, hr'⟩
  · obtain ⟨r, hr, hr'⟩ := hs
    exact ⟨r, h.staged r hr, hr'⟩

theorem deleteTopics_within {req : Request} {wanted : List (Option String × Uuid)}
    (hcov : ∀ w ∈ wanted, ∀ t, resolveDeleted db.topics w = some t → TopicCovered authz db t) :
    Within (MayChange authz req) (MayRead authz db.topics) db
      (wanted.foldl (deleteOneTopic authz) db) [] := by
  have hfold : ∀ (ws : List (Option String × Uuid)) (db' : Db),
      (∀ w ∈ ws, w ∈ wanted) → Fewer db db' →
      Within (MayChange authz req) (MayRead authz db.topics) db'
        (ws.foldl (deleteOneTopic authz) db') [] := by
    intro ws
    induction ws with
    | nil => exact fun _ _ _ => .refl
    | cons w ws ih =>
      intro db' hws hfew
      have hone : Within (MayChange authz req) (MayRead authz db.topics) db'
          (deleteOneTopic authz db' w) [] ∧
          Fewer db (deleteOneTopic authz db' w) := by
        unfold deleteOneTopic
        split
        next => exact ⟨.refl, hfew⟩
        next t ht =>
        split
        next hdel =>
          have hcov := TopicCovered.mono hfew (hcov w (hws w mem_cons_self) t
              (resolveDeleted_mono hfew.topics ht)) hdel
          exact ⟨deleteTopic_within (byName_eq_some.2
            ⟨resolveDeleted_mem ht, rfl⟩) hcov.1 fun row hrow hex => .inl (hcov.2 row hrow hex),
            hfew.deleteTopic t.name⟩
        next => exact ⟨.refl, hfew⟩
      exact hone.1.andThen (ih _ (fun w hw => hws w (.tail _ hw)) hone.2)
  exact hfold wanted db (fun _ hw => hw)
    ⟨fun _ h => h, fun _ h => h, fun _ h => h, fun _ h => h, rfl⟩

-- ==== requests

/-- A covered request stays within what its sender may change. -/
theorem Request.within (hinv : Inv s.db) {req : Request} (hcov : req.Covered authz s) :
    Within (MayChange authz req) (MayRead authz s.db.topics) s.db
      ((req.run s authz).1.getD s).db (req.run s authz).2 := by
  cases req with
  | transaction req =>
    simp only [run]
    cases hp : permit authz s.db req with
    | none => exact .refl
    | some req' =>
      have h := permit_within hinv hcov hp
      dsimp only
      cases hr : (req'.run s.db).1 with
      | none | some =>
        rw [hr] at h
        exact h
  | produce id version now batches control =>
    refine produce_within hinv hcov.1 fun m hm => ?_
    obtain ⟨hm, hwrite⟩ := mem_filter.1 hm
    exact hcov.2 m hm hwrite
  | offsetCommit v now req =>
    simp only [run, serve]
    cases h : Offsets.offsetCommit s.offsets (req.carried v) v now authz with
    | error e => exact .refl
    | ok r =>
      exact .of_offsets fun k => (Offsets.offsetCommit_changes h k).imp_right (commits_mayRead hcov)
  | offsetDelete req =>
    simp only [run, serve]
    cases h : Offsets.offsetDelete s.offsets req authz with
    | error e => exact .refl
    | ok r =>
      exact .of_offsets fun k => (Offsets.offsetDelete_changes h
        k).imp_right (deletes_mayRead hcov.1 hcov.2)
  | deleteGroups groups =>
    simp only [run, serve]
    cases h : Offsets.deleteGroups s.offsets groups authz with
    | error e => exact .refl
    | ok r =>
      refine .of_offsets fun k => (Offsets.deleteGroups_changes h k).imp_right fun hk => ?_
      obtain ⟨hg, hallow, r, hr, rfl⟩ := hk
      exact hcov r.1.group hg hallow r hr rfl
  | deleteTopics wanted => exact deleteTopics_within hcov
  | group id tables => exact .refl

-- ==== runs

/-- What is within is gated. -/
theorem Within.gated {req : Request}
    (h : Within (MayChange authz req) (MayRead authz s.db.topics) s.db
      s'.db ms) : Gated authz req s s' ms := by
  constructor
  · intro k hk
    exact (h.offsets k).resolve_left hk
  intro pid t ht hchange
  have ho : Owned (MayChange authz req) s.db pid := by
    rcases hchange with hview | ⟨m, hm, rfl⟩
    · exact ((h.txn pid).resolve_left hview).1
    · exact h.markers m hm
  rcases ht with ht | ht
  · exact ho t ht
  · exact h.owned_iff.1 ho t ht

theorem Request.run_inv (hinv : Inv s.db) {req : Request}
    (h : (req.run s authz).1 = some s') : Inv s'.db := by
  have haside : ∀ {db' : Db}, db'.producers = s.db.producers → db'.txns = s.db.txns → Inv db' := by
    intro db' hps htxn
    have hmove : Move (.wide (fun _ => True) fun _ => False) s.db db' := .beside ⟨hps, htxn⟩
    exact hinv.move hmove
  have hserve : ∀ {α : Type} {r : Except Offsets.HandlerError (Offsets.Db × α)},
      s.serve r = some s' → Inv s'.db := by
    intro α r hr
    unfold serve at hr
    split at hr
    · cases hr
      exact haside rfl rfl
    · cases hr
  cases req with
  | transaction req =>
    simp only [run] at h
    split at h
    next =>
      cases h
      exact hinv
    next req' _ =>
      obtain ⟨db', hr, rfl⟩ := Option.map_eq_some_iff.1 h
      exact hinv.moves (Request.moves hr)
  | produce id version now batches control =>
    cases h
    have hrun : (TxnTables.Request.run s.db (.produce id version now
        (batches.filter fun b => writable authz s.db b.key))).1 = some _ := rfl
    exact hinv.moves (TxnTables.Request.moves hrun)
  | offsetCommit | offsetDelete | deleteGroups => exact hserve h
  | deleteTopics wanted =>
    cases h
    have hfold : ∀ (ws : List (Option String × Uuid)) (db' : Db),
        db'.producers = s.db.producers ∧ db'.txns = s.db.txns →
        (ws.foldl (deleteOneTopic authz) db').producers = s.db.producers ∧
          (ws.foldl (deleteOneTopic authz) db').txns = s.db.txns := by
      intro ws
      induction ws with
      | nil => exact fun _ h => h
      | cons w ws ih =>
        intro db' h
        apply ih
        unfold deleteOneTopic TxnTables.deleteTopic
        split
        · exact h
        · split
          · split <;> exact h
          · exact h
    exact haside (hfold wanted s.db ⟨rfl, rfl⟩).1 (hfold wanted s.db ⟨rfl, rfl⟩).2
  | group id tables =>
    cases h
    exact haside rfl rfl

theorem Tables.step_inv (hinv : Inv s.db) (op : Op) : Inv (s.step op).db := by
  cases op with
  | request authz req commits lost =>
    have hafter : Inv (s.after (req.run s authz).1 commits).db := by
      unfold Tables.after
      split
      · cases hr : (req.run s authz).1 with
        | none => exact hinv
        | some s' => exact run_inv hinv hr
      · exact hinv
    have hmoves : Moves (.wide (fun _ => True) fun _ => False) _
      ((s.after (req.run s authz).1 commits).db.lose lost) := lose_moves lost
    exact hafter.moves hmoves
  | expire now stale lands commits =>
    show Inv (s.after _ commits).db
    unfold Tables.after
    split
    · cases hr : (expireStaleTransactions now lands s.db stale).1 with
      | none => exact hinv
      | some db' =>
        have hmoves : Moves (.wide (fun _ => True) fun _ => False) s.db db' := expire_moves hr
        exact hinv.moves hmoves
    · exact hinv
  | sweepProducers victims =>
    have hrun : (TxnTables.Request.run s.db (.sweepProducers victims)).1 =
        some (s.step (.sweepProducers victims)).db := rfl
    exact hinv.moves (TxnTables.Request.moves hrun)

/-- A covered request changes only what its sender may change. -/
theorem Op.Covered.gated (hinv : Inv s.db) {op : Op} (h : op.Covered s) : op.Gated s := by
  cases op with
  | request authz req commits lost =>
    have hw := within hinv h
    refine Within.gated ?_
    have hafter : Within (MayChange authz req) (MayRead authz s.db.topics) s.db
        (s.after (req.run s authz).1 commits).db (req.run s authz).2 := by
      unfold Tables.after
      split
      · exact hw
      · exact hw.undo
    exact hafter.andThen (.of_same rfl rfl rfl rfl)
  | expire | sweepProducers => trivial

/-- In every run of requests of any senders and of the sweeps in which the
rules allow what the handlers leave unchecked, each change of committed
offsets is by a sender who may Read the group and the topic, and each
change of a transaction by one who may Write its id, or has ClusterAction
and writes markers. -/
theorem acls_gate_changes (topics : Topics) (groups : String → GroupTables) (ops : List Op)
    (h : Run.EachStep Tables.step (Tables.init topics groups) ops fun s op => op.Covered s) :
    Run.EachStep Tables.step (Tables.init topics groups) ops fun s op => op.Gated s := by
  intro pre op hpre
  have hinv : Inv (pre.foldl step (init topics groups)).db :=
    Run.foldl_inv (fun s : Tables => Inv s.db)
      (fun s op hs => step_inv hs op) (Inv.init topics) pre
  exact (h pre op hpre).gated hinv

-- ==== an order

/-- The rules: one sender writes under the id `payments` and reads the
group `g` and the topic `orders`, one writes the topic, and one bypasses
them all. -/
def rules : AclCache where
  acls := [
    ⟨"User:alice", "*", "WRITE", true, .transactionalId, "payments", .literal⟩,
    ⟨"User:alice", "*", "IDEMPOTENT_WRITE", true, .cluster, "kafka-cluster", .literal⟩,
    ⟨"User:alice", "*", "READ", true, .group, "g", .literal⟩,
    ⟨"User:alice", "*", "READ", true, .topic, "orders", .literal⟩,
    ⟨"User:bob", "*", "WRITE", true, .topic, "orders", .literal⟩]
  enabled := true
  superusers := ["User:admin"]

def sender (name : String) : Authz := ⟨rules, ⟨name, "10.0.0.9"⟩⟩

/-- One transaction of `payments`: it stages an offset of the group and
commits. The first two requests make the topic and the producer. -/
def paysOrders (who : Authz) : List Op :=
  [.request (sender "User:admin") (.transaction (.createTopic orders)) true 0,
    .request (sender "User:alice") (.transaction
      (.initProducerId (some "payments") 0 60000 fun _ => true)) true 0,
    .request who (.transaction (.txnOffsetCommit
      { transactionalId := "payments"
        producerId := 1
        producerEpoch := 0
        version := 5
        groupId := "g"
        now := 0
        partitions := [("orders", 0, ⟨42, -1, none⟩)]
        group := fun _ => .none })) true 0,
    .request who (.transaction (.endTxn
      { transactionalId := "payments"
        producerId := 1
        producerEpoch := 0
        committed := true
        version := 4
        transactionVersion := 1
        lands := fun _ => true })) true 0]

def ordersAt (who : Authz) (n : ℕ) : Tables :=
  ((paysOrders who).take n).foldl Tables.step (Tables.init .empty fun _ => {})

/-- By the sender the rules are for. -/
theorem acls_gate_orders :
    Run.EachStep Tables.step (Tables.init .empty fun _ => {})
      (paysOrders (sender "User:alice")) fun s op => op.Gated s := by
  apply acls_gate_changes
  unfold paysOrders
  rw [Run.EachStep.cons_iff, Run.EachStep.cons_iff, Run.EachStep.cons_iff, Run.EachStep.cons_iff]
  refine ⟨trivial, ?_, ?_, ?_, Run.EachStep.nil⟩
  · intro id hid _
    cases hid
    exact ⟨by decide +kernel, by decide +kernel⟩
  · show MayWrite _ "payments"
    decide +kernel
  · exact ⟨by decide +kernel, by decide +kernel⟩

/-- A produce of one control batch: a commit marker of the transaction. -/
def forgesMarker : Op := .request (sender "User:bob")
  (.produce none 11 0 [] [⟨orders.key 0, 1, 0, true⟩]) true 0

/-- By a sender no rule is for: the transaction of `payments` is ended,
and the group's offset committed. While it is open, one who may write
the topic only puts a marker of it there. -/
theorem ended_by_anyone :
    ¬ MayWrite (sender "User:mallory") "payments" ∧
    ¬ MayRead (sender "User:mallory") (ordersAt (sender "User:mallory") 3).db.topics
      ⟨"g", orders.key 0⟩ ∧
    stored (ordersAt (sender "User:mallory") 3).db ⟨"g", orders.key 0⟩ = none ∧
    stored (ordersAt (sender "User:mallory") 4).db ⟨"g", orders.key 0⟩ = some ⟨42, -1, none⟩ ∧
    ¬ Run.EachStep Tables.step (Tables.init .empty fun _ => {})
      (paysOrders (sender "User:mallory")) (fun s op => op.Gated s) ∧
    ¬ forgesMarker.Gated (ordersAt (sender "User:alice") 3) := by
  have hread : ¬ MayRead (sender "User:mallory") (ordersAt (sender "User:mallory") 3).db.topics
      ⟨"g", orders.key 0⟩ := by decide +kernel
  refine ⟨by decide +kernel, hread, by decide +kernel, by decide +kernel, ?_, ?_⟩
  · intro h
    obtain ⟨-, -, -, hlast, -⟩ : _ ∧ _ ∧ _ ∧ _ ∧ _ := by
      simpa only [paysOrders, Run.EachStep.cons_iff] using h
    exact hread (hlast.offsets ⟨"g", orders.key 0⟩ (by decide +kernel))
  · intro h
    obtain ⟨t, ht, hid⟩ : ∃ t, (ordersAt (sender "User:alice") 3).db.txn 1 = some t ∧
        t.transactionalId = "payments" :=
      Option.map_eq_some_iff.1 (show Option.map _ _ = some "payments" by decide +kernel)
    rcases h.transactions 1 t (.inl ht) (.inr ⟨⟨orders.key 0, 1, 0, true⟩, by decide +kernel, rfl⟩)
      with hwrite | hmarks
    · rw [hid] at hwrite
      exact absurd hwrite (by decide +kernel)
    · exact hmarks

end Kafgres.Access
