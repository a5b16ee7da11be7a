/-
What a transaction request leaves alone.
-/
import Kafgres.Access.Requests
import Kafgres.TxnTables.Proofs.Fencing

namespace Kafgres.Access

open Storage Meta List
open Txn (OffsetKey OffsetCommit Staged Finish TxnState)
open TxnTables

variable {ids : String → Prop} {keys : OffsetKey → Prop}
  {db db' db'' : Db} {ms : List Marker} {pid q : ℤ} {id : String} {W : Scope}

-- ==== bound

/-- The transaction under the producer id, if any, is of one of `ids`. -/
def Owned (ids : String → Prop) (db : Db) (q : ℤ) : Prop :=
  ∀ t, db.txn q = some t → ids t.transactionalId

structure Within (ids : String → Prop) (keys : OffsetKey → Prop)
    (db db' : Db) (ms : List Marker) : Prop where
  txn : ∀ q, view db' q = view db q ∨ Owned ids db q ∧ Owned ids db' q
  markers : ∀ m ∈ ms, Owned ids db m.producerId
  offsets : ∀ k, stored db' k = stored db k ∨ keys k

theorem txn_of_view (h : view db' q = view db q) : db'.txn q = db.txn q := congrArg Prod.fst h

theorem Owned.of_txn (h : Owned ids db q) (ht : db'.txn q = db.txn q) : Owned ids db' q :=
  fun t ht' => h t (ht ▸ ht')

/-- A row that was changed or moved, and kept its owner. -/
theorem Owned.map {f : TxnRow → TxnRow} (ho : Owned ids db pid) (h : db'.txn q = (db.txn pid).map f)
    (hid : ∀ t, (f t).transactionalId = t.transactionalId) : Owned ids db' q := by
  intro t ht
  rw [h] at ht
  obtain ⟨t₀, ht₀, rfl⟩ := Option.map_eq_some_iff.1 ht
  rw [hid]
  exact ho t₀ ht₀

namespace Within

theorem refl : Within ids keys db db [] := ⟨fun _ => .inl rfl, nofun, fun _ => .inl rfl⟩

section

variable (h : Within ids keys db db' ms)
include h

/-- The owner of a row stays one of `ids`, or stays none of them. -/
theorem owned_iff : Owned ids db q ↔ Owned ids db' q := by
  rcases h.txn q with hv | ⟨ho, ho'⟩
  · exact ⟨fun ho => ho.of_txn (txn_of_view hv), fun ho => ho.of_txn (txn_of_view hv).symm⟩
  · exact iff_of_true ho ho'

/-- Two steps of which the second writes no marker. -/
theorem andThen (h' : Within ids keys db' db'' []) : Within ids keys db db'' ms := by
  refine ⟨fun q => ?_, h.markers, fun k => ?_⟩
  · rcases h.txn q with hv | ⟨ho, ho'⟩
    · rcases h'.txn q with hv' | ⟨ho', ho''⟩
      · exact .inl (hv'.trans hv)
      · exact .inr ⟨h.owned_iff.2 ho', ho''⟩
    · exact .inr ⟨ho, h'.owned_iff.1 ho'⟩
  · rcases h.offsets k with hk | hk
    · rcases h'.offsets k with hk' | hk'
      · exact .inl (hk'.trans hk)
      · exact .inr hk'
    · exact .inr hk

/-- Rolled back, with the markers that landed. -/
theorem undo : Within ids keys db db ms :=
  ⟨fun _ => .inl rfl, h.markers, fun _ => .inl rfl⟩

end

/-- The rows are those of one producer id, and no offset changes. -/
theorem of_pid (pid : ℤ) (ho : Owned ids db pid) (ho' : Owned ids db' pid)
    (hview : ∀ q, q ≠ pid → view db' q = view db q)
    (hoff : db'.offsets = db.offsets) : Within ids keys db db' [] := by
  refine ⟨fun q => ?_, nofun, fun k => .inl (congrArg (Txn.stored · k) hoff)⟩
  rcases eq_or_ne q pid with rfl | hq
  · exact .inr ⟨ho, ho'⟩
  · exact .inl (hview q hq)

/-- Tables that are not looked at here. -/
theorem of_same (htxn : db'.txns = db.txns)
    (hp : db'.partitions = db.partitions) (hs : db'.staged = db.staged)
    (hoff : db'.offsets = db.offsets) : Within ids keys db db' [] := by
  refine ⟨fun q => .inl ?_, nofun, fun k => .inl (congrArg (Txn.stored · k) hoff)⟩
  unfold view Db.txn
  rw [htxn, hp, hs]

end Within

-- ==== rows

theorem view_congr (htxn : db'.txn q = db.txn q)
    (hp : db'.partitions.filter (fun r => r.1 = q) = db.partitions.filter fun r => r.1 = q)
    (hs : db'.staged.filter (fun r => r.1 = q) = db.staged.filter fun r => r.1 = q) :
    view db' q = view db q := by
  unfold view
  rw [htxn, hp, hs]

-- ==== markers

variable {lands : Key → Bool}

theorem appendMarkers_pid {mark : Key → Marker} {ks : List Key}
    (h : ∀ k, (mark k).producerId = pid) :
    ∀ m ∈ (Txn.appendMarkers mark lands ks).2, m.producerId = pid := by
  intro m hm
  obtain ⟨k, rfl⟩ := Txn.appendMarkers_wrote hm
  exact h k

variable {committed : Bool}

theorem finishTransaction_markers {epoch : ℤ} :
    ∀ m ∈ (finishTransaction db pid epoch committed lands).2, m.producerId = pid := by
  unfold finishTransaction
  split
  · exact nofun
  next t _ =>
  split
  · exact nofun
  split
  iterate 3
    · exact nofun
  dsimp only
  split
  · split <;> exact appendMarkers_pid fun _ => rfl
  · exact appendMarkers_pid fun _ => rfl

/-- `abort_abandoned`, as far as it gets. -/
theorem abortAll_markers {l : List (ℤ × ℤ)} :
    ∀ m ∈ (abortAll lands db l).2, ∃ x ∈ l, m.producerId = x.1 := by
  induction l generalizing db with
  | nil => exact nofun
  | cons x l ih =>
    obtain ⟨pid, epoch⟩ := x
    have hone : ∀ m ∈ (finishTransaction db pid epoch false lands).2, m.producerId = pid :=
      finishTransaction_markers
    intro m hm
    unfold abortAll at hm
    split at hm
    next ms he => exact ⟨_, mem_cons_self, hone m (by rw [he]; exact hm)⟩
    next db₁ f ms he =>
    rcases mem_append.1 hm with hm | hm
    · exact ⟨_, mem_cons_self, hone m (by rw [he]; exact hm)⟩
    · obtain ⟨y, hy, hpid⟩ := ih m hm
      exact ⟨y, .tail _ hy, hpid⟩

theorem endTxn_markers {req : EndTxn} :
    ∀ m ∈ (handleEndTxn db req).2, m.producerId = req.producerId ∧
      ∃ a, verdict db req.transactionalId req.producerId req.producerEpoch = .ok a := by
  unfold handleEndTxn
  split
  · exact nofun
  split
  · exact nofun
  · exact nofun
  split
  · exact nofun
  next a ha => exact fun m hm => ⟨finishTransaction_markers m hm, a, ha⟩

variable {a : Admitted} {now epoch version : ℤ} {p : Producer} {x : ℤ × ℤ}

theorem initProducerId_markers {txn : Option String} {timeoutMs : ℤ} :
    ∀ m ∈ (handleInitProducerId db txn now timeoutMs lands).2,
      ∃ id, txn = some id ∧ id ≠ "" ∧ ∃ x ∈ abandoned db id, m.producerId = x.1 := by
  unfold handleInitProducerId
  split
  · exact nofun
  next id hid =>
  obtain ⟨hid, hne⟩ := Option.filter_eq_some_iff.1 hid
  exact fun m hm => ⟨id, hid, of_decide_eq_true hne, abortAll_markers m hm⟩

-- ==== moves

/-- The rows under a producer of the id. -/
theorem Owned.of_row (hinv : Inv db) (hid : ids id) (hp : db.producers.ofId pid = some p)
    (howner : p.transactionalId = some id) : Owned ids db pid := by
  intro t ht
  have := hinv.owner pid t p ht hp
  rw [howner, Option.some_inj] at this
  exact this ▸ hid

/-- A pair that may act is of the id's transaction. -/
theorem verdict_owned (hinv : Inv db) (hid : ids id)
    (h : verdict db id pid epoch = .ok a) : Owned ids db pid := by
  obtain ⟨-, -, p, hp, howner, -⟩ := verdict_eq_ok.1 h
  exact .of_row hinv hid hp howner

theorem Rest.within {f : TxnRow → TxnRow} (h : Rest W db db') (hpid : W.reaches pid)
    (htxn : ∀ q, db'.txn q = if q = pid then (db.txn q).map f else db.txn q)
    (howner : ∀ t, (f t).transactionalId = t.transactionalId)
    (ho : ∀ q, W.reaches q → Owned W.acts db q) : Within W.acts W.keys db db' [] := by
  refine ⟨fun q => ?_, nofun, h.offsets⟩
  by_cases hq : W.reaches q
  · refine .inr ⟨ho q hq, ?_⟩
    have htxn := htxn q
    split at htxn
    · exact (ho q hq).map htxn howner
    · exact (ho q hq).of_txn htxn
  · have hne : q ≠ pid := fun he => hq (he ▸ hpid)
    exact .inl (view_congr ((htxn q).trans (if_neg hne)) (h.rows q hq).1 (h.rows q hq).2)

theorem begin_within (hid : ids id) (ho : Owned ids db a.producerId) :
    Within ids keys db (beginOrContinue db now a id) [] := by
  refine .of_pid a.producerId ho ?_ ?_ ?_
  · intro t ht
    obtain ⟨t', ht', -, -, howner⟩ := Db.txn_begin db now a id
    rw [ht', Option.some_inj] at ht
    subst ht
    rw [howner]
    cases hrow : db.txn a.producerId with
    | none => exact hid
    | some t₀ => exact ho t₀ hrow
  · intro q hq
    refine view_congr (Db.txn_begin_of_ne hq) ?_ ?_ <;> unfold beginOrContinue <;> split
    · rfl
    · exact filter_others _ hq
    · rfl
    · exact filter_others _ hq
  · unfold beginOrContinue
    split <;> rfl

/-- The transaction row moves with its producer, to an id that had
none. -/
theorem rotate_within {committed : Bool} {r : ℤ × ℤ} (hinv : Inv db)
    (hp : db.producers.ofId pid = some p) (ho : Owned ids db pid)
    (h : db.rotate pid committed = some (db', r)) : Within ids keys db db' [] := by
  have haside : db'.partitions = db.partitions ∧ db'.staged = db.staged ∧
      db'.offsets = db.offsets := by
    unfold Db.rotate at h
    dsimp only at h
    iterate 2
      split at h
      · cases h
        exact ⟨rfl, rfl, rfl⟩
    cases h
  obtain ⟨hpart, hstaged, hoff⟩ := haside
  have hview : ∀ q, db'.txn q = db.txn q → view db' q = view db q := by
    intro q hq
    unfold view
    rw [hq, hpart, hstaged]
  refine ⟨fun q => ?_, fun _ hm => absurd hm not_mem_nil,
    fun k => .inl (congrArg (Txn.stored · k) hoff)⟩
  · rcases Db.rotate_cases hp h with ⟨_, -, -, htxn, -⟩ | ⟨-, htxn, -⟩
    · exact .inl (hview q (congrFun htxn q))
    rcases eq_or_ne q db.producers.next with rfl | hq
    · exact .inr ⟨fun t ht => absurd (hinv.below _ t ht) (lt_irrefl _),
        ho.map ((htxn _).trans (if_pos rfl)) fun _ => rfl⟩
    · rcases eq_or_ne q pid with rfl | hq'
      · refine .inr ⟨ho, fun t ht => ?_⟩
        simp [htxn, if_neg hq] at ht
      · refine .inl (hview q ?_)
        rw [htxn, if_neg hq, if_neg hq']

/-- The finished rows of the id under other producers go. -/
theorem tidy_within (hids : ids id) : Within ids keys db (db.tidy id pid) [] := by
  refine ⟨?_, nofun, fun _ => .inl rfl⟩
  intro q
  cases ht : db.txn q with
  | none =>
    refine .inr ⟨fun t h => ?_, fun t h => ?_⟩
    · simp [ht] at h
    · simp [Db.txn_of_tidy h] at ht
  | some t =>
    by_cases hid : t.transactionalId = id
    · refine .inr ⟨fun t' h => ?_, fun t' h => ?_⟩
      · rw [ht, Option.some_inj] at h
        exact h ▸ hid ▸ hids
      · rw [Db.txn_of_tidy h, Option.some_inj] at ht
        exact ht ▸ hid ▸ hids
    · -- not a row of the id: it stays, with all it has
      have htxn : (db.tidy id pid).txn q = db.txn q := by
        rw [Db.txn_tidy, ht]
        simp [hid]
      refine .inl (view_congr htxn ?_ ?_) <;>
        exact filter_keep fun r _ hr => by simp [hr, ht, hid]

/-- A transactional id is initialised: its other rows go, and its own is
written. -/
theorem init_within {ps : Producers} {timeout : ℤ} (hinv : Inv db) (hid : ids id)
    (hinit : db.producers.initProducerId id = some (ps, pid, epoch)) :
    Within ids keys db (({ db with producers := ps }.tidy id pid).initTxn id pid epoch now
        timeout) [] := by
  obtain ⟨p', -, -, -, -, -, -, hold⟩ := Producers.initProducerId_cases hinit
  have ho : Owned ids db pid := by
    rcases hold with ⟨p, hp, rfl, -⟩ | ⟨-, rfl, -⟩
    · obtain ⟨hp, hpid⟩ := Producers.ofTxn_eq_some.1 hp
      exact .of_row hinv hid hp hpid
    · exact fun t ht => absurd (hinv.below _ t ht) (lt_irrefl _)
  have hps : Within ids keys db { db with producers := ps } [] := .of_same rfl rfl rfl rfl
  have htidy : Within ids keys db ({ db with producers := ps }.tidy id pid) [] :=
    hps.andThen (tidy_within hid)
  refine htidy.andThen (.of_pid pid (htidy.owned_iff.1 ho) ?_ ?_ rfl)
  · intro t ht
    obtain ⟨t', ht', -, howner⟩ := Db.txn_initTxn
      ({ db with producers := ps }.tidy id pid) id pid epoch now timeout
    rw [ht', Option.some_inj] at ht
    subst ht
    rw [howner, Db.txn_tidy_self]
    show ids ((db.txn pid).elim id (·.transactionalId))
    cases hrow : db.txn pid with
    | none => exact hid
    | some t₀ => exact ho t₀ hrow
  · intro q hq
    exact view_congr (Db.txn_initTxn_of_ne hq) rfl rfl

theorem Move.within (hinv : Inv db) (ho : ∀ q, W.reaches q → Owned W.acts db q)
    (h : Move W db db') : Within W.acts W.keys db db' [] := by
  cases h with
  | keep pid f _ htxn howner _ hpid hrest => exact Rest.within hrest hpid htxn howner ho
  | begins now a id p hid hp howner _ => exact begin_within hid (.of_row hinv hid hp howner)
  | fences o _ _ htxn hpid hrest => exact Rest.within hrest hpid htxn (fun _ => rfl) ho
  | rotates committed id p hid hp howner _ hrot =>
    exact rotate_within hinv hp (.of_row hinv hid hp howner) hrot
  | inits id ps epoch now timeout hid hinit => exact init_within hinv hid hinit
  | evicts | allocates | loses => exact .of_same rfl rfl rfl rfl

theorem Moves.within (hinv : Inv db) (ho : ∀ q, W.reaches q → Owned W.acts db q)
    (h : Moves W db db') : Within W.acts W.keys db db' [] := by
  induction h with
  | refl => exact .refl
  | tail hm hone ih =>
    exact ih.andThen (Move.within (hinv.moves hm) (fun q hq => ih.owned_iff.1 (ho q hq)) hone)

/-- The rows of `ids`, and offsets of `keys`. -/
abbrev scope (ids : String → Prop) (keys : OffsetKey → Prop) (db : Db) : Scope :=
  ⟨ids, Owned ids db, keys, fun _ => False⟩

/-- A request of such moves, whether it fails or not. -/
theorem Moves.served {r : Option Db} (hinv : Inv db)
    (h : ∀ db', r = some db' → Moves (scope ids keys db) db db')
    (hms : ∀ m ∈ ms, Owned ids db m.producerId) : Within ids keys db (r.getD db) ms := by
  cases r with
  | none => exact ⟨fun _ => .inl rfl, hms, fun _ => .inl rfl⟩
  | some db' =>
    have hw := Moves.within hinv (fun _ ho => ho) (h db' rfl)
    exact ⟨hw.txn, hms, hw.offsets⟩

/-- The transactions `abort_abandoned` finds are the id's. -/
theorem exists_of_mem_abandoned (hx : x ∈ abandoned db id) :
    ∃ row ∈ db.txns.rows, row.transactionalId = id ∧ row.producerId = x.1 := by
  unfold abandoned at hx
  rw [mem_mergeSort, mem_filterMap] at hx
  obtain ⟨row, hrow, hx⟩ := hx
  split at hx
  next hid =>
    refine ⟨row, hrow, hid.1, ?_⟩
    iterate 2
      split at hx
      · cases hx
        rfl
    cases hx
  next => cases hx

theorem abandoned_owned (hids : ids id) (hx : x ∈ abandoned db id) : Owned ids db x.1 := by
  obtain ⟨row, hrow, hid, hpid⟩ := exists_of_mem_abandoned hx
  intro t ht
  obtain ⟨hmem, hkey⟩ := Table.find?_eq_some.1 ht
  rw [Table.eq_of_key hmem hrow (hkey.trans hpid.symm), hid]
  exact hids

-- ==== isolation

/-- The requests of a transactional producer. -/
def Producing : TxnTables.Request → Prop
  | .initProducerId .. | .addPartitions .. | .addOffsets .. => True
  | .txnOffsetCommit _ | .produce .. | .endTxn _ => True
  | _ => False

theorem Producing.moves {req : TxnTables.Request} (h : Producing req) (hinv : Inv db)
    (hrun : (req.run db).1 = some db') : Moves (scope (req.Acts db) (fun _ => True) db) db db' := by
  have hadmits : ∀ {id pid epoch}, (∀ a, verdict db id pid epoch = .ok a → req.Acts db id) →
      ∀ {begins}, Admits (scope (req.Acts db) (fun _ => True) db) db begins id pid epoch :=
    fun hacts _ a ha => ⟨verdict_owned hinv (hacts a ha) ha, fun _ => hacts a ha⟩
  cases req with
  | initProducerId txn now timeoutMs lands =>
    obtain ⟨r, hr⟩ := exists_of_map_fst hrun
    refine initProducerId_moves (fun id hid _ => ⟨hid, fun x hx => ?_⟩) hr
    exact ⟨abandoned_owned hid hx, fun _ _ _ => trivial⟩
  | addPartitions id pid epoch version now topics =>
    exact Option.some_inj.1 hrun ▸ addPartitions_moves (hadmits fun a ha => ⟨rfl, a, ha⟩)
  | addOffsets id pid epoch version now group =>
    exact Option.some_inj.1 hrun ▸ addOffsets_moves (hadmits fun a ha => ⟨rfl, a, ha⟩)
  | txnOffsetCommit req =>
    exact Option.some_inj.1 hrun ▸ txnOffsetCommit_moves (hadmits fun a ha => ⟨rfl, a, ha⟩)
  | produce txn version now batches =>
    refine Option.some_inj.1 hrun ▸ reserve_moves (s := (db, [])) (fun b hb id hid => ?_) rfl
    exact hadmits fun a ha => ⟨hid, b, hb, a, ha⟩
  | endTxn req =>
    obtain ⟨r, hr⟩ := exists_of_map_fst hrun
    refine endTxn_moves (fun a ha => ?_) hr
    have hacts : (TxnTables.Request.endTxn req).Acts db req.transactionalId := ⟨rfl, a, ha⟩
    exact ⟨hacts, verdict_owned hinv hacts ha, fun _ _ _ => trivial⟩
  | _ => exact h.elim

/-- In every run, a producer's request leaves a transaction it does not
act for as it is: its row, its partitions and its staged offsets. -/
theorem transactions_isolated (topics : Topics) (ops : List TxnTables.Op) :
    Run.EachStep System.step (System.init topics) ops fun s op => Producing op.request →
      ∀ pid t, s.db.txn pid = some t → ¬ op.request.Acts s.db t.transactionalId →
        view (s.step op).db pid = view s.db pid := by
  intro pre op _ hreq pid t ht hacts
  have hinv := Inv.run topics pre
  have hw : Within _ _ _ _ [] := Moves.served hinv (fun _ hrun => hreq.moves hinv hrun) nofun
  unfold System.step
  cases op.commits with
  | false => rfl
  | true => exact (hw.txn pid).resolve_right fun ho => hacts (ho.1 t ht)

-- ==== topics

/-- With a topic go its offsets, and the partitions and staged offsets of
the transactions in it. -/
theorem deleteTopic_within {name : String} {t : Topic} (ht : db.topics.byName name = some t)
    (hk : ∀ r ∈ db.offsets, r.1.key.topic = t.topicId → keys r.1) (hids : ∀ row ∈ db.txns.rows,
      ((∃ r ∈ db.partitions, r.1 = row.producerId ∧ r.2.topic = t.topicId) ∨
        ∃ r ∈ db.staged, r.1 = row.producerId ∧
          r.2.1.key.topic = t.topicId) → ids row.transactionalId) :
    Within ids keys db (deleteTopic db name) [] := by
  unfold deleteTopic
  rw [ht]
  constructor
  · intro q
    by_cases hq : (∃ r ∈ db.partitions, r.1 = q ∧ r.2.topic = t.topicId) ∨
        ∃ r ∈ db.staged, r.1 = q ∧ r.2.1.key.topic = t.topicId
    · have ho : Owned ids db q := by
        intro row hrow
        obtain ⟨hmem, rfl⟩ := Table.find?_eq_some.1 hrow
        exact hids row hmem hq
      exact .inr ⟨ho, ho⟩
    · push Not at hq
      refine .inl (view_congr rfl ?_ ?_)
      · exact filter_keep fun r hr hrq => by simp [hq.1 r hr hrq]
      · exact filter_keep fun r hr hrq => by simp [hq.2 r hr hrq]
  · exact nofun
  · intro k
    refine (Txn.stored_filter_eq_or (fun k => k.key.topic = t.topicId) db.offsets k).imp_right ?_
    rintro ⟨r, hr, rfl, hgone⟩
    exact hk r hr hgone

end Kafgres.Access
