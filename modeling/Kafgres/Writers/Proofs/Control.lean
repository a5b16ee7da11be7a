/-
Control batches and who writes them.

What the broker builds is a control batch exactly when the coordinator
builds it. A client's batch is stored with the attributes it came with:
planning reads the control flag only to exempt the batch from the
transaction checks. The log is the coordinator's as long as planning
leaves every such batch out.
-/
import Kafgres.Codec.Crc32c
import Kafgres.Codec.Proofs.Build
import Kafgres.Lib.Run
import Kafgres.Produce.Proofs.AtMostOnce
import Kafgres.Writers.Log

namespace Kafgres.Writers

open Storage Codec Bytes RecordBatch List Option
open Produce (View World Pos Env Catalog)

variable {crc : List UInt8 → ℕ} {s : State} {req : Request} {bs : List UInt8}

-- ==== requests

/-- A batch of the request is one of a partition's batches. -/
theorem mem_of_batchAt {pos : Pos} (h : req.batchAt pos = some bs) :
    ∃ t ∈ req.topics, ∃ p ∈ t.partitions, .ok bs ∈ p.batches := by
  obtain ⟨t, ht, h⟩ := bind_eq_some_iff.1 h
  obtain ⟨p, hp, h⟩ := bind_eq_some_iff.1 h
  obtain ⟨b, hb, h⟩ := bind_eq_some_iff.1 h
  refine ⟨t, mem_of_getElem? ht, p, mem_of_getElem? hp, ?_⟩
  cases b with
  | error e => cases h
  | ok b =>
    cases h
    exact mem_of_getElem? hb

theorem length_of_mem_batches {p : PartitionBytes}
    (h : .ok bs ∈ p.batches) : recordBatchOverhead ≤ bs.length := by
  unfold PartitionBytes.batches at h
  split at h
  · cases h
  · exact length_of_mem_batchIter h

theorem control_of_view {v : View} (h : view bs = .ok v) : v.control = isControl bs := by
  unfold view at h
  split at h
  · cases h
  · cases h
    rfl

/-- A planned batch is read off the bytes at its place. -/
theorem control_of_planned {cat : Catalog} {w : World} {p : Produce.Pending} {i : ℕ}
    {b : View × Produce.Decision} (hp : p ∈ req.decode.pendings cat w)
    (hb : p.plan[i]? = some b) (hbs : req.batchAt ⟨p.site, i⟩ = some bs) :
    b.1.control = isControl bs := by
  obtain ⟨e, he, hpe⟩ := Produce.mem_pendings.1 hp
  obtain ⟨hsite, -, -, -, hplan, -⟩ := Produce.pending_spec hpe
  obtain ⟨_, ti, pi, ht, hdata, hesite, -⟩ := Produce.mem_entries he
  obtain ⟨t, ht', rfl⟩ := map_eq_some_iff.1 (getElem?_map ▸ ht)
  obtain ⟨d, hd, hdata⟩ := map_eq_some_iff.1 (getElem?_map ▸ hdata)
  have hrecords : e.data.records = d.batches.map fun b => b.bind view := by rw [← hdata]; rfl
  have hview : e.data.records[i]? = some (.ok b.1) := by
    rw [← nil_append e.data.records, ← map_nil, ← Produce.planLoop_views hplan, getElem?_map, hb]
    rfl
  rw [hrecords, getElem?_map] at hview
  obtain ⟨c, hc, hview⟩ := map_eq_some_iff.1 hview
  have hat : req.batchAt ⟨p.site, i⟩ = c.toOption := by
    unfold Request.batchAt
    rw [hsite, hesite]
    simp [ht', hd, hc]
  rw [hat] at hbs
  cases c with
  | error err => cases hbs
  | ok bs' =>
    cases hbs
    exact control_of_view hview

/-- What Produce lands: a batch planned for the store, with a checksum
that holds. -/
theorem landed_planned {env : Env} {cat : Catalog} {w : World} {x : Produce.LogEntry}
    (hx : x ∈ (Produce.handle (req.checked crc env) cat req.decode w.cleared).1.log)
    (hbs : req.batchAt x.pos = some bs) :
    IsBatch crc bs ∧ ∃ p ∈ req.decode.pendings cat w, p.Holds x.pos := by
  rcases Produce.handle_moved (req.checked crc env) cat req.decode w.cleared with heq | hmoved
  · rw [heq] at hx
    cases hx
  obtain ⟨p, hp, -, hpos, n, htaken⟩ := (hmoved.log x hx).resolve_left not_mem_nil
  refine ⟨?_, p, hp, hpos⟩
  -- the store refuses the others
  unfold Request.checked at htaken
  simp only [hbs] at htaken
  split_ifs at htaken with hbatch
  exact hbatch

-- ==== steps

/-- A batch is stored that is not the coordinator's, and no control
batch. -/
theorem OnlyCoordinator.append (h : OnlyCoordinator s) (w : Writer) (k : Key)
    (epoch : ℤ) {bytes : List UInt8} (hlen : recordBatchOverhead ≤ bytes.length)
    (hnew : isControl bytes = true → w = .coordinator) :
    OnlyCoordinator (s.append w k epoch bytes) := by
  refine forall_mem_append.2 ⟨h, forall_mem_singleton.2 ?_⟩
  intro hcontrol
  rw [isControl_stamp hlen] at hcontrol
  exact hnew hcontrol

/-- Markers are the coordinator's. -/
theorem OnlyCoordinator.markers (h : OnlyCoordinator s) (epoch : Key → ℤ)
    (ms : List TxnTables.Marker) : OnlyCoordinator (ms.foldl (State.appendMarker crc epoch) s) :=
  Run.foldl_inv OnlyCoordinator (fun _ _ h => h.append _ _ _ (putBatch_length ..) fun _ => rfl) h ms

theorem OnlyCoordinator.produce (h : OnlyCoordinator s) (env : Env)
    (cat : Catalog) (epoch : Key → ℤ) (hreq : req.NoControl crc cat s.world) :
    OnlyCoordinator (s.produce crc env cat epoch req) := by
  intro b hb hcontrol
  rcases mem_append.1 hb with hb | hb
  · exact h b hb hcontrol
  obtain ⟨x, hx, hxb⟩ := mem_filterMap.1 hb
  obtain ⟨bs, hbs, rfl⟩ := map_eq_some_iff.1 hxb
  obtain ⟨t, -, d, -, hmem⟩ := mem_of_batchAt hbs
  obtain ⟨hbatch, p, hp, hsite, c, hc, hstores⟩ := landed_planned hx hbs
  rw [isControl_stamp (length_of_mem_batches hmem)] at hcontrol
  have hat : req.batchAt ⟨p.site, x.pos.batch⟩ = some bs := by rw [← hsite]; exact hbs
  rw [← control_of_planned hp hc hat] at hcontrol
  exact absurd hbatch (hreq p hp (c, x.pos.batch) (mk_mem_zipIdx_iff_getElem?.2 hc)
    hcontrol hstores bs hat)

theorem OnlyCoordinator.step {op : Op} (h : OnlyCoordinator s)
    (hop : op.NoControl crc s) : OnlyCoordinator (s.step crc op) := by
  cases op with
  | produce env cat epoch req => exact h.produce env cat epoch hop
  | sql xid generation k epoch record =>
    show OnlyCoordinator (s.sql crc xid generation k epoch record)
    unfold State.sql
    split
    · exact h
    · refine h.append _ _ _ (putBatch_length ..) fun hc => ?_
      simp [isControl_buildBatchFull] at hc
  | change k epoch record =>
    refine h.append _ _ _ (putBatch_length ..) fun hc => ?_
    simp [buildBatch, isControl_buildBatchFull] at hc
  | txn epoch op =>
    have htables : OnlyCoordinator { s with tables := s.tables.step op } := h
    exact htables.markers epoch _

-- ==== runs

/-- As long as planning gives the store no control batch of a client's,
every control batch in the log is the coordinator's. -/
theorem control_batches_are_markers (crc : List UInt8 → ℕ) (topics : Meta.Topics) (ops : List Op)
    (hops : Run.EachStep (State.step crc) (.init topics) ops (Op.NoControl crc)) :
    Run.Always (State.step crc) (.init topics) ops OnlyCoordinator :=
  Run.Always.of_eachStep (fun _ _ h hop => h.step hop) nofun hops

/-- A broker with one topic, and a client that sends the blob to its
first partition. -/
def sends (buf : List UInt8) : Op := .produce Produce.allWell Produce.oneTopic (fun _ => 0)
    ⟨[⟨"orders", some ⟨1, Key.one_ne_zero⟩, [⟨0, none, some buf⟩]⟩], false⟩

/-- A batch of producer 7 with a sequence number, and the checksum it
then has. -/
def sequenced (attributes : BitVec 16) (seq : ℕ) : List UInt8 :=
  let bs := putBatch crc32c attributes 1 0 0 7 0 (putRecord 0 0 none none)
  let covered := (bs.take baseSequenceOffset).drop attributesOffset ++ toBe 4 seq ++
    bs.drop (baseSequenceOffset + 4)
  bs.take crcOffset ++ toBe 4 (crc32c covered) ++ covered

/-- A transaction is committed on a partition, and its marker is the only
one there. Of a client's control batches one is taken for its batch
before, one is out of sequence, and one fails its checksum. -/
def committedOrders : List Op :=
  let api (req : TxnTables.Request) : Op := .txn (fun _ => 0) ⟨req, true, 0⟩
  [api (.createTopic Meta.orders), api (.initProducerId (some "orders") 3 60000 fun _ => true),
    api (.addPartitions "orders" 1 0 3 4 [("orders", [0])]), sends (sequenced 0 0),
    api (.endTxn ⟨"orders", 1, 0, true, 4, 1, fun _ => true⟩),
    sends (sequenced controlBatchFlag 0), sends (sequenced controlBatchFlag 5),
    sends ((buildControlBatch crc32c 7 0 true).dropLast ++ [1])]

theorem control_batches_are_markers_orders :
    Run.Always (State.step crc32c) (.init .empty) committedOrders OnlyCoordinator ∧
    (committedOrders.foldl (State.step crc32c) (.init .empty)).log =
      [⟨Meta.orders.key 0, .client, stamp (sequenced 0 0) 0 0⟩,
        ⟨Meta.orders.key 0, .coordinator, stamp (buildControlBatch crc32c 1 0 true) 1 0⟩] := by
  refine ⟨control_batches_are_markers crc32c .empty committedOrders ?_, by decide +kernel⟩
  decide +kernel

/-- A client sends the bytes of a commit marker for producer 7. They are
stored as they are. -/
theorem forged_marker :
    ((State.init .empty).step crc32c (sends (buildControlBatch crc32c 7 0 true))).log =
      [⟨⟨1, 0, by decide⟩, .client, stamp (buildControlBatch crc32c 7 0 true) 0 0⟩] ∧
    ¬ OnlyCoordinator ((State.init .empty).step crc32c
      (sends (buildControlBatch crc32c 7 0 true))) := by
  decide +kernel

end Kafgres.Writers
