/-
Compaction and the keyed view, over whole runs.

Two conditions are about the code and not about its inputs. A batch that
is kept whole keeps old values while the pass goes on as if they were
gone; and a pass that finds fewer segments past the lag than its plan
mapped takes the plan for finished.
-/
import Kafgres.Compaction.Proofs.Grow
import Kafgres.Lib.Run

namespace Kafgres.Compaction

open Run List Function EachStep

variable {B : Type} [Wire B] {keys : List B} {s : System B} {i : ℕ}

-- ==== one step

/-- What a step needs. An appended batch is well formed; an end of
transactions leaves what was decided below the last stable offset as it
was; and a pass finds no unwieldy batch with a deleted value, its plan's
segments still past the lag, and a file system that removes what it is
told to. -/
def Op.Ok (keys : List B) (s : System B) : Op B → Prop
  | .append b _ =>
    Batch.Sound { b with baseOffset := s.part.nextOffset } ∧
      ∀ r ∈ b.records, ∀ k, r.key = some k → k ∈ keys
  | .settle lastStable txns =>
    s.part.lastStable ≤ lastStable ∧ lastStable ≤ s.part.nextOffset ∧
      (∀ b ∈ s.part.log, b.lastOffset < lastStable → txns.Decided b) ∧
      ∀ b ∈ s.part.log, b.lastOffset < s.part.lastStable → txns.settled b = s.part.txns.settled b
  | .compact proc c =>
    Collisionless keys c.hashers ∧ Disposable s.part ∧ (∀ q, (s.procs proc).plan = some q →
        q.generation = s.part.layoutGeneration →
        ∀ seg ∈ s.part.closed, seg.base ≤ q.map.endOffset →
          seg.mtime ≤ c.now - c.minCompactionLag) ∧
      ∀ seg ∈ s.part.closed, c.unlinkFails seg.base = false
  | .roll _ | .evict _ | .exit _ | .restart => True

/-- What holds between steps. -/
structure Inv (keys : List B) (s : System B) : Prop where
  part : PartOk keys s.part
  procs : ∀ i, ProcOk keys s.part (s.procs i)

/-- A step that only grows the log. -/
theorem Inv.grows {p' : Partition B} (h : Inv keys s)
    (hp' : p'.Shape) (hkeys : KeysIn keys p') (hg : Grows s.part p') :
    Inv keys { s with part := p' } :=
  ⟨⟨hp', hkeys, hg.cleanBelow h.part.shape hp' h.part.clean⟩,
    fun i => hg.procOk h.part.shape hp' (h.procs i)⟩

/-- One process's memory replaced. -/
theorem Inv.setProc {st : Statics B} (h : Inv keys s)
    (hst : ProcOk keys s.part st) : Inv keys (s.setProc i st) := by
  refine ⟨h.part, fun k => ?_⟩
  unfold System.setProc
  dsimp only
  rcases eq_or_ne k i with rfl | hne
  · rw [update_self]
    exact hst
  · rw [update_of_ne hne]
    exact h.procs k

/-- A process that has just started knows nothing. -/
theorem ProcOk.fresh {p : Partition B} : ProcOk keys p {} :=
  ⟨fun _ hid => (nomatch hid), fun _ hq => (nomatch hq), nofun⟩

variable [DecidableEq B]

/-- A pass in a good state. -/
theorem Inv.pass {c : Call B} (h : Inv keys s) (hok : Op.Ok keys s (.compact i c)) :
    PassOk keys s.part (s.step (.compact i c)).part ((s.step (.compact i c)).procs i) := by
  obtain ⟨hfp, hdisp, hlag, hun⟩ := hok
  unfold System.step
  dsimp only
  rw [update_self]
  exact compactPass_ok h.part (h.procs i) hdisp hfp hlag hun rfl

theorem Inv.step {op : Op B} (h : Inv keys s) (hok : op.Ok keys s) : Inv keys (s.step op) := by
  have hp := h.part.shape
  cases op with
  | append b mtime =>
    refine h.grows (shape_append hp hok.1) (fun x hx e he k hk => ?_) (grows_append hp)
    rcases mem_log_append.1 hx with hx | rfl
    · exact h.part.keysIn x hx e he k hk
    · obtain ⟨r, hr, rfl⟩ := mem_entries.1 he
      exact hok.2 r hr k hk
  | roll mtime =>
    refine h.grows (shape_roll hp) (fun x hx => ?_) (grows_roll hp)
    rw [log_roll] at hx
    exact h.part.keysIn x hx
  | settle lastStable txns =>
    obtain ⟨hup, hle, hdec, hsame⟩ := hok
    refine h.grows ?_ h.part.keysIn ?_
    · exact { hp with cursor_le := hp.cursor_le.trans hup, stable_le := hle, decided := hdec }
    refine ⟨⟨[], (append_nil _).symm, nofun⟩, le_rfl, ⟨[], (append_nil _).symm, nofun⟩,
      hup, fun b hb hlt => ?_, rfl, rfl⟩
    unfold Txns.Live
    rw [hsame b hb hlt]
  | evict i =>
    exact h.setProc ⟨(h.procs i).known, fun _ hq => (nomatch hq), nofun⟩
  | exit i => exact h.setProc ProcOk.fresh
  | restart =>
    have hstable := hp.cursor_nonneg.trans hp.cursor_le
    have hshape := hp.setCursor le_rfl hstable fun b hb hlt => by
      have := hp.base_nonneg hb
      omega
    refine ⟨⟨{ hshape with }, h.part.keysIn, ?_⟩, fun _ => ProcOk.fresh⟩
    intro b hb _ _ e he _ _ ho
    have hin := (hp.sound b hb).entry_mem he
    have := hp.base_nonneg hb
    have ho : e.offset < 0 := ho
    omega
  | compact i c =>
    have hpass := h.pass hok
    refine ⟨hpass.part, fun k => ?_⟩
    rcases eq_or_ne k i with rfl | hne
    · exact hpass.proc
    have hother : (s.step (.compact i c)).procs k = s.procs k := update_of_ne hne _ _
    rw [hother]
    exact hpass.others _ (h.procs k)

-- ==== every run

/-- A partition as passes first find it, with no pass remembered. -/
structure Start (keys : List B) (s : System B) : Prop where
  shape : s.part.Shape
  cursor : s.part.compactCursor = 0
  keysIn : KeysIn keys s.part
  procs : ∀ i, s.procs i = {}

omit [DecidableEq B] in
theorem Start.inv (h : Start keys s) : Inv keys s := by
  refine ⟨⟨h.shape, h.keysIn, fun b hb _ _ e he _ _ ho => ?_⟩, fun i => ?_⟩
  · have := h.shape.base_nonneg hb
    have := (h.shape.sound b hb).entry_mem he
    rw [h.cursor] at ho
    omega
  · rw [h.procs i]
    exact ProcOk.fresh

/-- Byte strings told apart by their lengths. -/
instance byLength : Wire ℕ where
  length := id
  batchLen _ kept := 61 + kept.length
  crc32c _ _ := 0

/-- A plain batch of a log without transactions. -/
def plainBatch (base : ℤ) (compressionType len : ℕ) (records : List (ℕ × Option ℕ)) : Batch ℕ where
  baseOffset := base
  partitionLeaderEpoch := 0
  compressionType
  transactional := false
  control := false
  lastOffsetDelta := records.length - 1
  baseTimestamp := 0
  maxTimestamp := 0
  producerId := -1
  producerEpoch := -1
  baseSequence := -1
  recordCount := records.length
  records := records.mapIdx fun i r => ⟨0, 0, i, some r.1, r.2, []⟩
  storedCrc := 0
  len

/-- A pass at a time, with `delete.retention.ms` at 100 and budget to
spare. -/
def passAt (now : ℤ) : Call ℕ where
  now
  judgedAt := now
  finishedAt := now
  minCompactionLag := 0
  deleteRetention := 100
  budget := 100000
  budgetLeft := true
  planSlot := true
  hashers := BitVec.ofNat 128

theorem plainBatch_sound {base : ℤ} {compressionType len : ℕ}
    {records : List (ℕ × Option ℕ)} (h : records ≠ []) :
    (plainBatch base compressionType len records).Sound := by
  have hlen := length_pos_iff.2 h
  refine ⟨?_, ?_, fun r hr => ?_, nofun, fun _ => rfl, nofun⟩
  · dsimp only [plainBatch]
    omega
  · refine pairwise_iff_getElem.2 fun i j hi hj hlt => ?_
    simp only [plainBatch, getElem_mapIdx]
    exact Int.ofNat_lt.2 hlt
  · obtain ⟨i, hi, rfl⟩ := mem_mapIdx.1 hr
    dsimp only [plainBatch]
    omega

-- The plan of the first pass stops for want of budget with everything
-- mapped. The second pass runs under a larger lag, finds only the first
-- segment, and ends the plan; the third drops the tombstone.
example :
    let s : System ℕ :=
      { part :=
          { closed := [⟨0, 0, [plainBatch 0 0 100 [(2, some 5)]]⟩,
              ⟨1, 500, [plainBatch 1 0 100 [(1, some 7)]]⟩,
              ⟨2, 500, [plainBatch 2 0 100 [(1, none)]]⟩]
            active := ⟨3, 500, []⟩
            nextOffset := 3
            layoutGeneration := 0
            compactCursor := 0
            lastStable := 3
            txns := {} }
        procs := fun _ => {} }
    let before := [.compact 0 { passAt 1000 with budget := 300 },
      .compact 0 { passAt 1000 with minCompactionLag := 600 },
      .append (plainBatch 0 0 1000 [(4, some 1)]) 500, .roll 500,
      .settle 4 {}].foldl System.step s
    before.part.view 1 = none ∧
      (before.step (.compact 0 (passAt 2000))).part.view 1 = some 7 := by
  decide +kernel

end Kafgres.Compaction
