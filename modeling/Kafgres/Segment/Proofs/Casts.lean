/-
The numbers the index entries hold, before they are cut to 32 bits.
Nothing a broker checks ties the offsets a batch spans to its size, and a
segment is rolled by bytes and age only. Under `Narrow` the offsets of
the active segment are never more than `k` times its bytes.
-/
import Kafgres.Codec.Crc32c
import Kafgres.Lib.Run
import Kafgres.Segment.Proofs.Write
import Kafgres.Segment.Recover

namespace Kafgres.Segment

open Storage Codec Bytes List

/-- What the entries due for a batch hold: its offset and its position,
and the offset of the greatest timestamp. -/
def castValues (w : Writer) (bytes : List UInt8) (base : ℤ) : List ℤ :=
  let mx := maxWith w.slot bytes base
  if indexable (w.hints w.slot.activeBase) w.slot.activeBytes then
    [base - w.slot.activeBase, w.slot.activeBytes] ++
      if mx.1 > w.slot.timeIndexedTs ∧ mx.2 ≥ w.slot.activeBase then
        [mx.2 - w.slot.activeBase]
      else []
  else []

/-- The values are those the entries of a placed batch are written
from. -/
theorem place_casts {w : Writer} {bytes : List UInt8} {base : ℤ} {io : WriteIo}
    (h : (place w bytes base io).2 = .ok ()) :
    let f := w.disk.file w.slot.activeBase
    let f' := (place w bytes base io).1.disk.file w.slot.activeBase
    match castValues w bytes base with
    | [] => f'.index = f.index ∧ f'.timeindex = f.timeindex
    | [_] => False
    | rel :: pos :: time => f'.index = f.index ++ (encodeEntry rel pos.toNat).take io.indexWrote ∧
        f'.timeindex = f.timeindex ++
          (time.flatMap (encodeTimeEntry (maxWith w.slot bytes base).1)).take io.timeWrote := by
  by_cases hopen : io.opened = true
  swap
  · simp [place, hopen] at h
  by_cases hw : io.wrote < bytes.length
  · simp [place, hopen, hw] at h
  have hmax : ∀ since, maxWith { w.slot with activeSinceMs := since } bytes base =
      maxWith w.slot bytes base := fun _ => rfl
  simp only [place, hopen, hw, castValues, hmax, not_true, if_false]
  cases indexable (w.hints w.slot.activeBase) w.slot.activeBytes with
  | false => simp [create_file]
  | true =>
    by_cases htime : (maxWith w.slot bytes base).1 > w.slot.timeIndexedTs ∧
        (maxWith w.slot bytes base).2 ≥ w.slot.activeBase
    · simp [create_file, htime]
    · simp [create_file, htime]

/-- An append by a process that has these hints. -/
abbrev Appending := Hints × AppendArgs × WriteIo

variable (crc : List UInt8 → ℕ) (defaultBytes : ℕ)

def Writer.appendBy (w : Writer) (op : Appending) : Writer :=
  (append crc defaultBytes { w with hints := op.1 } op.2.1 op.2.2).1

/-- The writer an append places its batch with. -/
def Writer.placing (w : Writer) (op : Appending) : Writer :=
  (({ w with hints := op.1 }.enterAppend op.2.1).1).readied defaultBytes
    (op.2.1.stored w.slot.nextOffset) w.slot.nextOffset op.2.2.now

/-- No entry the append writes wraps. -/
def Lossless (w : Writer) (op : Appending) : Prop := ∀ v ∈ castValues (w.placing defaultBytes op)
    (op.2.1.stored w.slot.nextOffset) w.slot.nextOffset,
    0 ≤ v ∧ v < 2 ^ 32

instance (w : Writer) (op : Appending) : Decidable (Lossless defaultBytes w op) :=
  inferInstanceAs (Decidable (∀ v ∈ _, _))

/-- The size the append rolls a segment at. -/
def AppendArgs.rollAt (a : AppendArgs) : ℕ :=
  if a.segmentBytes > 0 then a.segmentBytes.toNat else defaultBytes

/-- The batch is one that Produce accepts, with the extent of its header,
and spans at most `k` offsets a byte; `k` times its segment stays within
2^32 bytes. -/
def Narrow (k : ℕ) (_ : Writer) (op : Appending) : Prop := IsBatch crc op.2.1.batch.bytes ∧
    op.2.1.batch.lastOffsetDelta = lastOffsetDelta op.2.1.batch.bytes ∧
    op.2.1.batch.lastOffsetDelta < (k * op.2.1.batch.bytes.length : ℕ) ∧
    k * op.2.1.rollAt defaultBytes ≤ 2 ^ 32

instance (k : ℕ) (w : Writer) (op : Appending) : Decidable (Narrow crc defaultBytes k w op) :=
  inferInstanceAs (Decidable (_ ∧ _ ∧ _ ∧ _))

/-- An empty partition, as recovery finds it. -/
def Writer.empty (home : Home) : Writer :=
  ⟨(⟨0, 0, 0, (i64Min, -1), i64Min⟩ : Recovered).slot home.stripes
    home.key home.index, fun _ => [], {}⟩

-- ==== the invariant

/-- The active segment has at most `k` offsets a byte. -/
structure Dense (k : ℕ) (s : Slot) : Prop where
  start : 0 ≤ s.nextOffset
  base : s.activeBase ≤ s.nextOffset
  span : s.nextOffset - s.activeBase ≤ (k * s.activeBytes : ℕ)
  max : s.maxTimestampOffset < s.nextOffset

variable {crc defaultBytes} {k : ℕ} {w : Writer} {op : Appending}

theorem enterAppend_slot (w : Writer) (a : AppendArgs) :
    (w.enterAppend a).1.slot.maxTimestampOffset = w.slot.maxTimestampOffset ∧
      (w.enterAppend a).1.slot.segmentBytes = a.segmentBytes := by
  unfold Writer.enterAppend Slot.epochForAppend
  dsimp only
  split_ifs <;> exact ⟨rfl, rfl⟩

theorem Dense.entered (h : Dense k w.slot) (a : AppendArgs) : Dense k (w.enterAppend a).1.slot := by
  obtain ⟨-, ⟨hbase, hbytes, hnext⟩, -⟩ := enterAppend_frame w a
  constructor
  · exact hnext ▸ h.start
  · rw [hbase, hnext]
    exact h.base
  · rw [hbase, hnext, hbytes]
    exact h.span
  · rw [(enterAppend_slot w a).1, hnext]
    exact h.max

/-- A roll empties the segment, and without one the batch fits. -/
theorem Dense.placing (h : Dense k w.slot) :
    let s := (w.placing defaultBytes op).slot
    Dense k s ∧ s.nextOffset = w.slot.nextOffset ∧ (s.activeBytes = 0 ∨
      s.activeBytes + (op.2.1.stored w.slot.nextOffset).length ≤ op.2.1.rollAt defaultBytes) := by
  intro s
  have hw := Dense.entered (w := { w with hints := op.1 }) h op.2.1
  have hnext := (enterAppend_frame { w with hints := op.1 } op.2.1).2.1.nextOffset
  simp only [s, Writer.placing, Writer.readied]
  split
  · have hstart := hw.start
    refine ⟨⟨hstart, hnext.ge, ?_, ?_⟩, hnext, .inl rfl⟩
    · simp [Writer.roll, hnext]
    · simp only [Writer.roll]
      omega
  next hdue =>
  refine ⟨hw, hnext, ?_⟩
  unfold rollDue at hdue
  simp only [enterAppend_slot] at hdue
  by_contra hn
  push Not at hn
  exact hdue ⟨by omega, .inr hn.2⟩

theorem lastOffsetDelta_lt (bs : List UInt8) : lastOffsetDelta bs < 2 ^ 31 := by
  have hlt := fromBe_lt (field bs lastOffsetDeltaOffset 4)
  have hlen : (field bs lastOffsetDeltaOffset 4).length ≤ 4 := length_take_le _ _
  have := Nat.pow_le_pow_right (show 0 < 256 by decide) hlen
  unfold lastOffsetDelta readI32 signed
  split <;> omega

/-- The greatest timestamp is at or before the end of the batch. -/
theorem maxWith_lt {s : Slot} {bytes : List UInt8} {base delta : ℤ}
    (hdelta : lastOffsetDelta bytes = delta) (h0 : 0 ≤ delta) (hmax : s.maxTimestampOffset < base) :
    (maxWith s bytes base).2 < base + delta + 1 := by
  unfold maxWith lastOffsetDeltaOf
  split
  · split
    · split <;> omega
    · omega
  · omega

theorem stored_facts (hok : Narrow crc defaultBytes k w op) (base : ℤ) :
    (op.2.1.stored base).length = op.2.1.batch.bytes.length ∧
      lastOffsetDelta (op.2.1.stored base) = op.2.1.batch.lastOffsetDelta ∧
      op.2.1.batch.lastOffsetDelta < 2 ^ 31 := by
  obtain ⟨hbatch, hdelta, -⟩ := hok
  rw [AppendArgs.stored, stamp_length (isBatch_iff.1 hbatch).1,
    lastOffsetDelta_stamp hbatch, hdelta]
  exact ⟨rfl, rfl, lastOffsetDelta_lt _⟩

theorem Dense.lossless (h : Dense k w.slot)
    (hok : Narrow crc defaultBytes k w op) : Lossless defaultBytes w op := by
  obtain ⟨hlen, hdelta, hlt⟩ := stored_facts hok w.slot.nextOffset
  obtain ⟨-, -, hnarrow, hroll⟩ := hok
  obtain ⟨hp, hnext, hfits⟩ := @Dense.placing defaultBytes k w op h
  have hpos := op.2.1.batch.delta_nonneg
  have hmx := maxWith_lt hdelta hpos (hnext ▸ hp.max)
  have hbase := hp.base
  have hspan := hp.span
  rw [hnext] at hbase hspan
  have hk : 0 < k := Nat.pos_of_ne_zero fun hk => by
    rw [hk, Nat.zero_mul] at hnarrow
    omega
  -- the end of the batch in offsets, and its position, against the roll
  have hend : (w.placing defaultBytes op).slot.activeBytes = 0 ∨
      k * (w.placing defaultBytes op).slot.activeBytes + k * op.2.1.batch.bytes.length ≤ 2 ^ 32 :=
    hfits.imp_right fun hfits => by
      rw [← Nat.mul_add, ← hlen]
      exact (Nat.mul_le_mul_left k hfits).trans hroll
  have hbytes := Nat.le_mul_of_pos_left (w.placing defaultBytes op).slot.activeBytes hk
  have hzero : (w.placing defaultBytes op).slot.activeBytes = 0 →
      k * (w.placing defaultBytes op).slot.activeBytes = 0 := fun h => by rw [h, Nat.mul_zero]
  intro v hv
  unfold castValues at hv
  split at hv
  · rw [mem_append, mem_pair] at hv
    rcases hv with (rfl | rfl) | hv
    · omega
    · omega
    split at hv
    · obtain rfl := mem_singleton.1 hv
      omega
    · cases hv
  · cases hv

theorem place_max (w : Writer) (bytes : List UInt8) (base : ℤ) (io : WriteIo) :
    (place w bytes base io).1.slot.maxTimestampOffset = w.slot.maxTimestampOffset ∨
    (place w bytes base io).2 = .ok () ∧ (place w bytes base io).1.slot.maxTimestampOffset =
        (maxWith w.slot bytes base).2 := by
  unfold place
  dsimp only
  split
  · exact .inl rfl
  split
  · exact .inl rfl
  · exact .inr ⟨rfl, rfl⟩

/-- An append keeps the segment dense, whether it succeeds or not. -/
theorem Dense.appendBy (h : Dense k w.slot) (hok : Narrow crc defaultBytes k w op) :
    Dense k (w.appendBy crc defaultBytes op).slot := by
  obtain ⟨hlen, hdelta, -⟩ := stored_facts hok w.slot.nextOffset
  have hnarrow := hok.2.2.1
  have hpos := op.2.1.batch.delta_nonneg
  obtain ⟨⟨hstart, hlow, hspan, hold⟩, hnext, -⟩ := @Dense.placing defaultBytes k w op h
  have hmx := maxWith_lt hdelta hpos (hnext ▸ hold)
  have hmax := place_max (w.placing defaultBytes op)
    (op.2.1.stored w.slot.nextOffset) w.slot.nextOffset op.2.2
  have hcases := (place_cases (w.placing defaultBytes op)
    (op.2.1.stored w.slot.nextOffset) w.slot.nextOffset op.2.2).2
  unfold Writer.appendBy
  rcases append_cases crc defaultBytes { w with hints := op.1 } op.2.1 op.2.2
    with ⟨hr, -⟩ | ⟨-, -, ⟨herr, hr⟩ | ⟨hdone, hr⟩⟩
  · rw [hr]
    exact Dense.entered (w := { w with hints := op.1 }) h op.2.1
  · -- refused by the files: the extent is the one it was placed with
    rw [hr]
    rcases hcases with ⟨-, ⟨hbase, hbytes, hnext'⟩, -⟩ | ⟨hdone, -⟩
    · rcases hmax with hmax | ⟨hdone, -⟩
      · exact ⟨hnext' ▸ hstart, hbase ▸ hnext' ▸ hlow,
          hbase ▸ hbytes ▸ hnext' ▸ hspan, hnext' ▸ hmax ▸ hold⟩
      · exact nomatch herr.symm.trans hdone
    · exact nomatch herr.symm.trans hdone
  · rw [hr]
    rcases hcases with ⟨herr, -⟩ | ⟨-, hbase, -, hbytes, -⟩
    · exact nomatch herr.symm.trans hdone
    show Dense k ((place (w.placing defaultBytes op) _ _ op.2.2).1.advance
      (w.slot.nextOffset + op.2.1.batch.lastOffsetDelta + 1)).slot
    have hmul := Nat.mul_add k (w.placing defaultBytes op).slot.activeBytes
      (op.2.1.stored w.slot.nextOffset).length
    rw [← hbytes, hlen] at hmul
    constructor <;> dsimp only [Writer.advance] <;> omega

/-- In a run of appends of narrow batches no index entry wraps. -/
theorem index_casts_lossless (crc : List UInt8 → ℕ) (defaultBytes k : ℕ)
    (home : Home) (ops : List Appending) (h : Run.EachStep (Writer.appendBy crc defaultBytes)
      (.empty home) ops (Narrow crc defaultBytes k)) :
    Run.EachStep (Writer.appendBy crc defaultBytes) (.empty home) ops (Lossless defaultBytes) := by
  have hinv : Run.Always (Writer.appendBy crc defaultBytes) (.empty home)
      ops fun w => Dense k w.slot :=
    Run.Always.of_eachStep (fun _ _ hd hop => hd.appendBy hop)
      ⟨le_rfl, le_rfl, le_rfl, neg_one_lt_zero⟩ h
  intro pre op hpre
  exact (hinv pre ((prefix_append _ _).trans hpre)).lossless (h pre op hpre)

/-- A batch that claims `count` offsets and holds no record. -/
def hollow (count : ℕ) (h : 1 ≤ count) : AppendArgs where
  seed := 0
  segmentMs := 604800000
  segmentBytes := 1073741824
  batch := ⟨producedBatch count [], count - 1, by omega⟩

/-- Sent by a process that has no hints yet. -/
def sentHollow (count : ℕ) (h : 1 ≤ count) : Appending :=
  (fun _ => [], hollow count h, ⟨1, true, true, 61, 8, 12, .corruptBatch⟩)

/-- Each of four batches claims 2^31 - 1 offsets. -/
theorem index_cast_wraps :
    let ops := List.replicate 4 (sentHollow (2 ^ 31 - 1) (by decide))
    let home : Home := ⟨1, ⟨1, 0, by decide⟩, 0⟩
    (∀ op ∈ ops, IsBatch crc32c op.2.1.batch.bytes ∧
      op.2.1.batch.lastOffsetDelta = lastOffsetDelta op.2.1.batch.bytes) ∧
    ¬ Run.EachStep (Writer.appendBy crc32c 1073741824) (.empty home) ops (Lossless 1073741824) := by
  decide +kernel

/-- Two offsets a byte. -/
theorem index_casts_lossless_four :
    let ops := List.replicate 4 (sentHollow 122 (by decide))
    let home : Home := ⟨1, ⟨1, 0, by decide⟩, 0⟩
    Run.EachStep (Writer.appendBy crc32c 1073741824) (.empty home) ops (Lossless 1073741824) := by
  intro ops home
  have hok : Run.EachStep (Writer.appendBy crc32c 1073741824)
      (.empty home) ops (Narrow crc32c 1073741824 2) := by decide +kernel
  exact index_casts_lossless crc32c 1073741824 2 home ops hok

end Kafgres.Segment
