/-
What one append can do to the writer, said once.
-/
import Kafgres.Codec.Proofs.RecordBatch
import Kafgres.Segment.Write

namespace Kafgres.Segment

open Storage Codec Bytes List

-- ==== disk

@[simp] theorem create_file (d : Disk) (b : ℤ) : (d.create b).file = d.file := by
  unfold Disk.create
  split <;> rfl

variable {d : Disk} {b : ℤ}

theorem mem_create_names {c : ℤ} : c ∈ (d.create b).names ↔ c ∈ d.names ∨ c = b := by
  unfold Disk.create
  split
  · rename_i hb
    exact ⟨.inl, fun h => h.elim id fun he => he ▸ hb⟩
  · simp

@[simp] theorem setFile_names (d : Disk) (b : ℤ) (f : SegFile) :
    (d.setFile b f).names = d.names := rfl

@[simp] theorem setFile_file (d : Disk) (b c : ℤ) (f : SegFile) :
    (d.setFile b f).file c = if c = b then f else d.file c := by
  simp [Disk.setFile, Function.update_apply]

variable {l : List ℤ}

theorem le_getLast (hs : l.Pairwise (· < ·)) {last : ℤ}
    (hlast : l.getLast? = some last) (hb : b ∈ l) : b ≤ last := by
  obtain ⟨rest, rfl⟩ := getLast?_eq_some_iff.1 hlast
  rcases mem_append.1 hb with hb | hb
  · exact ((pairwise_append.1 hs).2.2 b hb last (mem_singleton_self _)).le
  · rw [mem_singleton.1 hb]

theorem exists_getLast_of_mem (hb : b ∈ l) : ∃ last, l.getLast? = some last :=
  ⟨_, getLast?_eq_getLast_of_ne_nil (ne_nil_of_mem hb)⟩

/-- In a sorted list the greatest element is the last. -/
theorem getLast_of_greatest (hs : l.Pairwise (· < ·))
    (hb : b ∈ l) (hle : ∀ c ∈ l, c ≤ b) : l.getLast? = some b := by
  obtain ⟨last, hlast⟩ := exists_getLast_of_mem hb
  rw [hlast, le_antisymm (hle last (mem_of_getLast? hlast)) (le_getLast hs hlast hb)]

/-- Creating a file past the others keeps the directory sorted and puts
that file last. -/
theorem create_last {a : ℤ} (hs : d.names.Pairwise (· < ·)) (hle : ∀ b ∈ d.names, b ≤ a) :
    (d.create a).names.Pairwise (· < ·) ∧ (d.create a).names.getLast? = some a := by
  unfold Disk.create
  split_ifs with hmem
  · exact ⟨hs, getLast_of_greatest hs hmem hle⟩
  · refine ⟨pairwise_append.2 ⟨hs, pairwise_singleton .., fun b hb c hc => ?_⟩, getLast?_concat ..⟩
    rw [mem_singleton.1 hc]
    exact lt_of_le_of_ne (hle b hb) fun he => hmem (he ▸ hb)

-- ==== place

/-- The fields of a slot that say where the next batch goes, and those
an append leaves to others. -/
structure SameExtent (s t : Slot) : Prop where
  activeBase : t.activeBase = s.activeBase
  activeBytes : t.activeBytes = s.activeBytes
  nextOffset : t.nextOffset = s.nextOffset

/-- The fields no append touches. -/
structure SameTenure (s t : Slot) : Prop where
  topic : t.topic = s.topic
  partition : t.partition = s.partition
  pending : t.pending = s.pending
  ringIndex : t.ringIndex = s.ringIndex

theorem SameTenure.refl (s : Slot) : SameTenure s s := ⟨rfl, rfl, rfl, rfl⟩

theorem SameTenure.trans {r s t : Slot} (h : SameTenure r s)
    (h' : SameTenure s t) : SameTenure r t :=
  ⟨h'.topic.trans h.topic, h'.partition.trans h.partition,
    h'.pending.trans h.pending, h'.ringIndex.trans h.ringIndex⟩

/-- The files after a write of `data` at the end of the active segment,
with its index files as given. -/
def Writer.written (w : Writer) (data index timeindex : List UInt8) : Disk :=
  (w.disk.create w.slot.activeBase).setFile w.slot.activeBase
    ⟨writeAt (w.disk.file w.slot.activeBase).log w.slot.activeBytes data, index, timeindex⟩

/-- The write half: a failure leaves the extent and the hints alone and
has written at most a proper part of the batch; a success has written
all of it, and its index entry, as far as that write got, if one was
due. -/
theorem place_cases (w : Writer) (bytes : List UInt8) (base : ℤ) (io : WriteIo) :
    let r := place w bytes base io
    let f := w.disk.file w.slot.activeBase
    SameTenure w.slot r.1.slot ∧
    ((r.2 = .error io.error ∧ SameExtent w.slot r.1.slot ∧
        r.1.hints = w.hints ∧ (r.1.disk = w.disk ∨ (io.wrote < bytes.length ∧ r.1.disk
            = w.written (bytes.take io.wrote) f.index f.timeindex))) ∨
      (r.2 = .ok () ∧ r.1.slot.activeBase = w.slot.activeBase ∧
        r.1.slot.nextOffset = w.slot.nextOffset ∧
        r.1.slot.activeBytes = w.slot.activeBytes + bytes.length ∧
        ∃ timeindex, ((r.1.hints = w.hints ∧ r.1.disk = w.written bytes f.index timeindex) ∨
            (r.1.hints = Function.update w.hints w.slot.activeBase
                (w.hints w.slot.activeBase ++ [(base, w.slot.activeBytes)]) ∧
              r.1.disk = w.written bytes (f.index ++ (encodeEntry
                (base - w.slot.activeBase) w.slot.activeBytes).take
                  io.indexWrote) timeindex)))) := by
  intro r f
  by_cases hopen : io.opened = true
  swap
  · have hr : r = ({ w with slot := { w.slot with activeSinceMs :=
        if w.slot.activeSinceMs = 0 then io.now
        else w.slot.activeSinceMs } }, .error io.error) := by
      simp [r, place, hopen]
    rw [hr]
    exact ⟨⟨rfl, rfl, rfl, rfl⟩, .inl ⟨rfl, ⟨rfl, rfl, rfl⟩, rfl, .inl rfl⟩⟩
  by_cases hw : io.wrote < bytes.length
  · have hr : r.2 = .error io.error ∧ SameExtent w.slot r.1.slot ∧
        r.1.hints = w.hints ∧ SameTenure w.slot r.1.slot ∧
        r.1.disk = w.written (bytes.take io.wrote) f.index f.timeindex := by
      simp only [r, place, hopen, not_true, if_false, hw, if_true, create_file, f, Writer.written]
      exact ⟨trivial, ⟨rfl, rfl, rfl⟩, trivial, ⟨rfl, rfl, rfl, rfl⟩, trivial⟩
    exact ⟨hr.2.2.2.1, .inl ⟨hr.1, hr.2.1, hr.2.2.1, .inr ⟨hw, hr.2.2.2.2⟩⟩⟩
  · have hfull : bytes.take io.wrote = bytes := List.take_of_length_le (not_lt.1 hw)
    simp only [r, place, hopen, not_true, if_false, hw, create_file, hfull]
    refine ⟨⟨rfl, rfl, rfl, rfl⟩, .inr ⟨trivial, trivial, trivial, trivial, ?_⟩⟩
    cases hdue : indexable (w.hints w.slot.activeBase) w.slot.activeBytes with
    | false => exact ⟨_, .inl ⟨by simp, by simp [Writer.written, f]; rfl⟩⟩
    | true => exact ⟨_, .inr ⟨by simp, by simp [Writer.written, f]; rfl⟩⟩

-- ==== append

/-- The epoch an append stamps is the committed one it was given. -/
theorem epochForAppend_ok {s : Slot} {seed epoch : ℤ}
    (h : (s.epochForAppend seed).2 = .ok epoch) : epoch = seed := by
  unfold Slot.epochForAppend at h
  by_cases hnew : s.leaderEpoch < 0 ∨ seed > s.leaderEpoch
  · simp only [if_pos hnew, gt_iff_lt, lt_irrefl, if_false] at h
    exact (Except.ok.inj h).symm
  simp only [if_neg hnew] at h
  split_ifs at h with hlo
  have := Except.ok.inj h
  omega

theorem enterAppend_frame (w : Writer) (a : AppendArgs) :
    SameTenure w.slot (w.enterAppend a).1.slot ∧ SameExtent w.slot (w.enterAppend a).1.slot ∧
      (w.enterAppend a).1.hints = w.hints ∧
      (w.enterAppend a).1.disk = w.disk := by
  unfold Writer.enterAppend Slot.epochForAppend
  dsimp only
  split_ifs <;> exact ⟨⟨rfl, rfl, rfl, rfl⟩, ⟨rfl, rfl, rfl⟩, rfl, rfl⟩

/-- The writer the batch is placed with: rolled first if that is due. -/
def Writer.readied (defaultBytes : ℕ) (w : Writer) (data : List UInt8) (base now : ℤ) : Writer :=
  if rollDue defaultBytes w.slot data.length now then w.roll base now else w

/-- The bytes an append stores. -/
def AppendArgs.stored (a : AppendArgs) (base : ℤ) : List UInt8 :=
  RecordBatch.stamp a.batch.bytes base a.seed

/-- The append closes the active segment: it gets as far as the roll, the
roll is due, and the closing sync succeeds. -/
def Rolls (crc : List UInt8 → ℕ) (defaultBytes : ℕ) (w : Writer)
    (a : AppendArgs) (io : WriteIo) : Prop :=
  (w.enterAppend a).2 = .ok a.seed ∧ IsBatch crc a.batch.bytes ∧
    rollDue defaultBytes (w.enterAppend a).1.slot
      (a.stored w.slot.nextOffset).length io.now ∧ io.synced = true

/-- A whole append: refused with nothing written, or placed by the
readied writer, and then the log end moves exactly on success. -/
theorem append_cases (crc : List UInt8 → ℕ) (defaultBytes : ℕ)
    (w : Writer) (a : AppendArgs) (io : WriteIo) :
    let w₁ := (w.enterAppend a).1
    let base := w.slot.nextOffset
    let w₂ := w₁.readied defaultBytes (a.stored base) base io.now
    let p := place w₂ (a.stored base) base io
    let r := append crc defaultBytes w a io
    (r.1 = w₁ ∧ (∃ e, r.2 = .error e) ∧ ¬ Rolls crc defaultBytes w a io) ∨
    ((Rolls crc defaultBytes w a io ↔ rollDue defaultBytes w₁.slot (a.stored base).length io.now) ∧
      IsBatch crc a.batch.bytes ∧
      ((p.2 = .error io.error ∧ r = (p.1, .error io.error)) ∨ (p.2 = .ok () ∧ r =
          (p.1.advance (base + a.batch.lastOffsetDelta + 1), .ok base)))) := by
  intro w₁ base w₂ p r
  have hbase : w₁.slot.nextOffset = base := (enterAppend_frame w a).2.1.nextOffset
  cases hepoch : (w.enterAppend a).2 with
  | error e =>
    have hr : r = (w₁, .error e) := by
      simp only [r, append, hepoch]
      rfl
    refine .inl ⟨by rw [hr], ⟨e, by rw [hr]⟩, fun h => ?_⟩
    rw [Rolls, hepoch] at h
    cases h.1
  | ok epoch =>
    obtain rfl : epoch = a.seed := epochForAppend_ok hepoch
    cases hvalid : RecordBatch.validated crc a.batch.bytes with
    | error e =>
      have hr : r = (w₁, .error .corruptBatch) := by
        simp only [r, append, hepoch, writeBatch, hvalid]
        rfl
      refine .inl ⟨by rw [hr], ⟨_, by rw [hr]⟩, fun h => ?_⟩
      have := h.2.1
      simp [IsBatch, hvalid] at this
    | ok valid =>
      obtain ⟨rfl, hbatch⟩ := isBatch_of_validated hvalid
      by_cases hrefused : rollDue defaultBytes w₁.slot
          (a.stored base).length io.now ∧ io.synced = false
      · -- The closing sync failed: nothing has changed yet.
        have hr : r = (w₁, .error io.error) := by
          simp only [r, append, hepoch, writeBatch, hvalid, writeRaw]
          rw [if_pos, if_pos]
          · rfl
          · simp [hrefused.2]
          · exact hrefused.1
        refine .inl ⟨by rw [hr], ⟨_, by rw [hr]⟩, fun h => ?_⟩
        rw [Rolls, hrefused.2] at h
        cases h.2.2.2
      · have hsync : rollDue defaultBytes w₁.slot (a.stored base).length io.now →
            io.synced = true := fun hdue => by
          cases hs : io.synced with
          | true => rfl
          | false => exact absurd ⟨hdue, hs⟩ hrefused
        have hraw : writeRaw defaultBytes w₁ (a.stored base) base io = p := by
          simp only [writeRaw, p, w₂, Writer.readied]
          by_cases hdue : rollDue defaultBytes w₁.slot (a.stored base).length io.now
          · simp [hdue, hsync hdue]
          · simp [hdue]
        refine .inr ⟨?_, hbatch, ?_⟩
        · rw [Rolls]
          exact ⟨fun h => h.2.2.1, fun hdue => ⟨hepoch, hbatch, hdue, hsync hdue⟩⟩
        · have hr : r = ((writeBatch crc defaultBytes w₁ a.batch a.seed
              base io).1, (writeBatch crc defaultBytes w₁ a.batch a.seed
              base io).2.map fun _ => base) := by
            simp only [r, append, hepoch, ← hbase]
            rfl
          have hstored : RecordBatch.stamp a.batch.bytes base a.seed = a.stored base := rfl
          rw [writeBatch, hvalid] at hr
          simp only [hstored, hraw] at hr
          rw [hr]
          rcases (place_cases w₂ (a.stored base) base io).2 with hp | hp
          · exact .inl ⟨hp.1, by rw [show p.2 = _ from hp.1]; rfl⟩
          · exact .inr ⟨hp.1, by rw [show p.2 = _ from hp.1]; rfl⟩

end Kafgres.Segment
