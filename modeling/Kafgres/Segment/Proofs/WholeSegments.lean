/-
When a failed append leaves whole segments.

A write that fails part way leaves its bytes past `activeBytes`, and the
next append overwrites them only as far as it reaches. If the segment is
rolled first, the sealed file keeps the rest, and its readers go by the
file's size.
-/
import Kafgres.Codec.Crc32c
import Kafgres.Lib.Run
import Kafgres.Segment.Proofs.Write

namespace Kafgres.Segment

open Codec Bytes List

/-- A batch whose append returned its offset. -/
structure Landed where
  segment : ℤ
  offset : ℤ
  bytes : List UInt8

/-- A partition's log and the appends it has accepted. -/
structure LogState where
  writer : Writer
  landed : List Landed

namespace LogState

/-- A partition nothing was appended to. -/
def fresh : LogState := ⟨⟨{}, fun _ => [], {}⟩, []⟩

/-- One append. -/
def step (crc : List UInt8 → ℕ) (defaultBytes : ℕ) (s : LogState)
    (op : AppendArgs × WriteIo) : LogState :=
  let r := append crc defaultBytes s.writer op.1 op.2
  match r.2 with
  | .error _ => ⟨r.1, s.landed⟩
  | .ok base => ⟨r.1, s.landed ++ [⟨r.1.slot.activeBase, base, op.1.stored base⟩]⟩

/-- The accepted batches of one segment, one after the other. -/
def bytesOf (s : LogState) (segment : ℤ) : List UInt8 :=
  ((s.landed.filter fun e => decide (e.segment = segment)).map Landed.bytes).flatten

/-- The bytes in one segment's `.log`. -/
def log (s : LogState) (segment : ℤ) : List UInt8 := (s.writer.disk.file segment).log

end LogState

/-- Every rolled segment's file is the batches accepted into it. -/
def SealedWhole (s : LogState) : Prop := ∀ b ∈ s.writer.disk.names, b ≠ s.writer.slot.activeBase →
    s.log b = s.bytesOf b

/-- Segments hold the accepted batches in offset order and nothing
else: the active one up to `activeBytes`, a sealed one entirely. -/
structure WholeSegments (s : LogState) : Prop where
  active : (s.log s.writer.slot.activeBase).take s.writer.slot.activeBytes
    = s.bytesOf s.writer.slot.activeBase
  sealed : SealedWhole s
  ordered : s.landed.Pairwise fun e e' => e.offset < e'.offset

/-- The append does not close a segment whose file is longer than the
batches accepted into it. -/
def ClosesWhole (crc : List UInt8 → ℕ) (defaultBytes : ℕ) (s : LogState)
    (op : AppendArgs × WriteIo) : Prop :=
  Rolls crc defaultBytes s.writer op.1 op.2 →
    (s.log s.writer.slot.activeBase).length ≤ s.writer.slot.activeBytes

/-- What every append keeps, failing or not. -/
structure Bookkeeping (s : LogState) : Prop where
  active : (s.log s.writer.slot.activeBase).take s.writer.slot.activeBytes
    = s.bytesOf s.writer.slot.activeBase
  length : (s.bytesOf s.writer.slot.activeBase).length
    = s.writer.slot.activeBytes
  ordered : s.landed.Pairwise fun e e' => e.offset < e'.offset
  offset_lt : ∀ e ∈ s.landed, e.offset < s.writer.slot.nextOffset
  segment_le : ∀ e ∈ s.landed, e.segment ≤ s.writer.slot.activeBase
  name_le : ∀ b ∈ s.writer.disk.names, b ≤ s.writer.slot.activeBase
  absent : ∀ b, b ∉ s.writer.disk.names → s.writer.disk.file b = {}
  base_le : s.writer.slot.activeBase ≤ s.writer.slot.nextOffset
  begun : 0 < s.writer.slot.activeBytes →
    s.writer.slot.activeBase < s.writer.slot.nextOffset ∧
      s.writer.slot.activeBase ∈ s.writer.disk.names

variable {crc : List UInt8 → ℕ} {defaultBytes : ℕ} {s : LogState} {w : Writer}

theorem bookkeeping_fresh : Bookkeeping LogState.fresh where
  active := rfl
  length := rfl
  ordered := .nil
  offset_lt := by simp [LogState.fresh]
  segment_le := by simp [LogState.fresh]
  name_le := by simp [LogState.fresh]
  absent _ _ := rfl
  base_le := le_rfl
  begun h := absurd h (by simp [LogState.fresh])

/-- The active file reaches its extent. -/
theorem Bookkeeping.fits (h : Bookkeeping s) :
    s.writer.slot.activeBytes ≤ (s.log s.writer.slot.activeBase).length := by
  have hlen := h.length
  rw [← h.active, length_take] at hlen
  omega

/-- `Bookkeeping` reads of the writer only its extent and its files. -/
theorem Bookkeeping.congr (h : Bookkeeping s)
    (he : SameExtent s.writer.slot w.slot) (hd : w.disk = s.writer.disk) :
    Bookkeeping ⟨w, s.landed⟩ := by
  obtain ⟨hbase, hbytes, hnext⟩ := he
  constructor
  · simpa only [LogState.log, LogState.bytesOf, hbase, hbytes, hd] using h.active
  · simpa only [LogState.bytesOf, hbase, hbytes] using h.length
  · exact h.ordered
  · simpa only [hnext] using h.offset_lt
  · simpa only [hbase] using h.segment_le
  · simpa only [hbase, hd] using h.name_le
  · simpa only [hd] using h.absent
  · simpa only [hbase, hnext] using h.base_le
  · simpa only [hbase, hbytes, hnext, hd] using h.begun

theorem sealedWhole_congr (he : SameExtent s.writer.slot w.slot) (hd : w.disk = s.writer.disk) :
    SealedWhole ⟨w, s.landed⟩ ↔ SealedWhole s := by
  simp only [SealedWhole, LogState.log, LogState.bytesOf, he.activeBase, hd]

-- ==== rolling

/-- Nothing was accepted into a segment that does not exist yet. -/
theorem bytesOf_new (h : Bookkeeping s) {b : ℤ}
    (hb : s.writer.slot.activeBase < b) : s.bytesOf b = [] := by
  have hnone : (s.landed.filter fun e => decide (e.segment = b)) = [] := by
    refine filter_eq_nil_iff.2 fun e he => ?_
    have := h.segment_le e he
    simp only [decide_eq_true_eq]
    omega
  rw [LogState.bytesOf, hnone]
  rfl

theorem bookkeeping_roll (h : Bookkeeping s) (now : ℤ) (hpos : 0 < s.writer.slot.activeBytes) :
    Bookkeeping ⟨s.writer.roll s.writer.slot.nextOffset now, s.landed⟩ := by
  obtain ⟨hlt, -⟩ := h.begun hpos
  have hnew : LogState.bytesOf ⟨s.writer.roll s.writer.slot.nextOffset now, s.landed⟩
      s.writer.slot.nextOffset = [] := bytesOf_new h hlt
  refine ⟨hnew.symm, congrArg length hnew, h.ordered, h.offset_lt, ?_, ?_,
    h.absent, le_rfl, fun hz => absurd hz (lt_irrefl 0)⟩
  · exact fun e he => (h.segment_le e he).trans hlt.le
  · exact fun b hb => (h.name_le b hb).trans hlt.le

/-- The roll seals the active file as it is: whole exactly when it ends
at its extent. -/
theorem sealed_roll_iff (h : Bookkeeping s) (now : ℤ)
    (hpos : 0 < s.writer.slot.activeBytes) (hsealed : SealedWhole s) :
    SealedWhole ⟨s.writer.roll s.writer.slot.nextOffset now, s.landed⟩ ↔
      (s.log s.writer.slot.activeBase).length ≤ s.writer.slot.activeBytes := by
  obtain ⟨hlt, hmem⟩ := h.begun hpos
  constructor
  · intro hall
    have hb : s.log s.writer.slot.activeBase
        = s.bytesOf s.writer.slot.activeBase := hall _ hmem hlt.ne
    rw [hb, h.length]
  · intro hshort b hb _
    rcases eq_or_ne b s.writer.slot.activeBase with rfl | hbase
    · show s.log _ = s.bytesOf _
      rw [← h.active, take_of_length_le hshort]
    · exact hsealed b hb hbase

-- ==== writing

variable {timeindex : List UInt8} {index : List UInt8}

variable {data : List UInt8}

theorem written_names {b : ℤ} :
    b ∈ (w.written data index timeindex).names ↔ b ∈ w.disk.names ∨ b = w.slot.activeBase := by
  rw [Writer.written, setFile_names, mem_create_names]

theorem written_file {b : ℤ} (hb : b ≠ w.slot.activeBase) :
    (w.written data index timeindex).file b = w.disk.file b := by
  rw [Writer.written, setFile_file, if_neg hb, create_file]

theorem written_log :
    ((w.written data index timeindex).file w.slot.activeBase).log
      = writeAt (w.disk.file w.slot.activeBase).log w.slot.activeBytes data := by
  rw [Writer.written, setFile_file, if_pos rfl]

/-- Names and absent files after a write into the active segment. -/
theorem Bookkeeping.names_written (h : Bookkeeping s) (data index timeindex : List UInt8) :
    (∀ b ∈ (s.writer.written data index timeindex).names, b ≤ s.writer.slot.activeBase) ∧
      ∀ b, b ∉ (s.writer.written data index timeindex).names →
        (s.writer.written data index timeindex).file b = {} := by
  refine ⟨fun b hb => ?_, fun b hb => ?_⟩
  · rcases written_names.1 hb with hb | rfl
    · exact h.name_le b hb
    · exact le_rfl
  · rw [written_file fun he => hb (written_names.2 (.inr he))]
    exact h.absent b fun hm => hb (written_names.2 (.inl hm))

/-- A write into the active segment changes no other file. -/
theorem sealed_written (hd : w.disk = s.writer.written data index timeindex)
    (hbase : w.slot.activeBase = s.writer.slot.activeBase)
    {landed : List Landed} (hl : ∀ b, b ≠ s.writer.slot.activeBase →
      LogState.bytesOf ⟨w, landed⟩ b = s.bytesOf b) : SealedWhole ⟨w, landed⟩ ↔ SealedWhole s := by
  have hlog : ∀ b, b ≠ s.writer.slot.activeBase → LogState.log ⟨w, landed⟩ b = s.log b := by
    intro b hb
    rw [LogState.log, hd, written_file hb, LogState.log]
  have hname : ∀ b, b ≠ s.writer.slot.activeBase →
      (b ∈ w.disk.names ↔ b ∈ s.writer.disk.names) := by
    intro b hb
    rw [hd, written_names]
    exact or_iff_left hb
  unfold SealedWhole
  simp only [hbase]
  constructor
  · intro h b hb hne
    rw [← hlog b hne, ← hl b hne]
    exact h b ((hname b hne).2 hb) hne
  · intro h b hb hne
    rw [hlog b hne, hl b hne]
    exact h b ((hname b hne).1 hb) hne

/-- A write that failed part way: the extent still holds. -/
theorem bookkeeping_failed (h : Bookkeeping s) {part : List UInt8}
    (he : SameExtent s.writer.slot w.slot) (hd : w.disk = s.writer.written part index timeindex) :
    Bookkeeping ⟨w, s.landed⟩ := by
  obtain ⟨hbase, hbytes, hnext⟩ := he
  have hlog : LogState.log ⟨w, s.landed⟩ s.writer.slot.activeBase
      = writeAt (s.log s.writer.slot.activeBase) s.writer.slot.activeBytes part := by
    rw [LogState.log, hd, written_log, LogState.log]
  obtain ⟨hname, habsent⟩ := h.names_written part index timeindex
  rw [← hd] at hname habsent
  constructor
  · simp only [hbase, hbytes]
    rw [hlog, writeAt_take part h.fits]
    exact h.active
  · simpa only [LogState.bytesOf, hbase, hbytes] using h.length
  · exact h.ordered
  · simpa only [hnext] using h.offset_lt
  · simpa only [hbase] using h.segment_le
  · simpa only [hbase] using hname
  · exact habsent
  · simpa only [hbase, hnext] using h.base_le
  · simp only [hbase, hbytes, hnext, hd]
    exact fun hpos => ⟨(h.begun hpos).1, written_names.2 (.inr rfl)⟩

/-- Accepting a batch adds its bytes to its own segment only. -/
theorem bytesOf_snoc (landed : List Landed) (e : Landed) (b : ℤ) :
    LogState.bytesOf ⟨w, landed ++ [e]⟩ b
      = LogState.bytesOf ⟨w, landed⟩ b ++ if e.segment = b then e.bytes else [] := by
  simp only [LogState.bytesOf, filter_append, map_append, flatten_append]
  by_cases he : e.segment = b
  · simp [he]
  · simp [he]

/-- A write that went through, with the log end moved past the batch. -/
theorem bookkeeping_accepted (h : Bookkeeping s) {delta : ℤ} (hdelta : 0 ≤ delta)
    (hd : w.disk = s.writer.written data index timeindex)
    (hbase : w.slot.activeBase = s.writer.slot.activeBase)
    (hbytes : w.slot.activeBytes = s.writer.slot.activeBytes + data.length)
    (hnext : w.slot.nextOffset = s.writer.slot.nextOffset + delta + 1) :
    Bookkeeping ⟨w, s.landed ++ [⟨w.slot.activeBase, s.writer.slot.nextOffset, data⟩]⟩ := by
  have hlog : ∀ landed, LogState.log ⟨w, landed⟩ s.writer.slot.activeBase
      = writeAt (s.log s.writer.slot.activeBase) s.writer.slot.activeBytes data := by
    intro landed
    rw [LogState.log, hd, written_log, LogState.log]
  have hsame : LogState.bytesOf ⟨w, s.landed⟩ s.writer.slot.activeBase
      = s.bytesOf s.writer.slot.activeBase := rfl
  obtain ⟨hname, habsent⟩ := h.names_written data index timeindex
  rw [← hd] at hname habsent
  have hle := h.base_le
  constructor
  · simp only [hbase, hbytes]
    rw [hlog, writeAt_take_append data h.fits, h.active, bytesOf_snoc, if_pos rfl, hsame]
  · simp only [hbase, hbytes]
    rw [bytesOf_snoc, if_pos rfl, hsame, length_append, h.length]
  · refine pairwise_append.2 ⟨h.ordered, by simp, ?_⟩
    simp only [forall_mem_singleton]
    exact h.offset_lt
  · simp only [forall_mem_append, forall_mem_singleton, hnext]
    refine ⟨fun e he => ?_, by omega⟩
    have := h.offset_lt e he
    omega
  · simp only [forall_mem_append, forall_mem_singleton, hbase]
    exact ⟨h.segment_le, le_rfl⟩
  · simpa only [hbase] using hname
  · exact habsent
  · simp only [hbase, hnext]
    omega
  · intro _
    simp only [hbase, hnext, hd]
    exact ⟨by omega, written_names.2 (.inr rfl)⟩

-- ==== one append

/-- Getting ready to write: bookkeeping stays, and sealed segments stay
whole unless this rolls a file that is too long. -/
theorem readied_spec (defaultBytes : ℕ) (h : Bookkeeping s) (data : List UInt8) (now : ℤ) :
    let w := s.writer.readied defaultBytes data s.writer.slot.nextOffset now
    Bookkeeping ⟨w, s.landed⟩ ∧ w.slot.nextOffset = s.writer.slot.nextOffset ∧
      (SealedWhole s → (SealedWhole ⟨w, s.landed⟩ ↔
        (rollDue defaultBytes s.writer.slot data.length now →
          (s.log s.writer.slot.activeBase).length ≤ s.writer.slot.activeBytes))) := by
  intro w
  by_cases hdue : rollDue defaultBytes s.writer.slot data.length now
  · have hw : w = s.writer.roll s.writer.slot.nextOffset now := if_pos hdue
    rw [hw]
    refine ⟨bookkeeping_roll h now hdue.1, rfl, fun hs => ?_⟩
    rw [sealed_roll_iff h now hdue.1 hs]
    simp [hdue]
  · have hw : w = s.writer := if_neg hdue
    rw [hw]
    refine ⟨h, rfl, fun hs => ?_⟩
    simp only [hdue, false_imp_iff, iff_true]
    exact hs

/-- Placing a batch: bookkeeping and sealed segments stay, whether the
write fails or not. -/
theorem placed_spec (h : Bookkeeping s) (data : List UInt8) (io : WriteIo)
    {delta : ℤ} (hdelta : 0 ≤ delta) :
    let base := s.writer.slot.nextOffset
    let p := place s.writer data base io
    (p.2 = .error io.error → Bookkeeping ⟨p.1, s.landed⟩ ∧
      (SealedWhole ⟨p.1, s.landed⟩ ↔ SealedWhole s)) ∧
    (p.2 = .ok () →
      let w := p.1.advance (base + delta + 1)
      let landed := s.landed ++ [⟨w.slot.activeBase, base, data⟩]
      Bookkeeping ⟨w, landed⟩ ∧ (SealedWhole ⟨w, landed⟩ ↔ SealedWhole s)) := by
  intro base p
  rcases (place_cases s.writer data base io).2 with
    ⟨hr, he, -, hd⟩ | ⟨hr, hbase, -, hbytes, timeindex, hd⟩
  · refine ⟨fun _ => ?_, fun hok => ?_⟩
    · rcases hd with hd | ⟨-, hd⟩
      · exact ⟨h.congr he hd, sealedWhole_congr he hd⟩
      · exact ⟨bookkeeping_failed h he hd, sealed_written hd he.activeBase fun _ _ => rfl⟩
    · simp [show p.2 = _ from hr] at hok
  · refine ⟨fun herr => ?_, fun _ => ?_⟩
    · simp [show p.2 = _ from hr] at herr
    intro w landed
    obtain ⟨index, hd⟩ : ∃ index, w.disk = s.writer.written data index timeindex := by
      rcases hd with hd | hd <;> exact ⟨_, hd.2⟩
    have hbase' : w.slot.activeBase = s.writer.slot.activeBase := hbase
    refine ⟨bookkeeping_accepted h hdelta hd hbase' hbytes rfl,
      sealed_written hd hbase' fun b hb => ?_⟩
    rw [bytesOf_snoc, if_neg (by rw [hbase']; exact hb.symm), append_nil]
    rfl

/-- One append, failing anywhere: bookkeeping stays, and sealed segments
stay whole exactly when the append closes no overlong file. -/
theorem step_spec (h : Bookkeeping s) (op : AppendArgs × WriteIo) :
    Bookkeeping (s.step crc defaultBytes op) ∧
      (SealedWhole s → (SealedWhole (s.step crc defaultBytes op) ↔
        ClosesWhole crc defaultBytes s op)) := by
  obtain ⟨a, io⟩ := op
  obtain ⟨-, he, -, hd⟩ := enterAppend_frame s.writer a
  have h₁ : Bookkeeping ⟨(s.writer.enterAppend a).1, s.landed⟩ := h.congr he hd
  have hs₁ := sealedWhole_congr he hd
  have hlog : LogState.log ⟨(s.writer.enterAppend a).1, s.landed⟩
      (s.writer.enterAppend a).1.slot.activeBase
      = s.log s.writer.slot.activeBase := by
    rw [LogState.log, hd, he.activeBase, LogState.log]
  rcases append_cases crc defaultBytes s.writer a io with
    ⟨hw, ⟨e, hr⟩, hno⟩ | ⟨hrolls, -, hplaced⟩
  · -- Refused before anything was written.
    have hstep : s.step crc defaultBytes (a, io) = ⟨(s.writer.enterAppend a).1, s.landed⟩ := by
      simp only [LogState.step, hr, hw]
    rw [hstep]
    exact ⟨h₁, fun hs => iff_of_true (hs₁.2 hs) fun hyes => absurd hyes hno⟩
  · obtain ⟨h₂, hnext, hs₂⟩ := readied_spec defaultBytes h₁
      (a.stored s.writer.slot.nextOffset) io.now
    rw [he.nextOffset] at h₂ hnext hs₂
    obtain ⟨hfail, hok⟩ := placed_spec h₂
      (a.stored s.writer.slot.nextOffset) io a.batch.delta_nonneg
    rw [hnext] at hfail hok
    have hcloses : SealedWhole s → (SealedWhole ⟨(s.writer.enterAppend a).1.readied
        defaultBytes (a.stored s.writer.slot.nextOffset)
        s.writer.slot.nextOffset io.now, s.landed⟩ ↔ ClosesWhole crc defaultBytes s (a, io)) := by
      intro hs
      rw [hs₂ (hs₁.2 hs), ClosesWhole, hrolls, hlog, he.activeBytes]
    unfold LogState.step
    rcases hplaced with ⟨hp, hr⟩ | ⟨hp, hr⟩
    · obtain ⟨hb, hiff⟩ := hfail hp
      simp only [hr]
      exact ⟨hb, fun hs => hiff.trans (hcloses hs)⟩
    · obtain ⟨hb, hiff⟩ := hok hp
      simp only [hr]
      exact ⟨hb, fun hs => hiff.trans (hcloses hs)⟩

-- ==== the runs

/-- **Failed appends and whole segments, at the exact boundary.** Over
any run of appends whose writes fail anywhere, every state reached has
whole segments precisely when no append of the run closes a segment
while its file is longer than the batches accepted into it. -/
theorem wholeSegments_iff (crc : List UInt8 → ℕ) (defaultBytes : ℕ)
    (ops : List (AppendArgs × WriteIo)) :
    Run.Always (LogState.step crc defaultBytes) .fresh ops WholeSegments ↔
      Run.EachStep (LogState.step crc defaultBytes) .fresh ops (ClosesWhole crc defaultBytes) := by
  have hwhole : ∀ {s}, Bookkeeping s → (WholeSegments s ↔ SealedWhole s) :=
    fun h => ⟨fun hw => hw.sealed, fun hs => ⟨h.active, hs, h.ordered⟩⟩
  refine Run.prefixes_iff_of_inv (I := Bookkeeping) (fun s op h => (step_spec h op).1)
    (fun s op h hs => ?_) bookkeeping_fresh
    ((hwhole bookkeeping_fresh).2 fun b hb => absurd hb (by
      simp [LogState.fresh]))
  rw [hwhole (step_spec h op).1]
  exact (step_spec h op).2 ((hwhole h).1 hs)

-- ------------------------------------------------- the defect, replayed

/-- One record of three bytes, at leader epoch 0, in a topic that rolls
weekly or at 1 GiB. -/
def oneRecord : AppendArgs where
  seed := 0
  segmentMs := 604800000
  segmentBytes := 1073741824
  batch := ⟨producedBatch 1 [4, 0, 0], 0, Int.natCast_nonneg 0⟩

/-- A call at time `now` whose batch write stops after `wrote` bytes. -/
def ioAt (now : ℤ) (wrote : ℕ) : WriteIo :=
  ⟨now, true, true, wrote, 8, 12, .io "FileWrite"⟩

/-- An append, a second one whose write fails after ten bytes, and a
third a week later. -/
def tornRun : List (AppendArgs × WriteIo) := [(oneRecord, ioAt 1 64), (oneRecord, ioAt 2 10),
   (oneRecord, ioAt 604800001 64)]

/-- The third append closes the first segment with the ten bytes of the
refused one still at its end. -/
theorem tornRun_seals_refused_bytes :
    ¬ Run.Always (LogState.step crc32c 1073741824) .fresh tornRun WholeSegments := by
  intro h
  have hs := (h tornRun (prefix_refl _)).sealed 0
  have hlong : (0 : ℤ) ∈ (tornRun.foldl (LogState.step crc32c 1073741824)
        .fresh).writer.disk.names ∧
      (0 : ℤ) ≠ (tornRun.foldl (LogState.step crc32c 1073741824) .fresh).writer.slot.activeBase ∧
      ((tornRun.foldl (LogState.step crc32c 1073741824) .fresh).log 0).length = 74 ∧
      ((tornRun.foldl (LogState.step crc32c 1073741824) .fresh).bytesOf 0).length = 64 := by
    decide +kernel
  have := congrArg length (hs hlong.1 hlong.2.1)
  omega

end Kafgres.Segment
