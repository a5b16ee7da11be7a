/-
When a truncation leaves a log that recovers to what the slot says.

`truncate_to` cuts a segment before the first batch that *begins* at or
past the offset and sets the log end to the offset. A batch that reaches
past it stays; and where the last batch kept ends below it, or no segment
is left, a restart believes the files. `Aligned` is the exact boundary.
-/
import Kafgres.Segment.Proofs.Scan
import Kafgres.Segment.Proofs.WholeSegments
import Kafgres.Segment.Truncate

namespace Kafgres.Segment

open Codec Bytes List Function Writer

variable {crc : List UInt8 → ℕ} {log : List UInt8}
  {frames : ℤ → List (List UInt8)} {d : Disk} {w : Writer}

-- ==== the condition

/-- A truncation below the log end cuts where the last batch kept ends;
with no segment below the offset, the offset is 0. -/
def Aligned (w : Writer) : LogOp crc → Prop
  | .truncateTo offset => offset < w.slot.nextOffset →
      match ((segmentBases w.disk).filter fun b => b < offset).getLast? with
      | none => offset = 0
      | some b => endOffset b ((framesOf crc (w.disk.file b).log).takeWhile
          fun x => baseOffset x < offset) = offset
  | _ => True

/-- The setting: an append is given an offset that is an `i64`. -/
def OffsetFits (w : Writer) : LogOp crc → Prop
  | .append .. => w.slot.nextOffset < 2 ^ 63
  | _ => True

-- ==== reading whole files

variable {x : List UInt8} {fs : List (List UInt8)}

/-- A scan of whole batches passes all of them. -/
theorem readSegment_whole (hb : ∀ x ∈ fs, IsBatch crc x) (base : ℤ) :
    (readSegment crc base fs.flatten).pos = fs.flatten.length ∧
      (readSegment crc base fs.flatten).nextOffset = endOffset base fs := by
  obtain ⟨hfold, hscan⟩ := readSegment_frames base hb not_begins_nil
  rw [append_nil] at hfold
  rw [hfold]
  exact ⟨hscan.pos, hscan.next⟩

theorem framesLoop_whole (hb : ∀ x ∈ fs, IsBatch crc x)
    (pre : List UInt8) {fuel : ℕ} (hfuel : fs.flatten.length ≤ fuel) :
    framesLoop crc (pre ++ fs.flatten) fuel pre.length = fs := by
  induction fs generalizing pre fuel with
  | nil =>
    cases fuel with
    | zero => rfl
    | succ fuel =>
      have hnone : batchAt crc (pre ++ [].flatten) pre.length = none := by
        unfold batchAt
        rw [if_neg]
        simp [recordBatchOverhead]
      rw [framesLoop, hnone]
  | cons x fs ih =>
    have hx := hb x (.head _)
    have hpos : 0 < x.length := length_pos_iff.2 hx.ne_nil
    rw [flatten_cons, length_append] at hfuel
    obtain ⟨fuel, rfl⟩ : ∃ k, fuel = k + 1 := ⟨fuel - 1, by omega⟩
    have hat : batchAt crc (pre ++ (x :: fs).flatten) pre.length = some x := by
      apply batchAt_of_frame hx
      rw [drop_left, flatten_cons]
      exact prefix_append ..
    rw [framesLoop, hat]
    dsimp only
    have hrest : framesLoop crc (pre ++ x ++ fs.flatten) fuel (pre ++ x).length = fs :=
      ih (fun y hy => hb y (.tail _ hy)) _ (by omega)
    rw [length_append, append_assoc] at hrest
    rw [flatten_cons, hrest]

/-- A file of whole batches reads back as those. -/
theorem framesOf_whole (hb : ∀ x ∈ fs, IsBatch crc x) : framesOf crc fs.flatten = fs :=
  framesLoop_whole hb [] le_rfl

/-- The header fields the loops of a truncation read. -/
theorem header_of_frame (hx : IsBatch crc x) (rest : List UInt8) :
    batchLength (x ++ rest) = batchLength x ∧ baseOffset (x ++ rest) = baseOffset x := by
  have hlen := (isBatch_iff.1 hx).1
  unfold recordBatchOverhead at hlen
  have hpre : x <+: x ++ rest := prefix_append ..
  constructor
  · rw [batchLength, batchLength, readI32, readI32, field_of_begins hpre]
    unfold lengthOffset
    omega
  · rw [baseOffset, baseOffset, readI64, readI64, field_of_begins hpre]
    unfold baseOffsetOffset
    omega

theorem cutLoop_whole (hb : ∀ x ∈ fs, IsBatch crc x) (offset : ℤ)
    (pre : List UInt8) {fuel : ℕ} (hfuel : fs.flatten.length ≤ fuel) :
    cutLoop (pre ++ fs.flatten) offset fuel pre.length = pre.length
      + (fs.takeWhile fun x => baseOffset x < offset).flatten.length := by
  induction fs generalizing pre fuel with
  | nil =>
    cases fuel with
    | zero => simp [cutLoop]
    | succ fuel =>
      rw [cutLoop, if_neg]
      · simp
      · simp [recordBatchOverhead]
  | cons x fs ih =>
    have hx := hb x (.head _)
    obtain ⟨hlen, -, hdecl, -⟩ := isBatch_iff.1 hx
    unfold recordBatchOverhead at hlen
    unfold lengthOffset at hdecl
    rw [flatten_cons, length_append] at hfuel
    obtain ⟨fuel, rfl⟩ : ∃ k, fuel = k + 1 := ⟨fuel - 1, by omega⟩
    have hdrop : (pre ++ (x :: fs).flatten).drop pre.length = x ++ fs.flatten := by
      rw [drop_left, flatten_cons]
    obtain ⟨hlength, hbase⟩ := header_of_frame hx fs.flatten
    rw [cutLoop, if_pos]
    swap
    · rw [length_append, flatten_cons, length_append]
      unfold recordBatchOverhead
      omega
    rw [hdrop, hlength, hbase, if_neg (by omega)]
    by_cases hge : baseOffset x ≥ offset
    · rw [if_pos hge, takeWhile_cons_of_neg]
      · simp
      · simpa using hge
    rw [if_neg hge, takeWhile_cons_of_pos]
    swap
    · simpa using hge
    have hstep : pre.length + (lengthOffset + 4 + (batchLength x).toNat) = (pre ++ x).length := by
      rw [length_append]
      unfold lengthOffset
      omega
    have hrest := @ih (fun y hy => hb y (.tail _ hy)) (pre ++ x) fuel (by omega)
    rw [hstep, flatten_cons, ← append_assoc, hrest, length_append, flatten_cons, length_append]
    omega

/-- A truncation keeps the batches that begin below the offset. -/
theorem cutAt_whole (hb : ∀ x ∈ fs, IsBatch crc x) (offset : ℤ) :
    cutAt fs.flatten offset = (fs.takeWhile fun x => baseOffset x < offset).flatten.length :=
  (cutLoop_whole hb offset [] le_rfl).trans (Nat.zero_add _)

theorem take_cutAt (hb : ∀ x ∈ fs, IsBatch crc x) (offset : ℤ) :
    fs.flatten.take (cutAt fs.flatten offset)
      = (fs.takeWhile fun x => baseOffset x < offset).flatten := by
  have hpre := takeWhile_prefix (l := fs) fun x => decide (baseOffset x < offset)
  rw [cutAt_whole hb]
  exact (prefix_iff_eq_take.1 hpre.flatten).symm

-- ==== layout

/-- The files hold the batches of each segment, in offset order. -/
structure Laid (crc : List UInt8 → ℕ) (frames : ℤ → List (List UInt8))
    (d : Disk) : Prop where
  sorted : d.names.Pairwise (· < ·)
  nonneg : ∀ b ∈ d.names, 0 ≤ b
  absent : ∀ b, b ∉ d.names → frames b = []
  whole : ∀ b, (d.file b).log = (frames b).flatten
  batches : ∀ b, ∀ x ∈ frames b, IsBatch crc x ∧ b ≤ baseOffset x
  ordered : ∀ b, (frames b).Pairwise fun x y => endOf x ≤ baseOffset y
  apart : ∀ b, ∀ c ∈ d.names, b < c → ∀ x ∈ frames b, endOf x ≤ c

/-- The slot stands at the end of the last segment, which is not
empty. -/
def Positioned (frames : ℤ → List (List UInt8)) (w : Writer) : Prop :=
  match w.disk.names.getLast? with
  | none => w.slot.nextOffset = 0 ∧ w.slot.activeBase = 0 ∧ w.slot.activeBytes = 0
  | some b => frames b ≠ [] ∧ w.slot.nextOffset = endOffset b (frames b) ∧ w.slot.activeBase = b ∧
      w.slot.activeBytes = (frames b).flatten.length

theorem Laid.bases (h : Laid crc frames d) : segmentBases d = d.names :=
  List.Pairwise.insertionSort_eq (h.sorted.imp le_of_lt)

theorem Laid.frame (h : Laid crc frames d) (b : ℤ) : ∀ x ∈ frames b, IsBatch crc x :=
  fun x hx => (h.batches b x hx).1

theorem Laid.mem (h : Laid crc frames d) {b : ℤ} (hx : x ∈ frames b) : b ∈ d.names := by
  by_contra hb
  simp [h.absent b hb] at hx

/-- What a scan of such files finds. -/
theorem Laid.recovers_iff (h : Laid crc frames w.disk) :
    w.Recovers crc ↔ match w.disk.names.getLast? with
      | none => 0 = w.slot.nextOffset ∧ 0 = w.slot.activeBase ∧ 0 = w.slot.activeBytes
      | some b => endOffset b (frames b) = w.slot.nextOffset ∧ b = w.slot.activeBase ∧
          (frames b).flatten.length = w.slot.activeBytes := by
  unfold Recovers recover
  rw [h.bases]
  cases w.disk.names.getLast? with
  | none => exact Iff.rfl
  | some b =>
    dsimp only
    obtain ⟨hpos, hnext⟩ := readSegment_whole (h.frame b) b
    rw [h.whole b, hpos, hnext]

/-- So a slot in position is the recovered one, over a last segment with
batches. -/
theorem Laid.positioned_iff (h : Laid crc frames w.disk) :
    Positioned frames w ↔ w.Recovers crc ∧
    ∀ b, w.disk.names.getLast? = some b → frames b ≠ [] := by
  rw [h.recovers_iff]
  unfold Positioned
  cases w.disk.names.getLast? with
  | none => simp [eq_comm]
  | some b => simp [eq_comm, and_comm]

theorem Positioned.at_last (hp : Positioned frames w) {b : ℤ}
    (hlast : w.disk.names.getLast? = some b) :
    frames b ≠ [] ∧ w.slot.nextOffset = endOffset b (frames b) ∧ w.slot.activeBase = b ∧
      w.slot.activeBytes = (frames b).flatten.length := by
  unfold Positioned at hp
  rwa [hlast] at hp

theorem endOf_eq (x : List UInt8) (fs : List (List UInt8)) (b : ℤ) :
    endOffset b (fs ++ [x]) = endOf x := by
  simp [endOffset, endOf]

theorem lt_endOf (hx : IsBatch crc x) : baseOffset x < endOf x := by
  have := (isBatch_iff.1 hx).2.2.2.1
  unfold endOf
  omega

/-- Batches in order end at or before the end of the last. -/
theorem endOf_le_endOffset (hb : ∀ x ∈ fs, IsBatch crc x)
    (ho : fs.Pairwise fun x y => endOf x ≤ baseOffset y) (b : ℤ)
    (hx : x ∈ fs) : endOf x ≤ endOffset b fs := by
  rcases eq_nil_or_concat' fs with rfl | ⟨init, l, rfl⟩
  · cases hx
  rw [endOf_eq]
  rcases mem_append.1 hx with hx | hx
  · have hle := (pairwise_append.1 ho).2.2 x hx l (mem_singleton.2 rfl)
    exact hle.trans (lt_endOf (hb l (by simp))).le
  · rw [mem_singleton.1 hx]

/-- The end of a segment with batches is past its base. -/
theorem Laid.lt_end (h : Laid crc frames d) {b : ℤ}
    (hne : frames b ≠ []) : b < endOffset b (frames b) := by
  obtain ⟨x, hx⟩ := exists_mem_of_ne_nil _ hne
  obtain ⟨hbatch, hle⟩ := h.batches b x hx
  have hend := endOf_le_endOffset (h.frame b) (h.ordered b) b hx
  exact hle.trans_lt ((lt_endOf hbatch).trans_le hend)

/-- Everything in the log lies below the slot's log end. -/
theorem Laid.end_le (h : Laid crc frames w.disk)
    (hp : Positioned frames w) {b : ℤ} (hx : x ∈ frames b) : endOf x ≤ w.slot.nextOffset := by
  have hb := h.mem hx
  obtain ⟨last, hlast⟩ := exists_getLast_of_mem hb
  obtain ⟨hne, hnext, -, -⟩ := hp.at_last hlast
  rw [hnext]
  rcases (le_getLast h.sorted hlast hb).eq_or_lt with rfl | hlt
  · exact endOf_le_endOffset (h.frame b) (h.ordered b) b hx
  · have := h.apart b last (mem_of_getLast? hlast) hlt x hx
    exact this.trans (h.lt_end hne).le

theorem Positioned.next_nonneg (h : Laid crc frames w.disk)
    (hp : Positioned frames w) : 0 ≤ w.slot.nextOffset := by
  cases hlast : w.disk.names.getLast? with
  | none =>
    rw [Positioned, hlast] at hp
    exact hp.1.ge
  | some last =>
    obtain ⟨hne, hnext, -, -⟩ := hp.at_last hlast
    have := h.nonneg last (mem_of_getLast? hlast)
    have := h.lt_end hne
    omega

/-- Only the extent of the slot and the files matter. -/
theorem Positioned.congr (hp : Positioned frames w) {w' : Writer}
    (hd : w'.disk.names = w.disk.names)
    (he : SameExtent w.slot w'.slot) : Positioned frames w' := by
  unfold Positioned at hp ⊢
  rw [hd, he.nextOffset, he.activeBase, he.activeBytes]
  exact hp

-- ==== append

/-- Where the batch goes, once the segment is rolled if that is due. -/
structure Ready (frames : ℤ → List (List UInt8)) (w v : Writer) :
    Prop where
  disk : v.disk = w.disk
  next : v.slot.nextOffset = w.slot.nextOffset
  bytes : v.slot.activeBytes = (frames v.slot.activeBase).flatten.length
  name_le : ∀ b ∈ w.disk.names, b ≤ v.slot.activeBase
  nonneg : 0 ≤ v.slot.activeBase
  base_le : v.slot.activeBase ≤ w.slot.nextOffset
  own : ∀ x ∈ frames v.slot.activeBase, endOf x ≤ w.slot.nextOffset
  others : ∀ b, b < v.slot.activeBase → ∀ x ∈ frames b,
    endOf x ≤ v.slot.activeBase

theorem ready_readied (h : Laid crc frames w.disk)
    (hp : Positioned frames w) (defaultBytes : ℕ) (data : List UInt8)
    (now : ℤ) : Ready frames w (w.readied defaultBytes data w.slot.nextOffset now) := by
  have hends : ∀ b, ∀ x ∈ frames b, endOf x ≤ w.slot.nextOffset := fun b x hx => h.end_le hp hx
  unfold readied
  cases hlast : w.disk.names.getLast? with
  | none =>
    rw [Positioned, hlast] at hp
    obtain ⟨hnext, hbase, hbytes⟩ := hp
    rw [getLast?_eq_none_iff] at hlast
    have hempty : ∀ b, frames b = [] := fun b => h.absent b (by rw [hlast]; exact not_mem_nil)
    have hno : ¬ rollDue defaultBytes w.slot data.length now := by
      unfold rollDue
      omega
    rw [if_neg hno]
    refine ⟨rfl, rfl, ?_, ?_, hbase.ge, ?_, hends _, ?_⟩
    · rw [hempty, hbytes]
      rfl
    · rw [hlast]
      exact fun b hb => (not_mem_nil hb).elim
    · rw [hbase, hnext]
    · intro b _ x hx
      simp [hempty] at hx
  | some last =>
    obtain ⟨hne, hnext, hbase, hbytes⟩ := hp.at_last hlast
    have hmem := mem_of_getLast? hlast
    have hlt := h.lt_end hne
    split
    · -- a new segment, named by the offset it begins at
      have hfresh : frames w.slot.nextOffset = [] := by
        apply h.absent
        intro hin
        have := le_getLast h.sorted hlast hin
        omega
      refine ⟨rfl, rfl, ?_, ?_, hp.next_nonneg h, le_rfl, hends _, fun b _ => hends b⟩
      · show 0 = (frames w.slot.nextOffset).flatten.length
        rw [hfresh]
        rfl
      · intro b hb
        have := le_getLast h.sorted hlast hb
        show b ≤ w.slot.nextOffset
        omega
    · refine ⟨rfl, rfl, by rw [hbytes, hbase], ?_, ?_, by omega, hends _, ?_⟩
      · rw [hbase]
        exact fun b hb => le_getLast h.sorted hlast hb
      · rw [hbase]
        exact h.nonneg last hmem
      · rw [hbase]
        exact fun b hb => h.apart b last hmem hb

/-- The files with a batch more. -/
theorem Ready.laid (h : Laid crc frames w.disk) {v : Writer}
    (hr : Ready frames w v) (hx : IsBatch crc x) (hbase : baseOffset x = w.slot.nextOffset)
    (index timeindex : List UInt8) :
    Laid crc (update frames v.slot.activeBase
      (frames v.slot.activeBase ++ [x])) (v.written x index timeindex) := by
  have hnames : ∀ b, b ∈ (v.written x index timeindex).names ↔
      b ∈ w.disk.names ∨ b = v.slot.activeBase := by
    intro b
    rw [written_names, hr.disk]
  constructor
  · show ((v.disk.create v.slot.activeBase).names).Pairwise (· < ·)
    rw [hr.disk]
    exact (create_last h.sorted hr.name_le).1
  · intro b hb
    rcases (hnames b).1 hb with hb | rfl
    · exact h.nonneg b hb
    · exact hr.nonneg
  · intro b hb
    rw [hnames, not_or] at hb
    rw [update_of_ne hb.2]
    exact h.absent b hb.1
  · intro b
    rcases eq_or_ne b v.slot.activeBase with rfl | hb
    · rw [written_log, update_self, hr.disk, h.whole, hr.bytes,
        writeAt_end, flatten_append, flatten_singleton]
    · rw [written_file hb, update_of_ne hb, hr.disk, h.whole]
  · intro b
    rcases eq_or_ne b v.slot.activeBase with rfl | hb
    · rw [update_self]
      refine forall_mem_append.2 ⟨h.batches _, forall_mem_singleton.2 ?_⟩
      rw [hbase]
      exact ⟨hx, hr.base_le⟩
    · simpa [hb] using h.batches b
  · intro b
    rcases eq_or_ne b v.slot.activeBase with rfl | hb
    · simpa [pairwise_append, hbase, h.ordered] using hr.own
    · simpa [hb] using h.ordered b
  · intro b c hc hlt y hy
    have hcle : c ≤ v.slot.activeBase := by
      rcases (hnames c).1 hc with hc | rfl
      · exact hr.name_le c hc
      · exact le_rfl
    have hb : b ≠ v.slot.activeBase := by omega
    rw [update_of_ne hb] at hy
    rcases (hnames c).1 hc with hc | rfl
    · exact h.apart b c hc hlt y hy
    · exact hr.others b hlt y hy

/-- The write goes through. -/
theorem place_ok (w : Writer) (data : List UInt8) (base now : ℤ) {n : ℕ}
    (hn : data.length ≤ n) : (place w data base (noFault now n)).2 = .ok () := by
  unfold place noFault
  simp [not_lt.2 hn]

/-- A batch placed at the log end. -/
theorem positioned_placed (defaultBytes : ℕ) (h : Laid crc frames w.disk) (hp : Positioned frames w)
    (hx : IsBatch crc x) (hbase : baseOffset x = w.slot.nextOffset)
    (now : ℤ) {n : ℕ} (hn : x.length ≤ n) :
    ∃ frames', Laid crc frames' (place (w.readied defaultBytes x
        w.slot.nextOffset now) x w.slot.nextOffset (noFault now n)).1.disk ∧
      Positioned frames' ((place (w.readied defaultBytes x
        w.slot.nextOffset now) x w.slot.nextOffset (noFault now n)).1.advance (endOf x)) := by
  have hr := ready_readied h hp defaultBytes x now
  generalize w.readied defaultBytes x w.slot.nextOffset now = v at hr ⊢
  have hok := place_ok v x w.slot.nextOffset now hn
  have hcases := (place_cases v x w.slot.nextOffset (noFault now n)).2
  generalize place v x w.slot.nextOffset (noFault now n) = p at hok hcases ⊢
  rcases hcases with
    ⟨herr, -⟩ | ⟨-, hb, -, hbytes, timeindex, hdisk⟩
  · exact nomatch hok.symm.trans herr
  obtain ⟨index, hd⟩ : ∃ index, p.1.disk = v.written x index timeindex := by
    rcases hdisk with ⟨-, hd⟩ | ⟨-, hd⟩ <;> exact ⟨_, hd⟩
  have hlaid := hr.laid h hx hbase index timeindex
  refine ⟨_, hd ▸ hlaid, ?_⟩
  have hlast : (v.written x index timeindex).names.getLast? = some v.slot.activeBase :=
    (create_last (hr.disk ▸ h.sorted) (hr.disk ▸ hr.name_le)).2
  show match p.1.disk.names.getLast? with
    | none => _
    | some b => _
  rw [hd, hlast]
  dsimp only
  rw [update_self]
  refine ⟨by simp, ?_, hb, ?_⟩
  · rw [endOf_eq]
    rfl
  · show p.1.slot.activeBytes = _
    rw [hbytes, hr.bytes, flatten_append, length_append, flatten_singleton]

-- ==== the state

/-- The slot and the files agree. -/
def Agrees (crc : List UInt8 → ℕ) (w : Writer) : Prop :=
  ∃ frames, Laid crc frames w.disk ∧ Positioned frames w

theorem Agrees.recovers (h : Agrees crc w) : w.Recovers crc := by
  obtain ⟨frames, hl, hp⟩ := h
  exact (hl.positioned_iff.1 hp).1

theorem Agrees.congr (h : Agrees crc w) {w' : Writer}
    (hd : w'.disk = w.disk) (he : SameExtent w.slot w'.slot) : Agrees crc w' := by
  obtain ⟨frames, hl, hp⟩ := h
  exact ⟨frames, hd ▸ hl, hp.congr (by rw [hd]) he⟩

theorem agrees_fresh : Agrees crc fresh := by
  refine ⟨fun _ => [], ?_, rfl, rfl, rfl⟩
  exact ⟨.nil, nofun, fun _ _ => rfl, fun _ => rfl, nofun, fun _ => .nil, nofun⟩

theorem agrees_append (defaultBytes : ℕ) (h : Agrees crc w)
    (a : AppendArgs) (now : ℤ) (hfit : w.slot.nextOffset < 2 ^ 63)
    (hdelta : a.batch.lastOffsetDelta = lastOffsetDelta a.batch.bytes) :
    Agrees crc (append crc defaultBytes w a (noFault now a.batch.bytes.length)).1 := by
  obtain ⟨-, he, -, hd⟩ := enterAppend_frame w a
  have hcases := append_cases crc defaultBytes w a (noFault now a.batch.bytes.length)
  have h₁ := h.congr hd he
  generalize (w.enterAppend a).1 = w₁ at he hd h₁ hcases
  rcases hcases with ⟨hr, -⟩ | ⟨-, hx, hplaced⟩
  · rw [hr]
    exact h₁
  have hlen : (a.stored w.slot.nextOffset).length = a.batch.bytes.length :=
    stamp_length (isBatch_iff.1 hx).1
  rcases hplaced with ⟨herr, -⟩ | ⟨-, hr⟩
  · exact nomatch (place_ok _ _ _ now hlen.le).symm.trans herr
  obtain ⟨frames, hl, hp⟩ := h₁
  have h0 : 0 ≤ w.slot.nextOffset := by
    rw [← he.nextOffset]
    exact hp.next_nonneg hl
  have hbase : baseOffset (a.stored w.slot.nextOffset)
      = w.slot.nextOffset := baseOffset_stamp h0 hfit
  have hend : endOf (a.stored w.slot.nextOffset)
      = w.slot.nextOffset + a.batch.lastOffsetDelta + 1 := by
    rw [endOf, hbase, hdelta]
    unfold AppendArgs.stored
    rw [lastOffsetDelta_stamp hx]
  obtain ⟨frames', hl', hp'⟩ := positioned_placed defaultBytes hl hp
    (isBatch_stamp hx) (hbase.trans he.nextOffset.symm) now hlen.le
  rw [he.nextOffset, show endOf (RecordBatch.stamp _ _ _) = _ from hend] at hp'
  rw [he.nextOffset] at hl'
  rw [hr]
  exact ⟨frames', hl', hp'⟩

/-- A write that goes through is a placement by the readied writer. -/
theorem writeRaw_noFault (defaultBytes : ℕ) (w : Writer) (x : List UInt8) (base now : ℤ) (n : ℕ) :
    writeRaw defaultBytes w x base (noFault now n)
      = place (w.readied defaultBytes x base now) x base (noFault now n) := by
  unfold writeRaw readied
  by_cases hdue : rollDue defaultBytes w.slot x.length now
  · rw [if_pos hdue, if_pos (show rollDue _ _ _ (noFault now n).now from hdue),
      if_neg (by simp [noFault])]
    rfl
  · rw [if_neg hdue, if_neg (show ¬ rollDue _ _ _ (noFault now n).now from hdue)]

theorem agrees_appendReplicated (defaultBytes : ℕ) (h : Agrees crc w)
    (bytes : List UInt8) (expected now : ℤ) :
    Agrees crc (appendReplicated crc defaultBytes w bytes expected
      (noFault now bytes.length)).1 := by
  unfold appendReplicated
  cases hvalid : RecordBatch.validated crc bytes with
  | error e => exact h
  | ok valid =>
    obtain ⟨rfl, hx⟩ := isBatch_of_validated hvalid
    dsimp only
    split
    · exact h
    split
    · exact h
    next hnext =>
    rw [not_not] at hnext
    obtain ⟨frames, hl, hp⟩ := h
    have hplaced := positioned_placed defaultBytes hl hp hx hnext now le_rfl
    rw [writeRaw_noFault, hnext, place_ok _ _ _ _ le_rfl]
    exact hplaced

/-- An append that succeeds returns the log end it started from. -/
theorem append_base {defaultBytes : ℕ} {a : AppendArgs} {io : WriteIo}
    {base : ℤ} (h : (append crc defaultBytes w a io).2 = .ok base) : base = w.slot.nextOffset := by
  rcases append_cases crc defaultBytes w a io with
    ⟨-, ⟨e, he⟩, -⟩ | ⟨-, -, ⟨-, hr⟩ | ⟨-, hr⟩⟩
  · exact nomatch he.symm.trans h
  · simp [hr] at h
  · rw [hr] at h
    exact (Except.ok.inj h).symm

-- ==== thinning

/-- The rewriting that keeps some batches as they are. -/
def Rewrite.keepIf (crc : List UInt8 → ℕ) (p : List UInt8 → Bool) : Rewrite crc where
  rewrite := Option.guard p
  within x y hx hy := by
    obtain ⟨rfl, -⟩ := Option.guard_eq_some_iff.1 hy
    exact ⟨hx, le_rfl, le_rfl⟩

theorem filterMap_keepIf (p : List UInt8 → Bool) (fs : List (List UInt8)) :
    fs.filterMap (Rewrite.keepIf crc p).rewrite = fs.filter p :=
  congrFun filterMap_eq_filter fs

/-- Files whose segments are gone, or thinned batch by batch. -/
theorem Laid.thinned (h : Laid crc frames d) {d' : Disk}
    (rw : ℤ → Rewrite crc) (hnames : d'.names.Sublist d.names)
    (habsent : ∀ b, b ∉ d'.names → (frames b).filterMap (rw b).rewrite = [])
    (hwhole : ∀ b, (d'.file b).log = ((frames b).filterMap (rw b).rewrite).flatten) :
    Laid crc (fun b => (frames b).filterMap (rw b).rewrite) d' := by
  refine ⟨h.sorted.sublist hnames, ?_, habsent, hwhole, ?_, ?_, ?_⟩
  · exact fun b hb => h.nonneg b (hnames.subset hb)
  · intro b y hy
    obtain ⟨x, hx, hxy⟩ := mem_filterMap.1 hy
    obtain ⟨hbatch, hle⟩ := h.batches b x hx
    obtain ⟨hbatch', hle', -⟩ := (rw b).within x y hbatch hxy
    exact ⟨hbatch', hle.trans hle'⟩
  · intro b
    rw [pairwise_filterMap]
    refine (h.ordered b).imp_of_mem ?_
    intro x x' hx hx' hle y hy y' hy'
    obtain ⟨-, -, hend⟩ := (rw b).within x y (h.frame b x hx) hy
    obtain ⟨-, hbase, -⟩ := (rw b).within x' y' (h.frame b x' hx') hy'
    exact (hend.trans hle).trans hbase
  · intro b c hc hlt y hy
    obtain ⟨x, hx, hxy⟩ := mem_filterMap.1 hy
    obtain ⟨-, -, hend⟩ := (rw b).within x y (h.frame b x hx) hxy
    exact hend.trans (h.apart b c (hnames.subset hc) hlt x hx)

theorem foldl_remove_names (gone : List ℤ) (d : Disk) :
    (gone.foldl Disk.remove d).names = d.names.filter fun b => b ∉ gone := by
  induction gone generalizing d with
  | nil => simp
  | cons g gone ih =>
    rw [foldl_cons, ih]
    show (d.names.filter _).filter _ = _
    rw [filter_filter]
    congr 1
    funext b
    simp [Bool.and_comm]

theorem foldl_remove_file (gone : List ℤ) (d : Disk) (b : ℤ) :
    (gone.foldl Disk.remove d).file b = if b ∈ gone then {} else d.file b := by
  induction gone generalizing d with
  | nil => simp
  | cons g gone ih =>
    rw [foldl_cons, ih]
    by_cases hb : b ∈ gone
    · rw [if_pos hb, if_pos (.tail _ hb)]
    rw [if_neg hb]
    show update d.file g {} b = _
    rw [update_apply]
    simp [hb]

/-- Unlinking and thinning segments other than the last leaves the slot
where it was. -/
theorem Agrees.thinned (h : Agrees crc w) {w' : Writer} (rw : ℤ → Rewrite crc)
    (hnames : w'.disk.names.Sublist w.disk.names) (he : SameExtent w.slot w'.slot)
    (hlast : ∀ b, w.disk.names.getLast? = some b →
      b ∈ w'.disk.names ∧ ∀ x, (rw b).rewrite x = some x)
    (hfile : ∀ frames, Laid crc frames w.disk → ∀ b,
      (b ∉ w'.disk.names → (frames b).filterMap (rw b).rewrite = []) ∧
      (w'.disk.file b).log = ((frames b).filterMap (rw b).rewrite).flatten) : Agrees crc w' := by
  obtain ⟨frames, hl, hp⟩ := h
  have hl' := hl.thinned rw hnames (fun b => (hfile frames hl b).1) fun b => (hfile frames hl b).2
  refine ⟨_, hl', ?_⟩
  unfold Positioned at hp ⊢
  rw [he.nextOffset, he.activeBase, he.activeBytes]
  cases hold : w.disk.names.getLast? with
  | none =>
    rw [hold] at hp
    rw [getLast?_eq_none_iff] at hold
    rw [hold] at hnames
    rw [sublist_nil.1 hnames]
    exact hp
  | some b =>
    rw [hold] at hp
    obtain ⟨hb, hkeep⟩ := hlast b hold
    have hnew : w'.disk.names.getLast? = some b := getLast_of_greatest hl'.sorted hb fun c hc =>
        le_getLast hl.sorted hold (hnames.subset hc)
    have hsame : (frames b).filterMap (rw b).rewrite = frames b := by
      rw [show (rw b).rewrite = some from funext hkeep]
      exact filterMap_some
    rw [hnew]
    dsimp only
    rw [hsame]
    exact hp

-- ==== reclaim

/-- What is unlinked is a proper prefix of the segments. -/
theorem reclaimed_append (target : ℤ) (archived : ℤ → Bool) (n : ℕ) (bases : List ℤ) :
    ∃ rest, bases = reclaimed target archived n bases ++ rest ∧ (bases ≠ [] → rest ≠ []) := by
  induction n generalizing bases with
  | zero => exact ⟨bases, by simp [reclaimed], id⟩
  | succ n ih =>
    match bases with
    | [] => exact ⟨[], by simp [reclaimed], id⟩
    | [b] => exact ⟨[b], by simp [reclaimed], id⟩
    | b :: c :: bases =>
      unfold reclaimed
      split
      · exact ⟨b :: c :: bases, rfl, id⟩
      · obtain ⟨rest, heq, hne⟩ := ih (c :: bases)
        refine ⟨rest, ?_, fun _ => hne (cons_ne_nil c bases)⟩
        rw [cons_append, ← heq]

theorem agrees_reclaim (h : Agrees crc w) (target : ℤ)
    (archived : ℤ → Bool) : Agrees crc (reclaim w target archived) := by
  obtain ⟨frames₀, hl₀, -⟩ := id h
  obtain ⟨rest, hsplit, hne⟩ := reclaimed_append target archived maxSegmentUnlinks w.disk.names
  have hdisk : (reclaim w target archived).disk = (reclaimed target archived maxSegmentUnlinks
          w.disk.names).foldl Disk.remove w.disk := by
    unfold reclaim
    rw [hl₀.bases]
  generalize reclaimed target archived maxSegmentUnlinks w.disk.names = gone at hsplit hdisk
  have hnames := foldl_remove_names gone w.disk
  refine h.thinned (fun b => .keepIf crc fun _ => b ∉ gone) ?_ ⟨rfl, rfl, rfl⟩ ?_ ?_
  · rw [hdisk, hnames]
    exact filter_sublist
  · intro last hlast
    have hmem := mem_of_getLast? hlast
    have hrest : last ∈ rest := by
      rw [hsplit, getLast?_append_of_ne_nil _ (hne (ne_nil_of_mem hmem))] at hlast
      exact mem_of_getLast? hlast
    have hkeep : last ∉ gone := by
      intro hin
      have hs := hl₀.sorted
      rw [hsplit] at hs
      exact lt_irrefl _ ((pairwise_append.1 hs).2.2 last hin last hrest)
    refine ⟨?_, fun x => ?_⟩
    · rw [hdisk, hnames, mem_filter]
      exact ⟨hmem, decide_eq_true hkeep⟩
    · simp [Rewrite.keepIf, hkeep]
  · intro frames hl b
    rw [filterMap_keepIf, hdisk, hnames, foldl_remove_file]
    by_cases hb : b ∈ gone
    · simp [hb]
    · simp only [hb, not_false_eq_true, decide_true, filter_true, if_false, mem_filter, and_true]
      exact ⟨hl.absent b, hl.whole b⟩

-- ==== swap_segment

theorem agrees_swap (h : Agrees crc w) (base : ℤ) (bytes generation : ℕ) (rw : Rewrite crc) :
    Agrees crc (swapSegment crc w base bytes generation rw) := by
  unfold swapSegment
  dsimp only
  split
  · exact h
  next hguard =>
  simp only [not_or, not_not] at hguard
  obtain ⟨-, -, -, hactive⟩ := hguard
  have hlast : ∀ b, w.disk.names.getLast? = some b → b ≠ base := by
    rintro b hb rfl
    obtain ⟨frames, -, hp⟩ := h
    exact hactive (hp.at_last hb).2.2.1
  refine h.thinned (fun b => if b = base then rw else .keepIf crc
    fun _ => true) ?_ ⟨rfl, rfl, rfl⟩ ?_ ?_
  · split
    · exact filter_sublist
    · exact List.Sublist.refl _
  · intro b hb
    refine ⟨?_, fun x => by simp [hlast b hb, Rewrite.keepIf]⟩
    have hmem := mem_of_getLast? hb
    split
    · exact mem_filter.2 ⟨hmem, decide_eq_true (hlast b hb)⟩
    · exact hmem
  · intro frames hl b
    rw [hl.whole base, framesOf_whole (hl.frame base)]
    rcases eq_or_ne b base with rfl | hb
    · rw [if_pos rfl]
      split
      next hnone =>
        rw [hnone]
        exact ⟨fun _ => rfl, by simp [Disk.remove]⟩
      next hsome =>
      refine ⟨fun hno => ?_, by simp⟩
      rw [hl.absent b hno]
      rfl
    · rw [if_neg hb, filterMap_keepIf, filter_true]
      refine ⟨fun hno => hl.absent b fun hin => hno ?_, ?_⟩
      · split
        · exact mem_filter.2 ⟨hin, decide_eq_true hb⟩
        · exact hin
      · split
        · simp [Disk.remove, update_of_ne hb, hl.whole]
        · simp [hb, hl.whole]

-- ==== truncate_to

/-- In a segment in order, what begins below the offset comes first. -/
theorem takeWhile_below (hb : ∀ x ∈ fs, IsBatch crc x)
    (ho : fs.Pairwise fun x y => endOf x ≤ baseOffset y) (offset : ℤ) :
    (fs.takeWhile fun x => baseOffset x < offset) = fs.filter fun x => baseOffset x < offset := by
  induction fs with
  | nil => rfl
  | cons x fs ih =>
    obtain ⟨hx, ho⟩ := pairwise_cons.1 ho
    by_cases hlt : baseOffset x < offset
    · rw [takeWhile_cons_of_pos (by simpa using hlt), filter_cons_of_pos (by simpa using hlt),
        ih (fun y hy => hb y (.tail _ hy)) ho]
    have hend := lt_endOf (hb x (.head _))
    rw [takeWhile_cons_of_neg (by simpa using hlt), eq_comm, filter_eq_nil_iff]
    simp only [decide_eq_true_eq]
    refine forall_mem_cons.2 ⟨hlt, fun y hy => ?_⟩
    have := hx y hy
    omega

variable {offset : ℤ}

section

variable (hl : Laid crc frames w.disk) (hlt : offset < w.slot.nextOffset)
include hl hlt

/-- The segments a truncation leaves. -/
theorem truncateTo_names :
    (truncateTo w offset).1.disk.names = w.disk.names.filter fun b => b < offset := by
  unfold truncateTo
  rw [if_neg (by omega), hl.bases]
  have hnames := foldl_remove_names (w.disk.names.filter fun b => offset ≤ b) w.disk
  have hfilter : (w.disk.names.filter fun b =>
        b ∉ w.disk.names.filter fun b => offset ≤ b)
      = w.disk.names.filter fun b => b < offset := by
    apply filter_congr
    intro b hb
    simp [hb]
  dsimp only
  split <;> exact hnames.trans hfilter

/-- Their files. -/
theorem truncateTo_log (b : ℤ) :
    ((truncateTo w offset).1.disk.file b).log
      = ((frames b).filter fun x => baseOffset x < offset).flatten := by
  have hcut := take_cutAt (hl.frame b) offset
  rw [takeWhile_below (hl.frame b) (hl.ordered b)] at hcut
  -- whatever the cut one is, the others are whole or gone
  have hother : ∀ last, (w.disk.names.filter fun b => b < offset).getLast? = last → last ≠ some b →
      (((w.disk.names.filter fun b => offset ≤ b).foldl Disk.remove w.disk).file b).log
        = ((frames b).filter fun x => baseOffset x < offset).flatten := by
    rintro last hlast hne
    rw [foldl_remove_file]
    by_cases hb : b ∈ w.disk.names
    · by_cases hge : offset ≤ b
      · rw [if_pos (mem_filter.2 ⟨hb, decide_eq_true hge⟩), filter_eq_nil_iff.2]
        · rfl
        intro x hx
        have := (hl.batches b x hx).2
        rw [decide_eq_true_eq]
        omega
      · have hmem : b ∈ w.disk.names.filter fun b => b < offset :=
          mem_filter.2 ⟨hb, decide_eq_true (by omega)⟩
        rw [if_neg, hl.whole, filter_eq_self.2]
        · intro x hx
          obtain ⟨c, hlast'⟩ := exists_getLast_of_mem hmem
          have hc := mem_filter.1 (mem_of_getLast? hlast')
          have hle := le_getLast (hl.sorted.filter _) hlast' hmem
          have hend := hl.apart b c hc.1 (lt_of_le_of_ne hle
            fun he => hne (hlast.symm.trans (he ▸ hlast'))) x hx
          have hcb := of_decide_eq_true hc.2
          exact decide_eq_true ((lt_endOf (hl.frame b x hx)).trans_le (hend.trans hcb.le))
        · rw [mem_filter, decide_eq_true_eq]
          omega
    · rw [if_neg fun h => hb (mem_filter.1 h).1, hl.whole, hl.absent b hb]
      rfl
  unfold truncateTo
  rw [if_neg (by omega), hl.bases]
  dsimp only
  cases hlast : (w.disk.names.filter fun b => b < offset).getLast? with
  | none => exact hother none hlast nofun
  | some c =>
    rw [setFile_file]
    rcases eq_or_ne b c with rfl | hb
    · rw [if_pos rfl, hl.whole, hcut]
    · rw [if_neg hb]
      exact hother _ hlast fun h => hb (Option.some.inj h).symm

theorem Laid.truncated :
    Laid crc (fun b => (frames b).filter fun x => baseOffset x < offset)
      (truncateTo w offset).1.disk := by
  have hthin := @Laid.thinned crc frames w.disk hl (truncateTo w offset).1.disk
    fun _ => .keepIf crc fun x => baseOffset x < offset
  simp only [filterMap_keepIf] at hthin
  refine hthin ?_ ?_ (truncateTo_log hl hlt)
  · rw [truncateTo_names hl hlt]
    exact filter_sublist
  intro b hb
  rw [truncateTo_names hl hlt, mem_filter, not_and] at hb
  apply filter_eq_nil_iff.2
  intro x hx
  have hge := hb (hl.mem hx)
  have := (hl.batches b x hx).2
  rw [decide_eq_true_eq] at hge ⊢
  omega

/-- The slot after a truncation below the log end. -/
theorem truncateTo_slot :
    (truncateTo w offset).1.slot.nextOffset = offset ∧
    match (w.disk.names.filter fun b => b < offset).getLast? with
    | none => (truncateTo w offset).1.slot.activeBase = offset ∧
        (truncateTo w offset).1.slot.activeBytes = 0
    | some b => (truncateTo w offset).1.slot.activeBase = b ∧
        (truncateTo w offset).1.slot.activeBytes = ((frames b).filter
          fun x => baseOffset x < offset).flatten.length := by
  unfold truncateTo
  rw [if_neg (by omega), hl.bases]
  dsimp only
  cases (w.disk.names.filter fun b => b < offset).getLast? with
  | none => exact ⟨rfl, rfl, rfl⟩
  | some b =>
    refine ⟨rfl, rfl, ?_⟩
    show cutAt (w.disk.file b).log offset = _
    rw [hl.whole, cutAt_whole (hl.frame b), takeWhile_below (hl.frame b) (hl.ordered b)]

/-- The condition in terms of the layout. -/
theorem aligned_iff :
    Aligned w (.truncateTo offset : LogOp crc) ↔
      match (w.disk.names.filter fun b => b < offset).getLast? with
      | none => offset = 0
      | some b => endOffset b ((frames b).filter fun x => baseOffset x < offset) = offset := by
  unfold Aligned
  dsimp only
  rw [hl.bases, imp_iff_right hlt]
  cases (w.disk.names.filter fun b => b < offset).getLast? with
  | none => exact Iff.rfl
  | some b =>
    dsimp only
    rw [hl.whole, framesOf_whole (hl.frame b), takeWhile_below (hl.frame b) (hl.ordered b)]

/-- A truncation below the log end recovers exactly if it is aligned. -/
theorem truncateTo_recovers :
    (truncateTo w offset).1.Recovers crc ↔ Aligned w (.truncateTo offset : LogOp crc) := by
  obtain ⟨hnext, hslot⟩ := truncateTo_slot hl hlt
  rw [(hl.truncated hlt).recovers_iff, aligned_iff hl hlt, truncateTo_names hl hlt, hnext]
  cases hlast : (w.disk.names.filter fun b => b < offset).getLast? with
  | none =>
    rw [hlast] at hslot
    rw [hslot.1, hslot.2]
    omega
  | some b =>
    rw [hlast] at hslot
    rw [hslot.1, hslot.2]
    simp

end

theorem agrees_truncateTo (h : Agrees crc w) (hok : Aligned w (.truncateTo offset : LogOp crc)) :
    Agrees crc (truncateTo w offset).1 := by
  by_cases hlt : offset < w.slot.nextOffset
  · obtain ⟨frames, hl, -⟩ := h
    refine ⟨_, hl.truncated hlt, (hl.truncated hlt).positioned_iff.2
      ⟨(truncateTo_recovers hl hlt).2 hok, fun b hlast hnil => ?_⟩⟩
    rw [aligned_iff hl hlt, ← truncateTo_names hl hlt, hlast] at hok
    -- an empty last segment ends where it begins, below the offset
    have hb := mem_of_getLast? hlast
    rw [truncateTo_names hl hlt, mem_filter] at hb
    have hlow := of_decide_eq_true hb.2
    dsimp only at hok hnil
    rw [hnil] at hok
    exact absurd hok hlow.ne
  · have hsame : (truncateTo w offset).1 = w := by
      unfold truncateTo
      rw [if_pos (by omega)]
    rw [hsame]
    exact h

/-- In a state in agreement nothing lies past the log end. -/
theorem Agrees.below (h : Agrees crc w)
    (hle : w.slot.nextOffset ≤ offset) : w.disk.Below crc offset := by
  obtain ⟨frames, hl, hp⟩ := h
  intro b _ x hx
  rw [hl.whole, framesOf_whole (hl.frame b)] at hx
  exact (hl.end_le hp hx).trans hle

/-- After a truncation the log ends at the offset, or where it did. -/
theorem truncateTo_next (w : Writer) (offset : ℤ) :
    (truncateTo w offset).1.slot.nextOffset = min offset w.slot.nextOffset := by
  unfold truncateTo
  split
  · exact (min_eq_right ‹_›).symm
  · dsimp only
    rw [min_eq_left (by omega)]
    split <;> rfl

-- ==== the calls

/-- A call that meets its condition leaves agreement. -/
theorem agrees_step (defaultBytes : ℕ) (h : Agrees crc w)
    (op : LogOp crc) (hfit : OffsetFits w op) (hok : Aligned w op) :
    Agrees crc (w.step defaultBytes op) := by
  cases op with
  | append seed segmentMs segmentBytes now bytes =>
    unfold step RawBatch.ofHeader
    dsimp only
    split
    next hnone => exact h
    next batch hbatch =>
    split at hbatch
    · cases hbatch
      exact agrees_append defaultBytes h _ now hfit rfl
    · cases hbatch
  | appendReplicated bytes expected now =>
    exact agrees_appendReplicated defaultBytes h bytes expected now
  | truncateTo offset => exact agrees_truncateTo h hok
  | reclaim target archived => exact agrees_reclaim h target archived
  | swap base bytes generation rw =>
    exact agrees_swap h base bytes generation rw

/-- A call is right in a state in agreement exactly under its
condition. -/
theorem right_iff (defaultBytes : ℕ) (h : Agrees crc w) (op : LogOp crc)
    (hfit : OffsetFits w op) : Right defaultBytes w op ↔ Aligned w op := by
  constructor
  · rintro ⟨hrec, -⟩
    cases op with
    | truncateTo offset =>
      by_cases hlt : offset < w.slot.nextOffset
      · obtain ⟨frames, hl, -⟩ := h
        exact (truncateTo_recovers hl hlt).1 hrec
      · exact fun hlt' => absurd hlt' hlt
    | _ => trivial
  · intro hok
    have hafter := agrees_step defaultBytes h op hfit hok
    refine ⟨hafter.recovers, ?_⟩
    rintro offset rfl
    have hnext := truncateTo_next w offset
    refine ⟨hafter.below ?_, fun a io base hbase => ?_⟩
    · show (truncateTo w offset).1.slot.nextOffset ≤ offset
      rw [hnext]
      exact min_le_left ..
    · exact (append_base hbase).trans hnext

/-- In every run from an empty partition the slot is what a scan of the
files finds and truncations cut at their offset, exactly if each
truncation below the log end falls where a batch ends. -/
theorem truncation_recovers_iff (defaultBytes : ℕ) (ops : List (LogOp crc))
    (hfit : Run.EachStep (Writer.step defaultBytes) Writer.fresh ops OffsetFits) :
    (Writer.fresh.Recovers crc ∧ Run.EachStep (Writer.step defaultBytes) Writer.fresh ops
        (Right defaultBytes)) ↔
    Run.EachStep (Writer.step defaultBytes) Writer.fresh ops Aligned := by
  rw [and_iff_right agrees_fresh.recovers]
  exact Run.EachStep.iff_of_inv (fun w op h => right_iff defaultBytes h op)
    (fun w op h => agrees_step defaultBytes h op) agrees_fresh hfit

-- ---------------------------------------------------- a run and two gaps

/-- A produced batch of `count` records, in a topic that rolls weekly. -/
def produce (now : ℤ) (count : ℕ) : LogOp crc32c :=
  .append 0 604800000 1073741824 now (producedBatch count [4, 0, 0])

/-- Two batches, three offsets and two, cut back to the first. -/
def alignedRun : List (LogOp crc32c) := [produce 1 3, produce 2 2, .truncateTo 3, produce 3 1]

instance (w : Writer) (op : LogOp crc32c) : Decidable (OffsetFits w op) := by
  cases op <;> dsimp only [OffsetFits] <;> infer_instance

instance (w : Writer) (op : LogOp crc32c) : Decidable (Aligned w op) := by
  cases op with
  | truncateTo offset =>
    unfold Aligned
    dsimp only
    cases ((segmentBases w.disk).filter fun b => b < offset).getLast? <;> infer_instance
  | _ => exact isTrue trivial

theorem truncation_recovers_aligned :
    Run.EachStep (Writer.step 1073741824) Writer.fresh alignedRun OffsetFits ∧
    Writer.fresh.Recovers crc32c ∧
    Run.EachStep (Writer.step 1073741824) Writer.fresh alignedRun (Right 1073741824) := by
  have hfit : Run.EachStep (step 1073741824) fresh alignedRun
      OffsetFits := by decide +kernel
  exact ⟨hfit, (truncation_recovers_iff 1073741824 alignedRun hfit).2 (by decide +kernel)⟩

/-- A batch of three offsets cut at its second. -/
def midBatchRun : List (LogOp crc32c) := [produce 1 3, .truncateTo 1]

/-- Two segments of one batch each, the first reclaimed, cut at the
beginning of the second. -/
def emptiedRun : List (LogOp crc32c) :=
  [produce 1 1, produce 604800002 1, .reclaim 1 (fun _ => true), .truncateTo 1]

/-- The first cut keeps offsets 1 and 2, which a restart counts and the
next appends are given again; after the second a restart begins at 0
again. -/
theorem truncation_not_recovered : let mid := midBatchRun.foldl (Writer.step 1073741824) .fresh
    let emptied := emptiedRun.foldl (Writer.step 1073741824) .fresh
    (mid.slot.nextOffset = 1 ∧ (recover crc32c mid.disk).1.nextOffset = 3 ∧ mid.disk.names = [0] ∧
      (framesOf crc32c (mid.disk.file 0).log).map endOf = [3]) ∧
    (emptied.slot.nextOffset = 1 ∧ (recover crc32c emptied.disk).1.nextOffset = 0) := by
  decide +kernel

end Kafgres.Segment
