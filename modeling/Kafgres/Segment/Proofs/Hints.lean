/-
When seek hints survive a crash.

Recovery cuts the active `.log` after its last whole batch but leaves the
`.index` as the crash left it: entries that point past the recovered end
stay, and a torn one shifts every entry after it. Once the segment is
sealed, the next restart reads the file.

`StoreInv` fixes, per segment, the batches it holds, and argues about
positions only through `Framing.StartsAt`.
-/
import Kafgres.Segment.Proofs.Scan
import Kafgres.Segment.Proofs.WholeSegments
import Mathlib.Data.List.TakeWhile

namespace Kafgres.Segment

open Storage Codec Bytes Framing List Function Store Writer

-- ==== the statement

/-- Every hint of every process names a position at which a whole batch
with exactly that base offset begins. -/
def HintsSound (crc : List UInt8 → ℕ) (s : Store) : Prop :=
  ∀ proc b, ∀ e ∈ s.hints proc b, ∃ x, IsBatch crc x ∧
    x <+: (s.disk.file b).log.drop e.2 ∧ baseOffset x = e.1

/-- The setting: offsets and positions of the active segment fit four
bytes, offsets fit `i64`, and the append's own file writes are not cut
short. -/
def InSetting (crc : List UInt8 → ℕ) (home : Home) (s : Store) : StoreOp → Prop
  | .append proc a io => ∀ st ∈ (s.track crc home proc).slot,
      st.nextOffset < 2 ^ 63 ∧ st.nextOffset - st.activeBase < 2 ^ 32 ∧ st.activeBytes < 2 ^ 32 ∧
        (io.wrote = 0 ∨ a.batch.bytes.length ≤ io.wrote) ∧
        (io.indexWrote = 0 ∨ indexEntry ≤ io.indexWrote)
  | _ => True

/-- A crash leaves of the last segment's `.index` only whole entries,
each pointing below the end of the whole batches it leaves of the
`.log`. Positions take four bytes, so the bound here reads every
entry. -/
def KeepsIndex (crc : List UInt8 → ℕ) (s : Store) : StoreOp → Prop
  | .crash keepLog keepIndex _ => ∀ b ∈ (segmentBases s.disk).getLast?,
      ((s.disk.file b).index.take (keepIndex b)).length % indexEntry = 0 ∧
        ∀ e ∈ readIndex b ((s.disk.file b).index.take (keepIndex b)) (2 ^ 32),
          e.2 < (readSegment crc b ((s.disk.file b).log.take keepLog)).pos
  | _ => True

instance (crc : List UInt8 → ℕ) (home : Home) (s : Store) (op : StoreOp) :
    Decidable (InSetting crc home s op) :=
  match op with
  | .touch _ | .crash .. => isTrue trivial
  | .append .. => inferInstanceAs (Decidable (∀ st ∈ Store.slot _, _))

instance (crc : List UInt8 → ℕ) (s : Store) (op : StoreOp) : Decidable (KeepsIndex crc s op) :=
  match op with
  | .touch _ | .append .. => isTrue trivial
  | .crash .. => inferInstanceAs (Decidable (∀ b ∈ List.getLast? _, _))

-- ==== the invariant

/-- An `.index` file against the batches of its segment. -/
structure IndexOf (base : ℤ) (frames : List (List UInt8))
    (index : List UInt8) (entries : List (ℤ × ℕ)) (torn : List UInt8) :
    Prop where
  bytes : index = encodeIndex base entries ++ torn
  torn : torn.length < indexEntry
  sound : ∀ e ∈ entries, Encodable base e ∧ HintFor frames e

/-- The slot's extent against the files, while the partition is
tracked. -/
structure Tracked (frames : ℤ → List (List UInt8)) (st : Slot)
    (disk : Disk) : Prop where
  whole : ∀ b, (disk.file b).log = (frames b).flatten
  extent : st.activeBytes = (frames st.activeBase).flatten.length
  name_le : ∀ b ∈ disk.names, b ≤ st.activeBase
  base_nonneg : 0 ≤ st.activeBase
  base_le : st.activeBase ≤ st.nextOffset
  begun : 0 < st.activeBytes →
    st.activeBase < st.nextOffset ∧ st.activeBase ∈ disk.names

/-- The files against the batches they hold. -/
structure Filed (crc : List UInt8 → ℕ) (frames : ℤ → List (List UInt8))
    (disk : Disk) : Prop where
  sorted : disk.names.Pairwise (· < ·)
  nonneg : ∀ b ∈ disk.names, 0 ≤ b
  absent : ∀ b, b ∉ disk.names → disk.file b = {} ∧ frames b = []
  batches : ∀ b, ∀ x ∈ frames b, IsBatch crc x ∧ b ≤ baseOffset x
  covers : ∀ b, (disk.file b).log <+: (frames b).flatten
  sealed : ∀ b, disk.names.getLast? ≠ some b →
    (disk.file b).log = (frames b).flatten
  index : ∀ b, ∃ entries torn,
    IndexOf b (frames b) (disk.file b).index entries torn ∧
      (disk.names.getLast? = some b → torn = [])

/-- What every state of a run satisfies. -/
structure StoreInv (crc : List UInt8 → ℕ)
    (frames : ℤ → List (List UInt8)) (s : Store) : Prop where
  filed : Filed crc frames s.disk
  hints : ∀ proc b, ∀ e ∈ s.hints proc b, HintFor (frames b) e
  tracked : ∀ st, s.slot = some st → Tracked frames st s.disk
  untracked : s.slot = none → (∀ proc b, s.hints proc b = []) ∧
    ∀ b, s.disk.names.getLast? = some b → ∀ e ∈ readIndex b (s.disk.file b).index (2 ^ 32),
        e.2 < (readSegment crc b (s.disk.file b).log).pos

variable {crc : List UInt8 → ℕ} {home : Home} {s : Store} {disk : Disk}
  {frames : ℤ → List (List UInt8)}

theorem Filed.bases (h : Filed crc frames disk) : segmentBases disk = disk.names :=
  List.Pairwise.insertionSort_eq (h.sorted.imp le_of_lt)

variable {fs fs' : List (List UInt8)} {entries : List (ℤ × ℕ)} {index : List UInt8}
  {torn : List UInt8} {base : ℤ}

/-- Every entry of an index file that was written within bounds is
read back under the widest bound. -/
theorem IndexOf.readAll (h : IndexOf base fs index entries torn) :
    readIndex base index (2 ^ 32) = entries := by
  rw [h.bytes, readIndex_encoded _ h.torn fun e he => (h.sound e he).1]
  exact takeWhile_eq_self_iff.2 fun e he =>
    decide_eq_true (h.sound e he).1.2.2

theorem IndexOf.mono (h : IndexOf base fs index entries torn)
    (hfs : fs <+: fs') : IndexOf base fs' index entries torn :=
  { h with sound := fun e he => ⟨(h.sound e he).1, (h.sound e he).2.mono hfs⟩ }

theorem storeInv_fresh : StoreInv crc (fun _ => []) fresh where
  filed :=
    { sorted := .nil
      nonneg := by simp [fresh]
      absent := fun _ _ => ⟨rfl, rfl⟩
      batches := by simp
      covers := fun _ => prefix_refl _
      sealed := fun _ _ => rfl
      index := fun b => ⟨[], [], ⟨rfl, by decide, by simp⟩, fun _ => rfl⟩ }
  hints := by simp [fresh]
  tracked := by simp [fresh]
  untracked _ := ⟨fun _ _ => rfl, by simp [fresh]⟩

/-- The invariant is what the statement asks for. -/
theorem StoreInv.hintsSound (h : StoreInv crc frames s) : HintsSound crc s := by
  intro proc b e he
  cases hslot : s.slot with
  | none =>
    simp [(h.untracked hslot).1 proc b] at he
  | some st =>
    obtain ⟨x, hx, hbase⟩ := h.hints proc b e he
    have hparse : Parse (IsBatch crc) (frames b) (s.disk.file b).log :=
      ⟨fun y hy => (h.filed.batches b y hy).1, by rw [(h.tracked st hslot).whole b]⟩
    obtain ⟨hbatch, hpre⟩ := hx.prefix_drop hparse
    exact ⟨x, hbatch, hpre, hbase⟩

-- ==== recovery

/-- The log end is past the segment's base once it has a batch. -/
theorem lt_endOffset (hb : ∀ x ∈ fs, IsBatch crc x ∧ base ≤ baseOffset x) :
    base ≤ endOffset base fs ∧ (fs ≠ [] → base < endOffset base fs) := by
  unfold endOffset
  cases hlast : fs.getLast? with
  | none =>
    rw [getLast?_eq_none_iff] at hlast
    exact ⟨le_rfl, fun hne => absurd hlast hne⟩
  | some x =>
    obtain ⟨hx, hle⟩ := hb x (mem_of_getLast? hlast)
    have hdelta := (isBatch_iff.1 hx).2.2.2.1
    exact ⟨by dsimp only; omega, fun _ => by dsimp only; omega⟩

/-- Files after recovery, when the scan of the last segment found `fs`:
that segment now holds exactly them. -/
theorem filed_recovered (h : Filed crc frames disk) {last : ℤ}
    (hlast : disk.names.getLast? = some last)
    (hscan : ScanOf crc last (disk.file last).log (readSegment crc last (disk.file last).log) fs)
    (hidx : ∀ e ∈ readIndex last (disk.file last).index (2 ^ 32),
      e.2 < (readSegment crc last (disk.file last).log).pos) (timeindex : List UInt8) :
    let cut := (disk.file last).log.take (readSegment crc last (disk.file last).log).pos
    cut = fs.flatten ∧ fs <+: frames last ∧ Filed crc (update frames last fs)
        (disk.setFile last ⟨cut, (disk.file last).index, timeindex⟩) := by
  intro cut
  have hcut : cut = fs.flatten := by
    show (disk.file last).log.take _ = _
    rw [hscan.pos, ← prefix_iff_eq_take.1 hscan.parse.starts]
  have hpre : fs <+: frames last := hscan.parse.prefix_of_covered (isBatch_selfDelimiting crc)
      (fun x hx => hx.ne_nil) (fun x hx => (h.batches last x hx).1)
      (h.covers last)
  have hmem : last ∈ disk.names := mem_of_getLast? hlast
  refine ⟨hcut, hpre, h.sorted, h.nonneg, fun b hb => ?_, fun b => ?_,
    fun b => ?_, fun b hb => ?_, fun b => ?_⟩
  · have hne : b ≠ last := fun he => hb (he ▸ hmem)
    simpa [hne] using h.absent b hb
  · rcases eq_or_ne b last with rfl | hb
    · simpa using fun x hx => h.batches b x (hpre.subset hx)
    · simpa [hb] using h.batches b
  · rcases eq_or_ne b last with rfl | hb
    · simp [hcut]
    · simpa [hb] using h.covers b
  · have hne : b ≠ last := fun he => hb (he ▸ hlast)
    simpa [hne] using h.sealed b hb
  · obtain ⟨entries, torn, hof, htorn⟩ := h.index b
    refine ⟨entries, torn, ?_, htorn⟩
    rcases eq_or_ne b last with rfl | hb
    · rw [setFile_file, if_pos rfl, update_self]
      rw [hof.readAll] at hidx
      refine ⟨hof.bytes, hof.torn, fun e he => ⟨(hof.sound e he).1, ?_⟩⟩
      -- Below the recovered end, both parses of the old log agree.
      obtain ⟨x, hx, hbase⟩ := (hof.sound e he).2
      refine ⟨x, hx.of_parse (isBatch_selfDelimiting crc)
        ⟨fun y hy => (h.batches b y hy).1, prefix_refl _⟩
        (hscan.parse.mono (h.covers b)) ?_, hbase⟩
      rw [← hscan.pos]
      exact hidx e he
    · simpa [hb] using hof

/-- Touching a partition keeps the invariant and leaves it tracked. -/
theorem storeInv_track (h : StoreInv crc frames s) (home : Home) (proc : ℕ) :
    ∃ frames', StoreInv crc frames' (s.track crc home proc) ∧
      ∃ st, (s.track crc home proc).slot = some st := by
  cases hslot : s.slot with
  | some st =>
    have ht : s.track crc home proc = s := by
      rw [track, hslot]
    rw [ht]
    exact ⟨frames, h, st, hslot⟩
  | none =>
    obtain ⟨hempty, hidx⟩ := h.untracked hslot
    cases hlast : s.disk.names.getLast? with
    | none =>
      have ht : s.track crc home proc = ⟨some (Recovered.slot ⟨0, 0, 0, (i64Min, -1), i64Min⟩
              home.stripes home.key home.index),
            update s.hints proc (fun _ => []), s.disk⟩ := by
        rw [track, hslot]
        simp only [recover, h.filed.bases, hlast]
      rw [ht]
      have hnames : s.disk.names = [] := getLast?_eq_none_iff.1 hlast
      have hgone := fun b => h.filed.absent b (by simp [hnames])
      refine ⟨frames, ⟨h.filed, ?_, ?_, by simp⟩, _, rfl⟩
      · intro p b e he
        rcases eq_or_ne p proc with rfl | hp
        · simp at he
        · simp [hp, hempty] at he
      · rintro _ ⟨⟩
        refine ⟨fun b => ?_, ?_, by simp [hnames], le_rfl, le_rfl,
          fun hz => absurd hz (lt_irrefl 0)⟩
        · rw [(hgone b).1, (hgone b).2]
          rfl
        · rw [(hgone _).2]
          rfl
    | some last =>
      obtain ⟨fs, hscan⟩ := readSegment_spec crc last (s.disk.file last).log
      have hmem : last ∈ s.disk.names := mem_of_getLast? hlast
      obtain ⟨hcut, hpre, hfiled⟩ := filed_recovered h.filed hlast
        hscan (hidx last hlast) (truncateTimeIndex last
          (readSegment crc last (s.disk.file last).log).nextOffset
          (s.disk.file last).timeindex).1
      have hbatches : ∀ x ∈ fs, IsBatch crc x ∧ last ≤ baseOffset x :=
        fun x hx => h.filed.batches last x (hpre.subset hx)
      obtain ⟨hle, hlt⟩ := lt_endOffset hbatches
      refine ⟨update frames last fs, ?_⟩
      rw [track, hslot]
      simp only [recover, h.filed.bases, hlast]
      refine ⟨⟨hfiled, ?_, ?_, by simp⟩, _, rfl⟩
      · intro p b e he
        dsimp only at he
        rcases eq_or_ne p proc with rfl | hp
        swap
        · simp [hp, hempty] at he
        rw [update_self] at he
        rcases eq_or_ne b last with rfl | hb
        · simpa using hscan.hints e (by simpa using he)
        rw [if_neg hb] at he
        rw [update_of_ne hb]
        split at he
        · obtain ⟨entries, torn, hof, -⟩ := h.filed.index b
          rw [hof.bytes, readIndex_encoded _ hof.torn fun e he => (hof.sound e he).1] at he
          exact (hof.sound e (takeWhile_subset _ he)).2
        · cases he
      · rintro _ ⟨⟩
        refine ⟨fun b => ?_, ?_, fun b hb => le_getLast h.filed.sorted hlast hb,
          h.filed.nonneg last hmem, ?_, fun hpos => ⟨?_, hmem⟩⟩
        · rcases eq_or_ne b last with rfl | hb
          · simpa using hcut
          · simpa [hb] using h.filed.sealed b fun he =>
              hb (Option.some.inj (he.symm.trans hlast))
        · show (readSegment crc last (s.disk.file last).log).pos
            = (update frames last fs last).flatten.length
          rw [update_self]
          exact hscan.pos
        · rw [hscan.next]
          exact hle
        · rw [hscan.next]
          refine hlt ?_
          rintro rfl
          have hz : 0 < (readSegment crc last _).pos := hpos
          rw [hscan.pos] at hz
          exact absurd hz (lt_irrefl 0)

-- ==== crash

/-- A crash under the condition keeps the invariant: every log is a
prefix of the same frames. -/
theorem storeInv_crash (h : StoreInv crc frames s) (keepLog : ℕ) (keepIndex keepTime : ℤ → ℕ)
    (hkeep : KeepsIndex crc s (.crash keepLog keepIndex keepTime)) :
    StoreInv crc frames (s.crash keepLog keepIndex keepTime) := by
  have hkeep' : ∀ b, s.disk.names.getLast? = some b →
      ((s.disk.file b).index.take (keepIndex b)).length % indexEntry = 0 ∧
        ∀ e ∈ readIndex b ((s.disk.file b).index.take (keepIndex b)) (2 ^ 32),
          e.2 < (readSegment crc b ((s.disk.file b).log.take keepLog)).pos := by
    intro b hb
    rw [KeepsIndex, h.filed.bases] at hkeep
    exact hkeep b hb
  have hbases : (segmentBases s.disk).getLast? = s.disk.names.getLast? := by
    rw [h.filed.bases]
  refine ⟨⟨h.filed.sorted, h.filed.nonneg, ?_, h.filed.batches, ?_, ?_, ?_⟩,
    by simp [crash], by simp [crash], fun _ => ⟨fun _ _ => rfl, ?_⟩⟩
  · intro b hb
    obtain ⟨hfile, hframes⟩ := h.filed.absent b hb
    refine ⟨?_, hframes⟩
    simp [crash, hfile]
  · intro b
    have hcov := h.filed.covers b
    have htake := take_prefix keepLog (s.disk.file b).log
    simp only [crash]
    split_ifs
    · exact htake.trans hcov
    · exact hcov
  · intro b hb
    have hb' : (segmentBases s.disk).getLast? ≠ some b := by
      rw [hbases]
      exact hb
    simp only [crash, if_neg hb']
    exact h.filed.sealed b hb
  · intro b
    obtain ⟨entries, torn, hof, -⟩ := h.filed.index b
    obtain ⟨k, torn', htorn', htake⟩ := take_encoded b entries hof.torn (keepIndex b)
    rw [← hof.bytes] at htake
    refine ⟨entries.take k, torn', ⟨htake, htorn', fun e he =>
      hof.sound e (mem_of_mem_take he)⟩, fun hb => ?_⟩
    -- A whole number of entries leaves no torn one.
    have hmod := (hkeep' b hb).1
    rw [htake, length_append, encodeIndex_length, Nat.mul_add_mod, Nat.mod_eq_of_lt htorn'] at hmod
    exact eq_nil_of_length_eq_zero hmod
  · intro b hb e he
    have hb' : (segmentBases s.disk).getLast? = some b := hbases.trans hb
    simp only [crash, if_pos hb'] at he ⊢
    exact (hkeep' b hb).2 e he

-- ==== append

/-- The invariant as one process's append sees it. -/
structure WriterInv (crc : List UInt8 → ℕ)
    (frames : ℤ → List (List UInt8)) (w : Writer) : Prop where
  filed : Filed crc frames w.disk
  hints : ∀ b, ∀ e ∈ w.hints b, HintFor (frames b) e
  tracked : Tracked frames w.slot w.disk

variable {w w' : Writer} {data : List UInt8}

/-- What one process did keeps the invariant for all, if frames only
grew. -/
theorem storeInv_put {frames' : ℤ → List (List UInt8)}
    (h : StoreInv crc frames s) (hw : WriterInv crc frames' w)
    (hgrow : ∀ b, frames b <+: frames' b) (proc : ℕ) : StoreInv crc frames' (s.put proc w) := by
  refine ⟨hw.filed, ?_, ?_, by simp [put]⟩
  · intro p b e he
    rcases eq_or_ne p proc with rfl | hp
    · exact hw.hints b e (by simpa [put] using he)
    · exact (h.hints p b e (by simpa [put, hp] using he)).mono (hgrow b)
  · rintro _ ⟨⟩
    exact hw.tracked

section

variable (h : WriterInv crc frames w)
include h

theorem writerInv_congr (hext : SameExtent w.slot w'.slot) (hhints : w'.hints = w.hints)
    (hdisk : w'.disk = w.disk) : WriterInv crc frames w' := by
  obtain ⟨hf, hh, ht⟩ := h
  obtain ⟨hbase, hbytes, hnext⟩ := hext
  refine ⟨hdisk ▸ hf, hhints ▸ hh, hdisk ▸ ⟨ht.whole, ?_, ?_, ?_, ?_, ?_⟩⟩ <;>
    simp only [hbase, hbytes, hnext]
  exacts [ht.extent, ht.name_le, ht.base_nonneg, ht.base_le, ht.begun]

/-- A roll begins a segment nothing is filed under. -/
theorem writerInv_roll (hpos : 0 < w.slot.activeBytes) (now : ℤ) :
    WriterInv crc frames (w.roll w.slot.nextOffset now) := by
  obtain ⟨hlt, -⟩ := h.tracked.begun hpos
  have hnew : w.slot.nextOffset ∉ w.disk.names := fun hmem =>
    absurd (h.tracked.name_le _ hmem) (not_le.2 hlt)
  have hnil : frames w.slot.nextOffset = [] := (h.filed.absent _ hnew).2
  refine ⟨h.filed, ?_, ⟨h.tracked.whole, ?_, ?_, ?_, le_rfl, ?_⟩⟩
  · intro b e he
    rcases eq_or_ne b w.slot.nextOffset with rfl | hb
    · simp [roll] at he
    · exact h.hints b e (by simpa [roll, hb] using he)
  · show 0 = (frames w.slot.nextOffset).flatten.length
    rw [hnil]
    rfl
  · intro b hb
    exact (h.tracked.name_le b hb).trans hlt.le
  · exact h.tracked.base_nonneg.trans hlt.le
  · exact fun hz => absurd hz (lt_irrefl 0)

/-- While a segment is active its index has no torn entry. -/
theorem WriterInv.activeIndex :
    ∃ entries, IndexOf w.slot.activeBase (frames w.slot.activeBase)
      (w.disk.file w.slot.activeBase).index entries [] := by
  by_cases hmem : w.slot.activeBase ∈ w.disk.names
  · obtain ⟨entries, torn, hof, htorn⟩ := h.filed.index w.slot.activeBase
    obtain rfl := htorn (getLast_of_greatest h.filed.sorted hmem h.tracked.name_le)
    exact ⟨entries, hof⟩
  · rw [(h.filed.absent _ hmem).1]
    exact ⟨[], rfl, by decide, by simp⟩

/-- A write at the end of the active segment that turns its batches
into `fs`: the files afterwards. -/
theorem filed_written (hflat : fs.flatten = (frames w.slot.activeBase).flatten ++ data)
    (hbatches : ∀ x ∈ fs, IsBatch crc x ∧ w.slot.activeBase ≤ baseOffset x)
    (hindex : IndexOf w.slot.activeBase fs index entries []) (timeindex : List UInt8) :
    (∀ b, ((w.written data index timeindex).file b).log
        = (update frames w.slot.activeBase fs b).flatten) ∧
      Filed crc (update frames w.slot.activeBase fs) (w.written data index timeindex) := by
  obtain ⟨hsorted, hlast⟩ := create_last h.filed.sorted h.tracked.name_le
  have hmem : w.slot.activeBase ∈ (w.disk.create w.slot.activeBase).names :=
    mem_create_names.2 (.inr rfl)
  have hwhole : ∀ b, ((w.written data index timeindex).file b).log
      = (update frames w.slot.activeBase fs b).flatten := by
    intro b
    rw [written, setFile_file, create_file]
    rcases eq_or_ne b w.slot.activeBase with rfl | hb
    · simp only [if_true, update_self, h.tracked.extent, hflat, h.tracked.whole, writeAt_end]
    · simp [hb, h.tracked.whole]
  refine ⟨hwhole, ⟨hsorted, ?_, ?_, ?_, ?_, ?_, ?_⟩⟩
  · intro b hb
    rcases mem_create_names.1 hb with hb | rfl
    · exact h.filed.nonneg b hb
    · exact h.tracked.base_nonneg
  · intro b hb
    have hne : b ≠ w.slot.activeBase := fun he => hb (he ▸ hmem)
    simpa [written, hne] using h.filed.absent b fun hin => hb (mem_create_names.2 (.inl hin))
  · intro b
    rcases eq_or_ne b w.slot.activeBase with rfl | hb
    · simpa using hbatches
    · simpa [hb] using h.filed.batches b
  · intro b
    rw [hwhole b]
  · exact fun b _ => hwhole b
  · intro b
    rcases eq_or_ne b w.slot.activeBase with rfl | hb
    · exact ⟨entries, [], by simpa [written] using hindex, fun _ => rfl⟩
    obtain ⟨entries', torn, hof, -⟩ := h.filed.index b
    refine ⟨entries', torn, ?_, fun he =>
      absurd (Option.some.inj (hlast.symm.trans he)).symm hb⟩
    simpa [written, hb] using hof

theorem writerInv_written (hflat : fs.flatten = (frames w.slot.activeBase).flatten ++ data)
    (hbatches : ∀ x ∈ fs, IsBatch crc x ∧ w.slot.activeBase ≤ baseOffset x) {timeindex : List UInt8}
    (hindex : IndexOf w.slot.activeBase fs index entries [])
    (hdisk : w'.disk = w.written data index timeindex)
    (hhints : ∀ b, ∀ e ∈ w'.hints b, HintFor (update frames w.slot.activeBase fs b) e)
    (hbase : w'.slot.activeBase = w.slot.activeBase)
    (hbytes : w'.slot.activeBytes = w.slot.activeBytes + data.length)
    (hnext : w.slot.nextOffset ≤ w'.slot.nextOffset)
    (hmoved : data ≠ [] → w.slot.nextOffset < w'.slot.nextOffset) :
    WriterInv crc (update frames w.slot.activeBase fs) w' := by
  obtain ⟨hwhole, hfiled⟩ := filed_written h hflat hbatches hindex timeindex
  rw [← hdisk] at hwhole hfiled
  have hle := h.tracked.base_le
  have hmem : w.slot.activeBase ∈ w'.disk.names := by
    rw [hdisk]
    exact mem_create_names.2 (.inr rfl)
  refine ⟨hfiled, hhints, ⟨hwhole, ?_, ?_, ?_, ?_, ?_⟩⟩
  · rw [hbase, update_self, hflat, length_append, hbytes, h.tracked.extent]
  · intro b hb
    rw [hdisk] at hb
    rw [hbase]
    rcases mem_create_names.1 hb with hb | rfl
    · exact h.tracked.name_le b hb
    · exact le_rfl
  · rw [hbase]
    exact h.tracked.base_nonneg
  · rw [hbase]
    exact hle.trans hnext
  · intro hpos
    rw [hbase]
    refine ⟨?_, hmem⟩
    cases data with
    | nil =>
      rw [hbytes] at hpos
      exact (h.tracked.begun hpos).1.trans_le hnext
    | cons x data => exact hle.trans_lt (hmoved (cons_ne_nil _ _))

end

/-- The index of the active segment after an entry for the batch
appended to it, written whole or not at all. -/
theorem IndexOf.extend {e : ℤ × ℕ} {x : List UInt8}
    (h : IndexOf base fs index entries []) (he : Encodable base e)
    (hhint : HintFor (fs ++ [x]) e) {n : ℕ} (hn : n = 0 ∨ indexEntry ≤ n) :
    ∃ entries', IndexOf base (fs ++ [x])
      (index ++ (encodeEntry (e.1 - base) e.2).take n) entries' [] := by
  have hold := h.mono (prefix_append fs [x])
  rcases hn with rfl | hn
  · rw [take_zero, append_nil]
    exact ⟨entries, hold⟩
  refine ⟨entries ++ [e], ?_, h.torn, ?_⟩
  · rw [take_of_length_le (by rw [encodeEntry_length]; exact hn), encodeIndex_snoc, h.bytes]
    simp
  exact forall_mem_append.2 ⟨hold.sound, forall_mem_singleton.2 ⟨he, hhint⟩⟩

/-- Some batches per segment, at least `frames`, explain the writer. -/
def Explained (crc : List UInt8 → ℕ) (frames : ℤ → List (List UInt8)) (w : Writer) : Prop :=
  ∃ frames', WriterInv crc frames' w ∧ ∀ b, frames b <+: frames' b

theorem prefix_update (frames : ℤ → List (List UInt8)) {b : ℤ} (h : frames b <+: fs) (c : ℤ) :
    frames c <+: update frames b fs c := by
  rcases eq_or_ne c b with rfl | hc
  · simpa using h
  · simp [hc]

/-- A write of nothing may still create the active segment's file. -/
theorem explained_refused (h : WriterInv crc frames w)
    (hext : SameExtent w.slot w'.slot) (hhints : w'.hints = w.hints)
    (hdisk : w'.disk = w.disk ∨ w'.disk = w.written [] (w.disk.file w.slot.activeBase).index
      (w.disk.file w.slot.activeBase).timeindex) : Explained crc frames w' := by
  rcases hdisk with hdisk | hdisk
  · exact ⟨frames, writerInv_congr h hext hhints hdisk, fun b => prefix_refl _⟩
  obtain ⟨entries, hindex⟩ := h.activeIndex
  have hsame := update_eq_self w.slot.activeBase frames
  refine ⟨frames, ?_, fun b => prefix_refl _⟩
  rw [← hsame]
  refine writerInv_written h (append_nil _).symm
    (h.filed.batches w.slot.activeBase) hindex hdisk ?_ hext.activeBase
    hext.activeBytes hext.nextOffset.ge (fun hne => absurd rfl hne)
  rw [hsame, hhints]
  exact h.hints

/-- A whole batch at the end of the active segment, with its index entry
whole or absent. -/
theorem explained_placed (h : WriterInv crc frames w)
    {bytes : List UInt8} (hbatch : IsBatch crc bytes)
    (hbase : baseOffset bytes = w.slot.nextOffset) {io : WriteIo}
    (hrel : w.slot.nextOffset - w.slot.activeBase < 2 ^ 32) (hpos : w.slot.activeBytes < 2 ^ 32)
    (hio : io.indexWrote = 0 ∨ indexEntry ≤ io.indexWrote)
    {next : ℤ} (hnext : w.slot.nextOffset < next)
    (hok : (place w bytes w.slot.nextOffset io).2 = .ok ()) :
    Explained crc frames ((place w bytes w.slot.nextOffset io).1.advance next) := by
  obtain ⟨-, hcase | ⟨-, hab, -, hlen, timeindex, hcase⟩⟩ :=
    place_cases w bytes w.slot.nextOffset io
  · rw [hok] at hcase
    cases hcase.1
  have hle := h.tracked.base_le
  have hflat : (frames w.slot.activeBase ++ [bytes]).flatten
      = (frames w.slot.activeBase).flatten ++ bytes := by simp
  have hbatches : ∀ x ∈ frames w.slot.activeBase ++ [bytes],
      IsBatch crc x ∧ w.slot.activeBase ≤ baseOffset x :=
    forall_mem_append.2 ⟨h.filed.batches _, forall_mem_singleton.2 ⟨hbatch, hbase.symm ▸ hle⟩⟩
  have hgrow := prefix_update frames (prefix_append (frames w.slot.activeBase) [bytes])
  have hhint : HintFor (frames w.slot.activeBase ++ [bytes])
      (w.slot.nextOffset, w.slot.activeBytes) := by
    rw [← hbase, h.tracked.extent]
    exact hintFor_snoc _ _
  have hold : ∀ b, ∀ e ∈ w.hints b, HintFor (update frames
      w.slot.activeBase (frames w.slot.activeBase ++ [bytes]) b) e :=
    fun b e he => (h.hints b e he).mono (hgrow b)
  obtain ⟨entries, hindex⟩ := h.activeIndex
  refine ⟨_, ?_, hgrow⟩
  rcases hcase with ⟨hhints, hdisk⟩ | ⟨hhints, hdisk⟩
  · -- No entry was due.
    refine writerInv_written h hflat hbatches (hindex.mono (prefix_append ..))
      hdisk ?_ hab hlen hnext.le fun _ => hnext
    rw [advance, hhints]
    exact hold
  · obtain ⟨entries', hindex'⟩ := hindex.extend (n := io.indexWrote)
      ⟨by omega, hrel, hpos⟩ hhint hio
    refine writerInv_written h hflat hbatches hindex' hdisk ?_ hab hlen hnext.le fun _ => hnext
    rw [advance, hhints]
    intro b e he
    rcases eq_or_ne b w.slot.activeBase with rfl | hb
    · rw [update_self] at he ⊢
      rcases mem_append.1 he with he | he
      · exact (h.hints _ e he).mono (prefix_append ..)
      · rw [mem_singleton.1 he]
        exact hhint
    · rw [update_of_ne hb] at he
      exact hold b e he

/-- The writer an append places with is explained by the same batches,
and keeps within the setting. -/
theorem writerInv_readied (defaultBytes : ℕ) (h : WriterInv crc frames w) (a : AppendArgs) (now : ℤ)
    (hrel : w.slot.nextOffset - w.slot.activeBase < 2 ^ 32) (hpos : w.slot.activeBytes < 2 ^ 32) :
    let base := w.slot.nextOffset
    let w₂ := (w.enterAppend a).1.readied defaultBytes (a.stored base) base now
    WriterInv crc frames w₂ ∧ w₂.slot.nextOffset = base ∧
      base - w₂.slot.activeBase < 2 ^ 32 ∧ w₂.slot.activeBytes < 2 ^ 32 := by
  intro base w₂
  obtain ⟨-, hext, hhints, hdisk⟩ := enterAppend_frame w a
  have h₁ : WriterInv crc frames (w.enterAppend a).1 := writerInv_congr h hext hhints hdisk
  by_cases hdue : rollDue defaultBytes (w.enterAppend a).1.slot (a.stored base).length now
  · have hw₂ : w₂ = (w.enterAppend a).1.roll base now := if_pos hdue
    have hroll := writerInv_roll h₁ hdue.1 now
    rw [hext.nextOffset] at hroll
    rw [hw₂]
    refine ⟨hroll, hext.nextOffset, ?_, ?_⟩
    · show base - base < 2 ^ 32
      omega
    · show 0 < 2 ^ 32
      decide
  · have hw₂ : w₂ = (w.enterAppend a).1 := if_neg hdue
    rw [hw₂, hext.activeBase, hext.activeBytes, hext.nextOffset]
    exact ⟨h₁, rfl, hrel, hpos⟩

/-- One append, in the setting. -/
theorem explained_append (defaultBytes : ℕ) (h : WriterInv crc frames w)
    (a : AppendArgs) (io : WriteIo) (hoff : w.slot.nextOffset < 2 ^ 63)
    (hrel : w.slot.nextOffset - w.slot.activeBase < 2 ^ 32) (hpos : w.slot.activeBytes < 2 ^ 32)
    (hwrote : io.wrote = 0 ∨ a.batch.bytes.length ≤ io.wrote)
    (hindex : io.indexWrote = 0 ∨ indexEntry ≤ io.indexWrote) :
    Explained crc frames (append crc defaultBytes w a io).1 := by
  obtain ⟨h₂, hnext, hrel₂, hpos₂⟩ := writerInv_readied defaultBytes h a io.now hrel hpos
  have hcases := append_cases crc defaultBytes w a io
  dsimp only at h₂ hnext hrel₂ hpos₂ hcases
  generalize (w.enterAppend a).1.readied defaultBytes
    (a.stored w.slot.nextOffset) w.slot.nextOffset io.now = w₂
    at h₂ hnext hrel₂ hpos₂ hcases
  rcases hcases with ⟨hr, -⟩ | ⟨-, hbatch, ⟨hp, hr⟩ | ⟨hp, hr⟩⟩
  · obtain ⟨-, hext, hhints, hdisk⟩ := enterAppend_frame w a
    rw [hr]
    exact explained_refused h hext hhints (.inl hdisk)
  · rw [hr]
    obtain ⟨-, ⟨-, hext, hhints, hdisk⟩ | hcase⟩ := place_cases w₂
      (a.stored w.slot.nextOffset) w.slot.nextOffset io
    · refine explained_refused h₂ hext hhints (hdisk.imp id fun hd => ?_)
      obtain ⟨hshort, hd⟩ := hd
      rw [AppendArgs.stored, stamp_length (isBatch_iff.1 hbatch).1] at hshort
      have hzero : io.wrote = 0 := hwrote.resolve_right (not_le.2 hshort)
      rwa [hzero, take_zero] at hd
    · rw [hp] at hcase
      cases hcase.1
  · rw [hr]
    have h0 : 0 ≤ w.slot.nextOffset := h.tracked.base_nonneg.trans h.tracked.base_le
    have hdelta := a.batch.delta_nonneg
    rw [← hnext] at hp ⊢
    refine explained_placed h₂ (isBatch_stamp hbatch) ?_ ?_ hpos₂ hindex ?_ hp
    · rw [hnext]
      exact baseOffset_stamp h0 hoff
    · rw [hnext]
      exact hrel₂
    · omega

-- ==== the run

/-- One event, in the setting and under the condition. -/
theorem storeInv_step (defaultBytes : ℕ) (h : StoreInv crc frames s) (op : StoreOp)
    (hset : InSetting crc home s op) (hkeep : KeepsIndex crc s op) :
    ∃ frames', StoreInv crc frames' (s.step crc defaultBytes home op) := by
  cases op with
  | touch proc =>
    obtain ⟨frames', h', -⟩ := storeInv_track h home proc
    exact ⟨frames', h'⟩
  | crash keepLog keepIndex keepTime =>
    exact ⟨frames, storeInv_crash h keepLog keepIndex keepTime hkeep⟩
  | append proc a io =>
    obtain ⟨frames₁, h₁, st, hst⟩ := storeInv_track h home proc
    obtain ⟨hoff, hrel, hpos, hwrote, hindex⟩ := hset st hst
    have hw : WriterInv crc frames₁ ⟨st,
        (s.track crc home proc).hints proc, (s.track crc home proc).disk⟩ :=
      ⟨h₁.filed, h₁.hints proc, h₁.tracked st hst⟩
    obtain ⟨frames', hw', hgrow⟩ :=
      explained_append defaultBytes hw a io hoff hrel hpos hwrote hindex
    refine ⟨frames', ?_⟩
    show StoreInv crc frames' (s.append crc defaultBytes home proc a io)
    rw [Store.append]
    simp only [hst]
    exact storeInv_put h₁ hw' hgrow proc

/-- Hints are sound in every state of every run whose crashes leave only
whole index entries that point into the log they leave. -/
theorem hints_sound (crc : List UInt8 → ℕ) (defaultBytes : ℕ) (home : Home) (ops : List StoreOp)
    (h : Run.EachStep (Store.step crc defaultBytes home) Store.fresh ops
      fun s op => InSetting crc home s op ∧ KeepsIndex crc s op) :
    Run.Always (Store.step crc defaultBytes home) Store.fresh ops (HintsSound crc) := by
  have hinv : Run.Always (step crc defaultBytes home) fresh ops
      fun s => ∃ frames, StoreInv crc frames s :=
    Run.Always.of_eachStep (fun s op hs hop => by
      obtain ⟨frames, hs⟩ := hs
      exact storeInv_step defaultBytes hs op hop.1 hop.2) ⟨_, storeInv_fresh⟩ h
  intro done hdone
  obtain ⟨frames, hs⟩ := hinv done hdone
  exact hs.hintsSound

-- ==== concrete runs

/-- The partition of the runs below. -/
def firstHome : Home := ⟨1, ⟨1, 0, Key.one_ne_zero⟩, 0⟩

/-- A batch of 101 bytes. -/
def longRecord : AppendArgs :=
  { oneRecord with
    batch := { oneRecord.batch with bytes := producedBatch 1 (List.replicate 40 0) } }

/-- Two processes append, a crash keeps `keepLog` bytes of the log and
`keepIndex` of the index, a longer batch follows, and a week later an
append rolls the segment. A restart that loses nothing then reads the
sealed segment's index. -/
def twoRestarts (keepLog keepIndex : ℕ) : List StoreOp :=
  [.append 1 oneRecord (ioAt 1 64), .append 2 oneRecord (ioAt 2 64),
   .crash keepLog (fun _ => keepIndex) (fun _ => 0),
   .append 1 longRecord (ioAt 3 101),
   .append 1 oneRecord (ioAt 604800004 64),
   .crash 64 (fun _ => 100) (fun _ => 100), .touch 1]

/-- The condition is met by a crash that tears the second batch and
loses its index entry. -/
theorem hints_sound_twoRestarts :
    Run.EachStep (Store.step crc32c 1073741824 firstHome) Store.fresh
      (twoRestarts 100 8) (fun s op => InSetting crc32c firstHome s op ∧ KeepsIndex crc32c s op) ∧
    Run.Always (Store.step crc32c 1073741824 firstHome) Store.fresh
      (twoRestarts 100 8) (HintsSound crc32c) := by
  have hok : Run.EachStep (step crc32c 1073741824 firstHome)
      fresh (twoRestarts 100 8) (fun s op =>
        InSetting crc32c firstHome s op ∧ KeepsIndex crc32c s op) := by
    decide +kernel
  exact ⟨hok, hints_sound crc32c 1073741824 firstHome _ hok⟩

/-- A crash that loses the log and keeps both index entries: the second
one, for offset 1 at byte 64, is handed out after the restart, and byte
64 is in the middle of the long batch. -/
theorem twoRestarts_hint_inside_batch :
    Run.EachStep (Store.step crc32c 1073741824 firstHome) Store.fresh
      (twoRestarts 0 16) (InSetting crc32c firstHome) ∧
    ¬ Run.Always (Store.step crc32c 1073741824 firstHome) Store.fresh
      (twoRestarts 0 16) (HintsSound crc32c) := by
  -- Evaluated together: the states the setting is checked in are the
  -- ones the last state is computed from.
  have hrun : Run.EachStep (step crc32c 1073741824 firstHome)
        fresh (twoRestarts 0 16) (InSetting crc32c firstHome) ∧
      (1, 64) ∈ ((twoRestarts 0 16).foldl
        (step crc32c 1073741824 firstHome) .fresh).hints 1 0 ∧
      readI64 ((((twoRestarts 0 16).foldl (step crc32c 1073741824 firstHome) .fresh).disk.file
          0).log.drop 64) baseOffsetOffset ≠ 1 := by
    decide +kernel
  obtain ⟨hset, hhint, hbytes⟩ := hrun
  refine ⟨hset, fun h => hbytes ?_⟩
  obtain ⟨x, hx, hpre, hbase⟩ := h (twoRestarts 0 16) (prefix_refl _) 1 0 (1, 64) hhint
  have hlen := (isBatch_iff.1 hx).1
  rw [readI64, field_of_begins hpre]
  · exact hbase
  · exact le_trans (by decide) hlen

end Kafgres.Segment
