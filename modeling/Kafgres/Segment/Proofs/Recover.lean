/-
What a restart makes of the active segment's file.
-/
import Kafgres.Codec.Crc32c
import Kafgres.Segment.Proofs.Scan

namespace Kafgres.Segment

open Storage Codec Bytes List

variable {crc : List UInt8 → ℕ}

-- ==== the time index

/-- The loop reads whole entries, and stops at the same one when
nothing follows those it kept. -/
theorem timeIndexLoop_kept (base next : ℤ) (fuel : ℕ) (bs : List UInt8) (kept : ℕ) (last : ℤ) :
    ∃ n l, n ≤ bs.length ∧
      timeIndexLoop base next fuel bs kept last = (kept + n, l) ∧
      ∀ fuel', n ≤ fuel' → timeIndexLoop base next fuel' (bs.take n) kept last = (kept + n, l) := by
  induction fuel generalizing bs kept last with
  | zero =>
    refine ⟨0, last, Nat.zero_le _, rfl, fun fuel' _ => ?_⟩
    cases fuel' <;> simp [timeIndexLoop]
  | succ fuel ih =>
    have hstop : ∀ fuel', 0 ≤ fuel' → timeIndexLoop base next fuel'
        (bs.take 0) kept last = (kept + 0, last) := by
      intro fuel' _
      cases fuel' <;> simp [timeIndexLoop]
    rw [timeIndexLoop]
    split
    next hlen =>
      split
      · exact ⟨0, last, Nat.zero_le _, rfl, hstop⟩
      next hlt =>
      obtain ⟨n, l, hn, hrun, hagain⟩ := ih (bs.drop 12) (kept + 12) (readI64 bs 0)
      rw [length_drop] at hn
      refine ⟨12 + n, l, by omega, by rw [hrun, Nat.add_assoc], ?_⟩
      intro fuel' hfuel
      obtain ⟨fuel', rfl⟩ : ∃ k, fuel' = k + 1 := ⟨fuel' - 1, by omega⟩
      have hpre : bs.take (12 + n) <+: bs := take_prefix ..
      have hfront : 12 ≤ (bs.take (12 + n)).length := by
        rw [length_take]
        omega
      rw [timeIndexLoop, if_pos hfront, ← field_of_begins hpre (by omega), if_neg hlt, readI64,
        ← field_of_begins hpre (by omega), drop_take,
        Nat.add_sub_cancel_left, ← Nat.add_assoc]
      exact hagain fuel' (by omega)
    next => exact ⟨0, last, Nat.zero_le _, rfl, hstop⟩

/-- Cutting the time index a second time changes nothing. -/
theorem truncateTimeIndex_again (base next : ℤ) (bs : List UInt8) :
    truncateTimeIndex base next (truncateTimeIndex base next bs).1
      = truncateTimeIndex base next bs := by
  obtain ⟨n, l, hn, hrun, hagain⟩ := timeIndexLoop_kept base next bs.length bs 0 i64Min
  have hcut : truncateTimeIndex base next bs = (bs.take n, l) := by
    simp [truncateTimeIndex, hrun]
  rw [hcut, truncateTimeIndex, hagain _ (by simp [hn])]
  simp

-- ==== recovery

/-- What begins inside a batch and ends before it does begins with no
batch. -/
theorem not_begins_of_torn {x tail : List UInt8} (hx : IsBatch crc x)
    (hpre : tail <+: x) (hne : tail ≠ x) : ∀ y, IsBatch crc y → ¬ y <+: tail := by
  intro y hy hyt
  obtain rfl := isBatch_selfDelimiting crc y x x hy hx (hyt.trans hpre) (prefix_refl x)
  exact hne (hpre.eq_of_length_le hyt.length_le)

/-- A restart finds the active segment's file to be whole batches and
then a torn one, or bytes no batch begins. It keeps the whole batches,
takes the log end and the hints from them, the first of which is for the
first batch, and would do the same again. -/
theorem recover_keeps_whole {d : Disk} {base : ℤ} {fs : List (List UInt8)} {tail : List UInt8}
    (hlast : (segmentBases d).getLast? = some base) (hlog : (d.file base).log = fs.flatten ++ tail)
    (hb : ∀ x ∈ fs, IsBatch crc x)
    (htail : (∃ x, IsBatch crc x ∧ tail <+: x ∧ tail ≠ x) ∨ ∀ x, IsBatch crc x → ¬ x <+: tail) :
    let r := recover crc d
    (r.2.2.file base).log = fs.flatten ∧ r.1.activeBytes = fs.flatten.length ∧
      r.1.nextOffset = endOffset base fs ∧
      (∀ e ∈ r.2.1 base, HintFor fs e) ∧
      (r.2.1 base).head? = fs.head?.map (fun x => (baseOffset x, 0)) ∧ recover crc r.2.2 = r := by
  have hnone : ∀ x, IsBatch crc x → ¬ x <+: tail := by
    rcases htail with ⟨x, hx, hpre, hne⟩ | hnone
    · exact not_begins_of_torn hx hpre hne
    · exact hnone
  obtain ⟨hfold, hscan⟩ := readSegment_frames base hb hnone
  rw [← hlog] at hfold hscan
  rw [← hfold] at hscan
  have hkeep : (d.file base).log.take (readSegment crc base
      (d.file base).log).pos = fs.flatten := by
    rw [hscan.pos, hlog, take_left]
  -- a second scan is the same fold
  have hagain : readSegment crc base fs.flatten = readSegment crc base (d.file base).log := by
    rw [hfold, ← (readSegment_frames base hb not_begins_nil).1, append_nil]
  have hlast' : ∀ f, (segmentBases (d.setFile base f)).getLast? = some base := fun _ => hlast
  have hfile : ∀ f, (d.setFile base f).file base = f := fun f =>
    Function.update_self ..
  refine ⟨?_, ?_, ?_, ?_, ?_, ?_⟩
  · simp only [recover, hlast, hfile, hkeep]
  · simp [recover, hlast, hscan.pos]
  · simp [recover, hlast, hscan.next]
  · simpa [recover, hlast] using hscan.hints
  · simpa [recover, hlast] using hscan.first
  · simp only [recover, hlast, hlast', hfile, hkeep, hagain, truncateTimeIndex_again]
    refine Prod.ext rfl (Prod.ext (funext fun b => ?_) ?_)
    · by_cases hbb : b = base
      · simp [hbb]
      · simp [hbb, Disk.setFile]
    · rw [hscan.pos, take_length]
      simp [Disk.setFile]

def oneRecordBatch : List UInt8 := producedBatch 1 [14, 0, 0, 0, 1, 2, 1, 0]

/-- One batch and most of another. -/
def tornDisk : Disk where
  names := [0]
  file := fun _ => { log := oneRecordBatch ++ oneRecordBatch.take 60 }

theorem recover_keeps_whole_torn :
    ((recover crc32c tornDisk).2.2.file 0).log = oneRecordBatch ∧
    (recover crc32c tornDisk).1.nextOffset = 1 := by
  have hbatch : IsBatch crc32c oneRecordBatch := by decide +kernel
  obtain ⟨hlog, -, hnext, -⟩ := @recover_keeps_whole crc32c tornDisk 0
    [oneRecordBatch] (oneRecordBatch.take 60) rfl (by simp [tornDisk])
    (by simpa using hbatch)
    (.inl ⟨_, hbatch, take_prefix .., by decide +kernel⟩)
  refine ⟨hlog.trans (by simp), hnext.trans ?_⟩
  decide +kernel

end Kafgres.Segment
