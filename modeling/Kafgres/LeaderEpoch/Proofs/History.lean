/-
The entries of an epoch history, and what its queries find.
-/
import Kafgres.LeaderEpoch.History

namespace Kafgres.LeaderEpoch

open List Table

variable {h : History} {epoch start e : ℤ} {r : Entry}

theorem mem_recordEntry :
    r ∈ (recordEntry h epoch start).rows ↔
      r = ⟨epoch, start⟩ ∨ (r ∈ h.rows ∧ r.leaderEpoch ≠ epoch ∧
        ¬ (start ≤ r.startOffset ∧ r.leaderEpoch < epoch)) := by
  have hgone : ∀ r : Entry, (decide (start ≤ r.startOffset)
      && decide (r.leaderEpoch < epoch)) = false ↔
      ¬ (start ≤ r.startOffset ∧ r.leaderEpoch < epoch) := by
    intro r
    simp
  constructor
  · intro hr
    rcases upsert_cases hr with ⟨hr, hne⟩ | ⟨rfl, -⟩ | ⟨r₀, -, hk, rfl⟩
    · obtain ⟨hmem, hkept⟩ := mem_delete.1 hr
      exact .inr ⟨hmem, hne, (hgone r).1 hkept⟩
    · exact .inl rfl
    · cases r₀
      cases hk
      exact .inl rfl
  · intro hr
    have hfind := fun k => find?_upsert (h.delete fun r => decide (start ≤ r.startOffset)
        && decide (r.leaderEpoch < epoch)) ⟨epoch, start⟩
      (fun r => { r with startOffset := start }) (fun _ => rfl) k
    rcases hr with rfl | ⟨hmem, hne, hkept⟩
    · have hnew := hfind epoch
      rw [if_pos rfl] at hnew
      cases hold : (h.delete fun r => decide (start ≤ r.startOffset)
          && decide (r.leaderEpoch < epoch)).find? epoch with
      | none =>
        rw [hold] at hnew
        exact (find?_eq_some.1 hnew).1
      | some r₀ =>
        rw [hold] at hnew
        obtain ⟨-, hk⟩ := find?_eq_some.1 hold
        cases r₀
        cases hk
        exact (find?_eq_some.1 hnew).1
    · have hold := hfind r.leaderEpoch
      rw [if_neg hne] at hold
      have hstill : r ∈ (h.delete fun r => decide (start ≤ r.startOffset)
          && decide (r.leaderEpoch < epoch)).rows :=
        mem_delete.2 ⟨hmem, (hgone r).2 hkept⟩
      rw [find?_eq_some.2 ⟨hstill, rfl⟩] at hold
      exact (find?_eq_some.1 hold).1

/-- What `epoch_end_offset` of an epoch below the present one finds: past
the latest epoch not above it, the start of some recorded epoch above
it, and no recorded epoch above it begins lower. -/
theorem minStart_spec (hm : matched h epoch = some e) (logEnd : ℤ) :
    (∀ r ∈ h.rows, epoch < r.leaderEpoch → (minStart h e).getD logEnd ≤ r.startOffset) ∧
    ((minStart h e).getD logEnd = logEnd ∨ ∃ r ∈ h.rows,
      epoch < r.leaderEpoch ∧ (minStart h e).getD logEnd = r.startOffset) := by
  have hle : e ≤ epoch := by
    obtain ⟨r, hr, rfl⟩ := mem_map.1 (max?_mem hm)
    simpa using (mem_filter.1 hr).2
  -- a recorded epoch above the matched one is above the one asked for
  have habove : ∀ r ∈ h.rows, e < r.leaderEpoch → epoch < r.leaderEpoch := by
    intro r hr hlt
    by_contra hno
    have hmem : r.leaderEpoch ∈ (h.rows.filter fun r =>
        r.leaderEpoch ≤ epoch).map (·.leaderEpoch) :=
      mem_map_of_mem (mem_filter.2 ⟨hr, by simpa using hno⟩)
    exact absurd ((max?_eq_some_iff.1 hm).2 _ hmem) (by omega)
  unfold minStart
  cases hmin : ((h.rows.filter fun r => e < r.leaderEpoch).map (·.startOffset)).min? with
  | none =>
    rw [min?_eq_none_iff, map_eq_nil_iff, filter_eq_nil_iff] at hmin
    refine ⟨fun r hr hlt => ?_, .inl rfl⟩
    exact absurd (by simpa using lt_of_le_of_lt hle hlt) (hmin r hr)
  | some low =>
    constructor
    · intro r hr hlt
      have hmem : r.startOffset ∈ (h.rows.filter fun r =>
          e < r.leaderEpoch).map (·.startOffset) :=
        mem_map_of_mem (mem_filter.2 ⟨hr, by simpa using lt_of_le_of_lt hle hlt⟩)
      exact (min?_eq_some_iff.1 hmin).2 _ hmem
    · right
      obtain ⟨r, hr, hs⟩ := mem_map.1 (min?_mem hmin)
      obtain ⟨hmem, hlt⟩ := mem_filter.1 hr
      exact ⟨r, hmem, habove r hmem (by simpa using hlt), hs.symm⟩

end Kafgres.LeaderEpoch
