/-
`kafgres_offsets` as a map: for each group and partition the offset last
written, if it has not been deleted.
-/
import Kafgres.Txn.Coordinator

namespace Kafgres.Txn

open List

/-- The row under a key. -/
def stored (rows : List Staged) : OffsetKey → Option OffsetCommit := fun k =>
  (rows.find? fun r => r.1 = k).map (·.2)

theorem stored_upsert (row : Staged) (rows : List Staged) :
    stored (upsert row rows) = Function.update (stored rows) row.1 (some row.2) := by
  funext k
  rw [Function.update_apply]
  unfold stored
  induction rows with
  | nil =>
    unfold upsert
    by_cases hk : k = row.1
    · simp [hk]
    · simp [hk, Ne.symm hk]
  | cons r rest ih =>
    unfold upsert
    by_cases hr : r.1 = row.1
    · rw [if_pos hr]
      by_cases hk : k = row.1
      · simp [hk]
      · simp [hk, Ne.symm hk, hr]
    · rw [if_neg hr]
      by_cases hk : r.1 = k
      · simp [hk, hk ▸ hr]
      · simpa [hk] using ih

variable (gone : OffsetKey → Prop) [DecidablePred gone] (rows : List Staged)

theorem stored_filter :
    stored (rows.filter fun r => ¬ gone r.1) =
    fun k => if decide (gone k) then none else stored rows k := by
  funext k
  unfold stored
  rw [find?_filter]
  split
  next hk =>
    rw [find?_eq_none.2]
    · rfl
    intro r _ h
    simp only [decide_eq_true_eq] at h hk
    exact h.1 (h.2 ▸ hk)
  next hk =>
    congr 2
    funext r
    by_cases hr : r.1 = k
    · simp [hr, hk]
    · simp [hr]

/-- Only what there was can be deleted. -/
theorem stored_filter_eq_or (k : OffsetKey) :
    stored (rows.filter fun r => ¬ gone r.1) k = stored rows k ∨ ∃ r ∈ rows, r.1 = k ∧ gone k := by
  rw [stored_filter]
  by_cases hk : gone k
  · cases hf : rows.find? fun r => r.1 = k with
    | none =>
      refine .inl ?_
      show (if decide (gone k) then none else stored rows k) = stored rows k
      unfold stored
      rw [if_pos (decide_eq_true hk), hf]
      rfl
    | some r =>
      have hkey : r.1 = k := by simpa using find?_some hf
      exact .inr ⟨r, mem_of_find?_eq_some hf, hkey, hk⟩
  · exact .inl (if_neg (by simpa using hk))

/-- Rows written over others change only their own keys. -/
theorem stored_applied_of_notMem {rows : List Staged} {k : OffsetKey}
    (h : ∀ r ∈ rows, r.1 ≠ k) (old : List Staged) :
    stored (rows.foldl (fun rows row => upsert row rows) old) k = stored old k := by
  induction rows generalizing old with
  | nil => rfl
  | cons row rest ih =>
    rw [foldl_cons, ih fun r hr => h r (.tail _ hr), stored_upsert,
      Function.update_of_ne (h row mem_cons_self).symm]

end Kafgres.Txn
