/-
A table of rows with a key, kept in insertion order and pruned to the
newest few: what `INSERT ... ON CONFLICT DO UPDATE` on a recency column
followed by a prune leaves of a table read back in that column's order.
-/
import Mathlib.Data.List.Induction
import Mathlib.Data.List.Nodup

namespace Recency

open List

variable {α κ : Type} [DecidableEq κ] {key : α → κ} {n : ℕ} {v : List α}

/-- Write `r` at the newest end, replacing the row with its key. -/
def upsert (key : α → κ) (l : List α) (r : α) : List α :=
  l.filter (fun x => decide (key x ≠ key r)) ++ [r]

/-- Keep the newest `n` rows. -/
def newest (n : ℕ) (l : List α) : List α := l.drop (l.length - n)

/-- Write a row, then prune. -/
def put (n : ℕ) (key : α → κ) (l : List α) (r : α) : List α := newest n (upsert key l r)

/-- Pruning takes from the old end first. -/
theorem newest_append (u : List α) (h : v.length ≤ n) :
    newest n (u ++ v) = newest (n - v.length) u ++ v := by
  simp only [newest, length_append]
  rw [drop_append_of_le_length (by omega)]
  congr 2
  omega

theorem newest_sublist (n : ℕ) (l : List α) : (newest n l).Sublist l := drop_sublist ..

/-- The row just written is the newest. -/
theorem put_eq_append (hn : 1 ≤ n) (l : List α) (r : α) : ∃ u, put n key l r = u ++ [r] :=
  ⟨_, newest_append _ (by simpa using hn)⟩

variable {l : List α} {rows u : List α} {r x : α}

/-- Keys stay distinct. -/
theorem upsert_keys_nodup (r : α) (h : (l.map key).Nodup) : ((upsert key l r).map key).Nodup := by
  rw [upsert, map_append, map_singleton, nodup_append]
  refine ⟨(filter_sublist.map key).nodup h, nodup_singleton _, ?_⟩
  intro a ha b hb
  obtain ⟨x, hx, rfl⟩ := mem_map.1 ha
  rw [mem_singleton] at hb
  simpa [hb] using (mem_filter.1 hx).2

theorem put_keys_nodup (r : α) (h : (l.map key).Nodup) : ((put n key l r).map key).Nodup :=
  ((newest_sublist ..).map key).nodup (upsert_keys_nodup r h)

theorem mem_put (h : x ∈ put n key l r) : x = r ∨ (x ∈ l ∧ key x ≠ key r) := by
  rcases mem_append.1 ((newest_sublist ..).subset h) with h | h
  · have hne := (mem_filter.1 h).2
    exact .inr ⟨(mem_filter.1 h).1, by simpa using hne⟩
  · exact .inl (mem_singleton.1 h)

/-- A row is one of those put, or an old one whose key was not put. -/
theorem mem_puts (h : x ∈ rows.foldl (put n key) l) :
    x ∈ rows ∨ (x ∈ l ∧ key x ∉ rows.map key) := by
  induction rows generalizing l with
  | nil => exact .inr ⟨h, not_mem_nil⟩
  | cons r rows ih =>
    rcases ih h with hx | ⟨hx, hkey⟩
    · exact .inl (.tail _ hx)
    rcases mem_put hx with rfl | ⟨hx, hne⟩
    · exact .inl (.head _)
    refine .inr ⟨hx, fun hmem => ?_⟩
    rcases mem_cons.1 hmem with heq | hmem
    · exact hne heq
    · exact hkey hmem

theorem puts_keys_nodup (rows : List α) (h : (l.map key).Nodup) :
    ((rows.foldl (put n key) l).map key).Nodup := by
  induction rows generalizing l with
  | nil => exact h
  | cons r rows ih => exact ih (put_keys_nodup r h)

/-- One write of another key leaves a row in place and at most one row
further from the newest end. -/
theorem put_keeps (hk : key x ≠ key r) (hn : v.length + 2 ≤ n) :
    ∃ u' v', put n key (u ++ r :: v) x = u' ++ r :: v' ∧ v'.length ≤ v.length + 1 := by
  have hlen := List.length_filter_le (fun y => decide (key y ≠ key x)) v
  have hup : upsert key (u ++ r :: v) x = u.filter (fun y => decide (key y ≠ key x)) ++
        (r :: (v.filter (fun y => decide (key y ≠ key x)) ++ [x])) := by
    simp [upsert, hk.symm]
  rw [put, hup, newest_append _ (by simp only [List.length_cons,
    List.length_append, List.length_nil]; omega)]
  exact ⟨_, _, rfl, by simpa using hlen⟩

/-- The retention law: `n - 1` writes of other keys leave a row in the
table. -/
theorem puts_keep (rows : List α) (hk : ∀ x ∈ rows, key x ≠ key r)
    (hn : v.length + rows.length + 1 ≤ n) : r ∈ rows.foldl (put n key) (u ++ r :: v) := by
  induction rows generalizing u v with
  | nil => simp
  | cons x rows ih =>
    simp only [length_cons] at hn
    obtain ⟨u', v', hput, hv⟩ := put_keeps (u := u) (v := v) (n := n) (hk x (.head _)) (by omega)
    rw [foldl_cons, hput]
    exact ih (fun y hy => hk y (.tail _ hy)) (by omega)

-- ==== whole runs

/-- Write the rows in order, without pruning. -/
def upserts (key : α → κ) (l rows : List α) : List α := rows.foldl (upsert key) l

/-- Old rows survive unless rewritten, and come before the new ones. -/
theorem upserts_eq (l rows : List α) :
    upserts key l rows
      = l.filter (fun x => decide (key x ∉ rows.map key)) ++ upserts key [] rows := by
  induction rows using reverseRecOn with
  | nil => simp [upserts]
  | append_singleton rows r ih =>
    have hsnoc : ∀ l, upserts key l (rows ++ [r]) = upsert key (upserts key l rows) r := fun l => by
      rw [upserts, foldl_append]
      rfl
    rw [hsnoc, hsnoc, ih, upsert, upsert, filter_append, filter_filter, append_assoc]
    congr 2
    ext x
    simp only [map_append, map_singleton, mem_append,
      mem_singleton, ← Bool.decide_and, decide_eq_decide]
    tauto

theorem mem_upserts_nil (h : x ∈ upserts key [] rows) : x ∈ rows := by
  induction rows using reverseRecOn with
  | nil => exact h
  | append_singleton rows r ih =>
    rw [upserts, foldl_append] at h
    rcases mem_append.1 h with h | h
    · exact mem_append_left _ (ih (mem_of_mem_filter h))
    · exact mem_append_right _ h

theorem upserts_keys_nodup (rows : List α) (h : (l.map key).Nodup) :
    ((upserts key l rows).map key).Nodup := by
  induction rows generalizing l with
  | nil => exact h
  | cons r rows ih => exact ih (upsert_keys_nodup r h)

/-- Every key written is there. -/
theorem mem_keys_upserts (key : α → κ) (l : List α) (h : r ∈ rows) :
    key r ∈ (upserts key l rows).map key := by
  induction rows using reverseRecOn with
  | nil => cases h
  | append_singleton rows x ih =>
    rw [upserts, foldl_append]
    show key r ∈ (upsert key (upserts key l rows) x).map key
    rw [upsert, map_append, map_singleton]
    by_cases hk : key r = key x
    · rw [hk]
      exact mem_append_right _ (mem_singleton_self _)
    rcases mem_append.1 h with h | h
    · obtain ⟨y, hy, hyk⟩ := mem_map.1 (ih h)
      refine mem_append_left _ (mem_map.2 ⟨y, ?_, hyk⟩)
      exact mem_filter.2 ⟨hy, by simpa [hyk] using hk⟩
    · exact absurd (by rw [mem_singleton.1 h]) hk

theorem newest_of_le (h : l.length ≤ n) : newest n l = l := by
  rw [newest, Nat.sub_eq_zero_of_le h, drop_zero]

theorem newest_length (n : ℕ) (l : List α) : (newest n l).length = min n l.length := by
  rw [newest, length_drop]
  omega

/-- The newest rows of a long enough end are those of the end. -/
theorem newest_append_of_le (u : List α) (h : n ≤ v.length) : newest n (u ++ v) = newest n v := by
  rw [newest, newest, length_append, drop_append, drop_eq_nil_of_le (by omega), nil_append]
  congr 1
  omega

theorem newest_map {β : Type} (f : α → β) (n : ℕ) (l : List α) :
    newest n (l.map f) = (newest n l).map f := by
  rw [newest, newest, length_map, map_drop]

/-- A write replaces at most one row. -/
theorem length_le_filter_ne (h : (l.map key).Nodup) (r : α) :
    l.length ≤ (l.filter fun x => decide (key x ≠ key r)).length + 1 := by
  induction l with
  | nil => exact Nat.zero_le _
  | cons x l ih =>
    rw [map_cons, nodup_cons] at h
    by_cases hk : key x = key r
    · have hall : l.filter (fun x => decide (key x ≠ key r)) = l := by
        refine filter_eq_self.2 fun y hy => decide_eq_true fun hy' => ?_
        exact h.1 (mem_map.2 ⟨y, hy, hy'.trans hk.symm⟩)
      rw [filter_cons_of_neg (by simpa using hk), hall]
      exact Nat.le_refl _
    · rw [filter_cons_of_pos (by simpa using hk), length_cons, length_cons]
      exact Nat.succ_le_succ (ih h.2)

/-- Pruning before a write does not change what is left after it. -/
theorem put_newest (h : (l.map key).Nodup) (r : α) : put n key (newest n l) r = put n key l r := by
  by_cases hlen : l.length ≤ n
  · rw [newest_of_le hlen]
  have hsplit : l = l.take (l.length - n) ++ newest n l := (take_append_drop ..).symm
  have hnodup : ((newest n l).map key).Nodup := ((newest_sublist n l).map key).nodup h
  have hnew := length_le_filter_ne hnodup r
  rw [newest_length] at hnew
  have hup : upsert key l r = (l.take (l.length - n)).filter
      (fun x => decide (key x ≠ key r)) ++ upsert key (newest n l) r := by
    conv_lhs => rw [hsplit]
    rw [upsert, upsert, filter_append, append_assoc]
  rw [put, put, hup, newest_append_of_le]
  rw [upsert, length_append, length_singleton]
  omega

/-- A run of writes keeps the newest rows of the unpruned table. -/
theorem puts_eq_newest (h : (l.map key).Nodup) (hlen : l.length ≤ n) (rows : List α) :
    rows.foldl (put n key) l = newest n (upserts key l rows) := by
  induction rows using reverseRecOn with
  | nil => exact (newest_of_le hlen).symm
  | append_singleton rows r ih =>
    rw [foldl_append, ih, foldl_cons, foldl_nil,
      put_newest (upserts_keys_nodup rows h), put, upserts, upserts,
      foldl_append]
    rfl

theorem puts_length_le (hlen : l.length ≤ n) (rows : List α) :
    (rows.foldl (put n key) l).length ≤ n := by
  induction rows generalizing l with
  | nil => exact hlen
  | cons r rows ih =>
    refine ih ?_
    rw [put, newest_length]
    exact Nat.min_le_left ..

end Recency
