/-
Reserving window rows before the bytes are down, stamping those that
landed and releasing those that did not.
-/
import Kafgres.Producer.Window
import Mathlib.Data.Finset.Card

namespace Kafgres.Producer

open Recency List Retained

/-- A row as it is reserved. -/
def Retained.unstamped (r : Retained) : Retained := { r with baseOffset := -1 }

/-- What stamping the offsets of `rows`, in order, makes of a row. -/
def assign (rows : List Retained) (r : Retained) : Retained :=
  rows.foldl (fun r x => if r.firstSeq = x.firstSeq then
    { r with baseOffset := x.baseOffset } else r) r

/-- Stamp each of `rows`. -/
def stampAll (w : Window) (rows : List Retained) : Window :=
  rows.foldl (fun w x => stamp w x.firstSeq x.baseOffset) w

/-- Release each of `rows`. -/
def releaseAll (w : Window) (rows : List Retained) : Window :=
  rows.foldl (fun w x => release w x.firstSeq) w

/-- What `check` calls a duplicate is a row of the window. -/
theorem check_duplicate_mem {w : Window} {epochStart epoch first last base : ℤ}
    (h : check w epochStart epoch first last = .duplicate base) :
    ⟨epoch, first, last, base⟩ ∈ w := by
  unfold check at h
  split at h
  · cases h
  next newest _ =>
  split at h
  · cases h
  split at h
  · split at h <;> cases h
  split at h
  · next dup hdup =>
      cases h
      have hmem := mem_of_find?_eq_some hdup
      have hrow := find?_some hdup
      simp only [Bool.and_eq_true, decide_eq_true_eq] at hrow
      obtain ⟨⟨he, hf⟩, hl⟩ := hrow
      have hepoch : epoch = dup.epoch := by omega
      rw [hepoch, ← hf, ← hl]
      exact hmem
  · split at h
    · cases h
    · split at h <;> cases h

-- ==== stamping

@[simp] theorem unstamped_firstSeq (r : Retained) : r.unstamped.firstSeq = r.firstSeq := rfl

theorem stampAll_eq (w : Window) (rows : List Retained) :
    stampAll w rows = w.map (assign rows) := by
  induction rows generalizing w with
  | nil => exact (map_id' w).symm
  | cons x rows ih =>
    rw [stampAll, foldl_cons]
    refine (ih _).trans ?_
    rw [stamp, map_map]
    rfl

theorem assign_snoc (rows : List Retained) (x r : Retained) :
    assign (rows ++ [x]) r = if (assign rows r).firstSeq = x.firstSeq then
          { assign rows r with baseOffset := x.baseOffset }
        else assign rows r := by
  rw [assign, foldl_append]
  rfl

/-- Stamping changes offsets only. -/
theorem assign_fixes (rows : List Retained) (r : Retained) :
    (assign rows r).epoch = r.epoch ∧ (assign rows r).firstSeq = r.firstSeq ∧
      (assign rows r).lastSeq = r.lastSeq := by
  induction rows using reverseRecOn with
  | nil => exact ⟨rfl, rfl, rfl⟩
  | append_singleton rows x ih =>
    rw [assign_snoc]
    split_ifs <;> exact ih

variable {rows : List Retained} {r : Retained}

theorem assign_of_notMem (h : r.firstSeq ∉ rows.map firstSeq) : assign rows r = r := by
  induction rows with
  | nil => rfl
  | cons x rows ih =>
    rw [map_cons, mem_cons, not_or] at h
    rw [assign, foldl_cons, if_neg h.1]
    exact ih h.2

/-- Reserve every row and stamp them all: the rows recorded with their
offsets. -/
theorem stamped_reservations (w : Window) (rows : List Retained) :
    stampAll ((rows.map unstamped).foldl record w) rows = rows.foldl record w := by
  rw [stampAll_eq]
  induction rows using reverseRecOn with
  | nil => exact map_id' w
  | append_singleton rows x ih =>
    -- The new row is stamped with its own offset; the others are not its.
    have hfilter : ∀ l : Window, (l.filter fun r => Decidable.decide (r.firstSeq ≠ x.firstSeq)).map
            (assign (rows ++ [x]))
          = (l.map (assign rows)).filter fun r =>
            Decidable.decide (r.firstSeq ≠ x.firstSeq) := by
      intro l
      rw [filter_map]
      have hsame : ((fun r : Retained => Decidable.decide (r.firstSeq ≠ x.firstSeq)) ∘ assign rows)
            = fun r => Decidable.decide (r.firstSeq ≠ x.firstSeq) := by
        funext r
        rw [Function.comp_apply, (assign_fixes rows r).2.1]
      rw [hsame]
      refine map_congr_left fun r hr => ?_
      have hne : r.firstSeq ≠ x.firstSeq := by
        simpa using (mem_filter.1 hr).2
      rw [assign_snoc, (assign_fixes rows r).2.1, if_neg hne]
    have hnew : assign (rows ++ [x]) x.unstamped = x := by
      obtain ⟨he, hf, hl⟩ := assign_fixes rows x.unstamped
      rw [assign_snoc, hf, if_pos (unstamped_firstSeq x)]
      cases hx : assign rows x.unstamped with
      | mk epoch first last base =>
        rw [hx] at he hf hl
        cases x
        simp_all [unstamped]
    rw [map_append, map_singleton, foldl_append, foldl_append, ← ih]
    simp only [foldl_cons, foldl_nil, record, put, upsert]
    rw [← newest_map, map_append, map_singleton, hnew, unstamped_firstSeq, hfilter]

-- ==== releasing

theorem releaseAll_eq (w : Window) (rows : List Retained) :
    releaseAll w rows = w.filter fun r =>
      !(Decidable.decide (r.firstSeq ∈ rows.map firstSeq) && r.baseOffset < 0) := by
  induction rows generalizing w with
  | nil => simp [releaseAll]
  | cons x rows ih =>
    rw [releaseAll, foldl_cons]
    refine (ih _).trans ?_
    rw [release, filter_filter]
    congr 1
    funext r
    simp only [map_cons, mem_cons]
    by_cases h₁ : r.firstSeq = x.firstSeq
    · simp [h₁]
      tauto
    · simp [h₁]

/-- What reserving `rows` leaves: the old rows they do not rewrite, then
the last of them for each first sequence, pruned. -/
theorem reserved_eq {w : Window} (hnodup : (w.map firstSeq).Nodup)
    (hlen : w.length ≤ retainedBatches) (rows : List Retained) :
    (rows.map unstamped).foldl record w
      = newest retainedBatches (w.filter (fun r => Decidable.decide
          (r.firstSeq ∉ rows.map firstSeq))
        ++ upserts firstSeq [] (rows.map unstamped)) := by
  have hkeys : (rows.map unstamped).map firstSeq
      = rows.map firstSeq := by
    rw [map_map]
    rfl
  refine (puts_eq_newest hnodup hlen _).trans ?_
  rw [upserts_eq, hkeys]

/-- The rows of a reservation are its own, unstamped. -/
theorem mem_reservation (h : r ∈ upserts firstSeq [] (rows.map unstamped)) :
    ∃ x ∈ rows, r = x.unstamped := by
  obtain ⟨x, hx, rfl⟩ := mem_map.1 (mem_upserts_nil h)
  exact ⟨x, hx, rfl⟩

theorem reservation_length (rows : List Retained) :
    (upserts firstSeq [] (rows.map unstamped)).length
      = (rows.map firstSeq).toFinset.card := by
  have hnodup : ((upserts firstSeq []
      (rows.map unstamped)).map firstSeq).Nodup :=
    upserts_keys_nodup _ nodup_nil
  rw [← length_map (f := firstSeq), ← toFinset_card_of_nodup hnodup]
  congr 1
  ext f
  rw [mem_toFinset, mem_toFinset]
  constructor
  · intro h
    obtain ⟨r, hr, rfl⟩ := mem_map.1 h
    obtain ⟨x, hx, rfl⟩ := mem_reservation hr
    exact mem_map.2 ⟨x, hx, rfl⟩
  · intro h
    obtain ⟨x, hx, rfl⟩ := mem_map.1 h
    have hkey := mem_keys_upserts firstSeq [] (mem_map_of_mem (f := unstamped) hx)
    exact hkey

/-- A row whose first sequence was reserved is one of the reserved rows,
as long as it is there. -/
theorem mem_reserved {w : Window} (hnodup : (w.map firstSeq).Nodup)
    (hlen : w.length ≤ retainedBatches) (hr : r ∈ (rows.map unstamped).foldl record w)
    (hf : r.firstSeq ∈ rows.map firstSeq) : ∃ x ∈ rows, r = x.unstamped := by
  rw [reserved_eq hnodup hlen] at hr
  rcases mem_append.1 ((newest_sublist ..).subset hr) with hr | hr
  · have := (mem_filter.1 hr).2
    simp [hf] at this
  · exact mem_reservation hr

/-- While there is room every reserved row is there. -/
theorem firstSeq_mem_reserved {w : Window} (hnodup : (w.map firstSeq).Nodup)
    (hlen : w.length ≤ retainedBatches)
    (hroom : ((rows.map unstamped).foldl record w).length
      < retainedBatches) {x : Retained} (hx : x ∈ rows) :
    x.firstSeq ∈ ((rows.map unstamped).foldl record w).map firstSeq := by
  have heq : (rows.map unstamped).foldl record w
      = newest retainedBatches (upserts firstSeq w
        (rows.map unstamped)) := puts_eq_newest hnodup hlen _
  rw [heq, newest_length] at hroom
  rw [heq, newest_of_le (by omega)]
  have hkey := mem_keys_upserts firstSeq w (mem_map_of_mem (f := unstamped) hx)
  exact hkey

section Undo

variable {w : Window} (hnodup : (w.map Retained.firstSeq).Nodup)
  (hlen : w.length ≤ retainedBatches) {landed lost : List Retained}

/-- The window after reserving the batches that landed, then those that
did not, stamping the former and releasing the latter. -/
def undone (w : Window) (landed lost : List Retained) : Window :=
  releaseAll (stampAll (((landed ++ lost).map Retained.unstamped).foldl record w) landed) lost

/-- What the lost batches were reserved after. -/
def keptFrom (w : Window) (landed : List Retained) : Window :=
  (landed.map Retained.unstamped).foldl record w

theorem undone_eq (w : Window) (landed lost : List Retained) :
    undone w landed lost = (((lost.map unstamped).foldl record
          (keptFrom w landed)).map (assign landed)).filter fun r =>
        !(Decidable.decide (r.firstSeq ∈ lost.map firstSeq) && r.baseOffset < 0) := by
  rw [undone, releaseAll_eq, stampAll_eq, map_append, foldl_append, keptFrom]

include hnodup hlen in
theorem keptFrom_wf (landed : List Retained) :
    ((keptFrom w landed).map firstSeq).Nodup ∧ (keptFrom w landed).length ≤ retainedBatches :=
  ⟨puts_keys_nodup _ hnodup, puts_length_le hlen _⟩

/-- A released row is gone, and an old one stays. -/
theorem filter_released (hlo : ∀ r ∈ lost, r.firstSeq ∉ landed.map firstSeq) {old : Window}
    (hold : ∀ r ∈ old, r.firstSeq ∉ lost.map firstSeq)
    {new : Window} (hnew : ∀ r ∈ new, ∃ x ∈ lost, r = x.unstamped) :
    ((old ++ new).map (assign landed)).filter (fun r =>
        !(Decidable.decide (r.firstSeq ∈ lost.map firstSeq) && r.baseOffset < 0))
      = old.map (assign landed) := by
  have hkeep : (old.map (assign landed)).filter (fun r =>
      !(Decidable.decide (r.firstSeq ∈ lost.map firstSeq)
        && r.baseOffset < 0)) = old.map (assign landed) := by
    refine filter_eq_self.2 fun r hr => ?_
    obtain ⟨x, hx, rfl⟩ := mem_map.1 hr
    rw [(assign_fixes landed x).2.1]
    simp [hold x hx]
  have hdrop : (new.map (assign landed)).filter (fun r =>
      !(Decidable.decide (r.firstSeq ∈ lost.map firstSeq) && r.baseOffset < 0)) = [] := by
    refine filter_eq_nil_iff.2 fun r hr => ?_
    obtain ⟨x, hx, rfl⟩ := mem_map.1 hr
    obtain ⟨y, hy, rfl⟩ := hnew x hx
    rw [assign_of_notMem (show y.unstamped.firstSeq ∉ _ from hlo y hy)]
    simp only [unstamped_firstSeq, mem_map_of_mem hy]
    simp [unstamped]
  rw [map_append, filter_append, hkeep, hdrop, append_nil]

include hnodup hlen in
/-- With room for every lost batch and no shared first sequence, the
release puts the window back. -/
theorem undone_of_room (hfresh : ∀ b ∈ lost, b.firstSeq ∉ (keptFrom w landed).map firstSeq)
    (hroom : keptFrom w landed = [] ∨ (keptFrom w landed).length
      + (lost.map firstSeq).toFinset.card ≤ retainedBatches) :
    undone w landed lost = landed.foldl record w := by
  obtain ⟨hkeys, hfits⟩ := keptFrom_wf hnodup hlen landed
  rw [← stamped_reservations w landed, stampAll_eq, undone_eq, reserved_eq hkeys hfits]
  show _ = (keptFrom w landed).map (assign landed)
  have hold : ∀ r ∈ keptFrom w landed, r.firstSeq ∉ lost.map firstSeq := by
    intro r hr hin
    obtain ⟨b, hb, hbr⟩ := mem_map.1 hin
    exact hfresh b hb (hbr ▸ mem_map_of_mem hr)
  have hfilter : (keptFrom w landed).filter (fun r => Decidable.decide
      (r.firstSeq ∉ lost.map firstSeq)) = keptFrom w landed :=
    filter_eq_self.2 fun r hr => decide_eq_true (hold r hr)
  rw [hfilter]
  rcases hroom with hnil | hroom
  · -- Nothing was there and nothing landed: every row left is released.
    have hlanded : landed = [] := by
      cases landed using reverseRecOn with
      | nil => rfl
      | append_singleton landed x =>
        exfalso
        rw [keptFrom, map_append, foldl_append] at hnil
        obtain ⟨u, hu⟩ : ∃ u, record _ x.unstamped = u ++ [x.unstamped] := put_eq_append (by decide)
            ((landed.map unstamped).foldl record w) x.unstamped
        exact append_ne_nil_of_right_ne_nil u (cons_ne_nil _ _) (hu.symm.trans hnil)
    rw [hnil, hlanded, nil_append]
    exact filter_released (by simp) (fun r hr => absurd hr not_mem_nil) fun r hr =>
        mem_reservation ((newest_sublist ..).subset hr)
  · rw [newest_of_le (by rw [length_append, reservation_length]; omega)]
    refine filter_released (fun b hb hin => ?_) hold fun r hr =>
      mem_reservation hr
    -- A lost batch cannot share its first sequence with one that landed:
    -- there was room left, so what landed is still there.
    obtain ⟨a, ha, hab⟩ := mem_map.1 hin
    have hone : 0 < (lost.map firstSeq).toFinset.card :=
      Finset.card_pos.2 ⟨b.firstSeq, by simpa using ⟨b, hb, rfl⟩⟩
    refine hfresh b hb (hab ▸ firstSeq_mem_reserved hnodup hlen ?_ ha)
    show (keptFrom w landed).length < retainedBatches
    omega

include hnodup hlen in
/-- A lost batch that shares a first sequence with the window it was
reserved after leaves a trace. -/
theorem fresh_of_undone (hdist : ∀ a ∈ landed, ∀ b ∈ lost, ¬ (a.epoch = b.epoch ∧
      a.firstSeq = b.firstSeq ∧ a.lastSeq = b.lastSeq))
    (h : undone w landed lost = landed.foldl record w) :
    ∀ b ∈ lost, b.firstSeq ∉ (keptFrom w landed).map firstSeq := by
  intro b hb hin
  obtain ⟨hkeys, hfits⟩ := keptFrom_wf hnodup hlen landed
  rw [← stamped_reservations w landed, stampAll_eq, undone_eq] at h
  obtain ⟨v, hv, hvb⟩ := mem_map.1 hin
  have hmem := mem_map_of_mem (f := assign landed) hv
  rw [show (keptFrom w landed).map (assign landed) = _ from h.symm] at hmem
  obtain ⟨hin', hkept⟩ := mem_filter.1 hmem
  obtain ⟨x, hx, hxv⟩ := mem_map.1 hin'
  obtain ⟨hve, hvf, hvl⟩ := assign_fixes landed v
  obtain ⟨hxe, hxf, hxl⟩ := assign_fixes landed x
  have hlost : v.firstSeq ∈ lost.map firstSeq := hvb ▸ mem_map_of_mem hb
  -- The surviving row is a reservation of a lost batch ...
  have hxf' : x.firstSeq = v.firstSeq := by
    rw [← hxf, hxv, hvf]
  obtain ⟨b', hb', rfl⟩ := mem_reserved hkeys hfits hx (hxf' ▸ hlost)
  -- ... that was stamped, so a batch that landed has its first sequence,
  by_cases hland : v.firstSeq ∈ landed.map firstSeq
  · -- and the window's own row is that batch's: the two are one batch.
    obtain ⟨a, ha, rfl⟩ := mem_reserved hnodup hlen hv hland
    refine hdist a ha b' hb' ⟨?_, ?_, ?_⟩
    · show a.unstamped.epoch = b'.unstamped.epoch
      rw [← hve, ← hxv, hxe]
    · exact hxf'.symm
    · show a.unstamped.lastSeq = b'.unstamped.lastSeq
      rw [← hvl, ← hxv, hxl]
  · rw [hvf, ← hxv, assign_of_notMem (by rw [hxf']; exact hland)] at hkept
    simp [hlost, unstamped] at hkept

include hnodup hlen in
/-- Without room, reserving pushed out the oldest row. -/
theorem room_of_undone (hfresh : ∀ b ∈ lost, b.firstSeq ∉ (keptFrom w landed).map firstSeq)
    (h : undone w landed lost = landed.foldl record w) :
    keptFrom w landed = [] ∨ (keptFrom w landed).length
      + (lost.map firstSeq).toFinset.card ≤ retainedBatches := by
  obtain ⟨hkeys, hfits⟩ := keptFrom_wf hnodup hlen landed
  rw [← stamped_reservations w landed, stampAll_eq, undone_eq, reserved_eq hkeys hfits] at h
  replace h : _ = (keptFrom w landed).map (assign landed) := h
  have hold : ∀ r ∈ keptFrom w landed, r.firstSeq ∉ lost.map firstSeq := by
    intro r hr hin
    obtain ⟨b, hb, hbr⟩ := mem_map.1 hin
    exact hfresh b hb (hbr ▸ mem_map_of_mem hr)
  cases hkept : keptFrom w landed with
  | nil => exact .inl rfl
  | cons oldest rest =>
    refine .inr (not_lt.1 fun hfull => ?_)
    rw [hkept] at h hold hkeys
    -- The oldest row is followed by a full window's worth of others.
    rw [filter_eq_self.2 (fun r hr => decide_eq_true (hold r hr)),
      cons_append, ← singleton_append, newest_append_of_le _ (by
        rw [length_append, reservation_length]
        rw [length_cons] at hfull
        omega)] at h
    have hmem : assign landed oldest ∈ (oldest :: rest).map (assign landed) :=
      mem_map_of_mem (.head _)
    rw [← h] at hmem
    obtain ⟨x, hx, hxo⟩ := mem_map.1 (mem_filter.1 hmem).1
    have hfirst : x.firstSeq = oldest.firstSeq := by
      rw [← (assign_fixes landed x).2.1, hxo, (assign_fixes landed oldest).2.1]
    rcases mem_append.1 ((newest_sublist ..).subset hx) with hx | hx
    · rw [map_cons, nodup_cons] at hkeys
      exact hkeys.1 (hfirst ▸ mem_map_of_mem hx)
    · obtain ⟨b, hb, rfl⟩ := mem_reservation hx
      have hlost := mem_map_of_mem (f := firstSeq) hb
      exact hold oldest (.head _) (hfirst ▸ hlost)

include hnodup hlen in
/-- The exact condition under which releasing the lost batches leaves
only what landed: none of them shares a first sequence with the window
they were reserved after, and there was room for all of them. -/
theorem undone_iff (hdist : ∀ a ∈ landed, ∀ b ∈ lost,
      ¬ (a.epoch = b.epoch ∧ a.firstSeq = b.firstSeq ∧ a.lastSeq = b.lastSeq)) :
    undone w landed lost = landed.foldl record w ↔ (∀ b ∈ lost, b.firstSeq ∉
        (keptFrom w landed).map firstSeq) ∧
      (keptFrom w landed = [] ∨ (keptFrom w landed).length
        + (lost.map firstSeq).toFinset.card ≤ retainedBatches) := by
  constructor
  · intro h
    have hfresh := fresh_of_undone hnodup hlen hdist h
    exact ⟨hfresh, room_of_undone hnodup hlen hfresh h⟩
  · rintro ⟨hfresh, hroom⟩
    exact undone_of_room hnodup hlen hfresh hroom

end Undo

end Kafgres.Producer
