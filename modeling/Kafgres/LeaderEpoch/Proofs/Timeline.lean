/-
Leader epochs grow from start to start. An epoch minted under timeline
`t` is one of the 65536 from `(t - 1) * 65536` on, and no partition is
past those of the row's timeline.
-/
import Kafgres.Lib.Run
import Kafgres.LeaderEpoch.Timeline

namespace Kafgres.LeaderEpoch.Epochs

open List Run

variable {s : Epochs} {t wal : ℤ} {op : EpochOp}

theorem firstEpoch_eq (h : 1 ≤ t) (h' : t < 2 ^ 15) : firstEpoch t = (t - 1) * 65536 := by
  unfold firstEpoch epochsPerTimeline
  omega

/-- The epoch after `c` in a timeline `c` is not past. -/
theorem nextLeaderEpoch_spec {c : ℤ} (h : 1 ≤ t) (h' : t < 2 ^ 15) (hc : 0 ≤ c)
    (hlt : c < t * epochsPerTimeline) :
    (t - 1) * epochsPerTimeline ≤ nextLeaderEpoch c t ∧
    nextLeaderEpoch c t < t * epochsPerTimeline ∧ c ≤ nextLeaderEpoch c t ∧
    (c < nextLeaderEpoch c t ∨ c = t * epochsPerTimeline - 1) := by
  unfold nextLeaderEpoch
  rw [firstEpoch_eq h h', Int.tmod_eq_emod_of_nonneg hc]
  unfold epochsPerTimeline at hlt ⊢
  split_ifs <;> omega

theorem le_highest {p : PartitionEpoch} (hp : p ∈ s.partitions) : p.leaderEpoch ≤ s.highest := by
  unfold highest
  cases hmax : (s.partitions.map (·.leaderEpoch)).max? with
  | none =>
    rw [max?_eq_none_iff, map_eq_nil_iff] at hmax
    simp [hmax] at hp
  | some m => exact (max?_eq_some_iff.1 hmax).2 _ (mem_map_of_mem hp)

theorem Consistent.highest (h : s.Consistent) : 0 ≤ s.highest ∧ s.highest < 2 ^ 31 := by
  unfold Epochs.highest
  cases hmax : (s.partitions.map (·.leaderEpoch)).max? with
  | none => decide
  | some m =>
    obtain ⟨p, hp, rfl⟩ := mem_map.1 (max?_mem hmax)
    exact h.range p hp

/-- The timeline of a start, and the epochs it finds. -/
theorem Consistent.timeline_spec (h : s.Consistent) (hok : s.InScope (.start wal)) :
    s.timeline wal = wal + s.bias wal ∧ 1 ≤ s.timeline wal ∧
      (∀ r ∈ s.row, r.effective ≤ s.timeline wal ∧
        (wal ≠ r.lastTimeline → r.effective < s.timeline wal)) ∧
      ∀ p ∈ s.partitions, p.leaderEpoch < s.timeline wal * epochsPerTimeline := by
  obtain ⟨hwal, -, hlt⟩ := hok
  unfold timeline at hlt ⊢
  cases hrow : s.row with
  | some r =>
    obtain ⟨-, -, heff⟩ := h.row r hrow
    have hge : r.effective ≤ wal + s.bias wal ∧
        (wal ≠ r.lastTimeline → r.effective < wal + s.bias wal) := by
      simp only [bias, hrow, TimelineRow.effective]
      split <;> omega
    refine ⟨by omega, by omega, ?_, fun p hp => ?_⟩
    · rintro _ ⟨⟩
      omega
    · have := h.below r hrow p hp
      unfold epochsPerTimeline at this ⊢
      omega
  | none =>
    obtain ⟨h0, -⟩ := h.highest
    have hge : (s.highest = 0 ∧ s.bias wal = 0) ∨ s.highest / 65536 + 2 ≤ wal + s.bias wal := by
      simp only [bias, hrow, Int.tdiv_eq_ediv_of_nonneg h0, epochsPerTimeline]
      split <;> omega
    refine ⟨by omega, by omega, nofun, fun p hp => ?_⟩
    have := le_highest hp
    unfold epochsPerTimeline
    omega

theorem Consistent.fits (h : s.Consistent) (hok : s.InScope (.start wal)) :
    ∀ v ∈ s.values wal, -2 ^ 31 ≤ v ∧ v < 2 ^ 31 := by
  obtain ⟨heq, hpos, -, hbelow⟩ := h.timeline_spec hok
  obtain ⟨hwal, hwal', hlt⟩ := hok
  unfold values
  rw [firstEpoch_eq hpos hlt]
  refine forall_mem_append.2 ⟨forall_mem_append.2 ⟨?_, ?_⟩, forall_mem_map.2 fun p hp => ?_⟩
  · split
    next r hrow =>
      obtain ⟨h1, h2, heff⟩ := h.row r hrow
      unfold TimelineRow.effective at heff
      simp only [bias, hrow] at heq
      split at heq
      next hback => simp [hback]; omega
      next hon => simp [hon]
    next hrow =>
      obtain ⟨h0, h1⟩ := h.highest
      simp only [Int.tdiv_eq_ediv_of_nonneg h0, epochsPerTimeline]
      simp
      omega
  · simp
    omega
  · obtain ⟨h0, -⟩ := h.range p hp
    obtain ⟨hlo, hhi, -, -⟩ := nextLeaderEpoch_spec hpos hlt h0 (hbelow p hp)
    unfold epochsPerTimeline at hlo hhi
    omega

structure Inv (s : Epochs) : Prop extends s.Consistent where
  past : ∀ p ∈ s.partitions, ∀ e ∈ p.past, e ≤ p.leaderEpoch
  packed : ∀ m ∈ s.minted, (m.1 - 1) * epochsPerTimeline ≤ m.2 ∧ m.2 < m.1 * epochsPerTimeline

theorem Inv.ordered (h : Inv s) : s.Ordered := by
  intro a ha b hb hlt
  have hhi := (h.packed a ha).2
  have hlo := (h.packed b hb).1
  unfold epochsPerTimeline at hhi hlo
  omega

theorem Inv.grows (h : Inv s) (hok : s.InScope op) : s.Grows op := by
  cases op with
  | createPartition => trivial
  | start wal =>
    obtain ⟨-, hpos, hrow, hbelow⟩ := h.timeline_spec hok
    refine ⟨hrow, fun p hp => ?_, h.fits hok⟩
    obtain ⟨-, -, -, hnext⟩ := nextLeaderEpoch_spec hpos hok.2.2 (h.range p hp).1 (hbelow p hp)
    refine hnext.imp_left fun hlt => forall_mem_cons.2 ⟨hlt, fun e he => ?_⟩
    exact (h.past p hp e he).trans_lt hlt

/-- The step lemma. -/
theorem Inv.step (h : Inv s) (hok : s.InScope op) : Inv (s.step op) := by
  cases op with
  | createPartition =>
    refine ⟨⟨h.row, fun r hr => ?_, ?_⟩, ?_, h.packed⟩
    · refine forall_mem_append.2 ⟨h.below r hr, forall_mem_singleton.2 ?_⟩
      exact Int.mul_pos (h.row r hr).2.2 (by decide)
    · exact forall_mem_append.2 ⟨h.range, forall_mem_singleton.2 (by decide)⟩
    · exact forall_mem_append.2 ⟨h.past, forall_mem_singleton.2 nofun⟩
  | start wal =>
    obtain ⟨heq, hpos, -, hbelow⟩ := h.timeline_spec hok
    obtain ⟨hwal, hwal', hlt⟩ := hok
    have hnext := fun p hp => nextLeaderEpoch_spec hpos hlt (h.range p hp).1 (hbelow p hp)
    have heff : (⟨wal, s.bias wal⟩ : TimelineRow).effective = s.timeline wal := heq.symm
    refine ⟨⟨?_, ?_, forall_mem_map.2 fun p hp => ?_⟩, forall_mem_map.2 fun p hp => ?_, ?_⟩
    · rintro _ ⟨⟩
      exact ⟨hwal, hwal', heff ▸ hpos⟩
    · rintro _ ⟨⟩
      rw [heff]
      exact forall_mem_map.2 fun p hp => (hnext p hp).2.1
    · obtain ⟨hlo, hhi, -, -⟩ := hnext p hp
      unfold epochsPerTimeline at hlo hhi
      show 0 ≤ nextLeaderEpoch _ _ ∧ nextLeaderEpoch _ _ < _
      omega
    · obtain ⟨-, -, hle, -⟩ := hnext p hp
      exact forall_mem_cons.2 ⟨hle, fun e he => (h.past p hp e he).trans hle⟩
    · refine forall_mem_append.2 ⟨h.packed, forall_mem_map.2 (forall_mem_map.2 fun p hp => ?_)⟩
      exact ⟨(hnext p hp).1, (hnext p hp).2.1⟩

variable {row : Option TimelineRow} {epochs : List ℤ}

/-- From a row that fits the epochs, or none, through any starts. -/
theorem epochs_grow (h : (stored row epochs).Consistent) (ops : List EpochOp)
    (hok : EachStep Epochs.step (stored row epochs) ops InScope) :
    EachStep Epochs.step (stored row epochs) ops Grows ∧
      Always Epochs.step (stored row epochs) ops Ordered := by
  have h0 : Inv (stored row epochs) := ⟨h, forall_mem_map.2 fun _ _ => nofun, nofun⟩
  have hinv := Always.of_eachStep (P := Inv) (fun _ _ h => h.step) h0 hok
  refine ⟨fun pre op hpre => ?_, fun pre hpre => (hinv pre hpre).ordered⟩
  exact (hinv pre ((prefix_append pre [op]).trans hpre)).grows (hok pre op hpre)

/-- A cluster of timeline 3 goes through pg_resetwal. -/
theorem epochs_grow_resetwal :
    let ops : List EpochOp := [.start 3, .createPartition, .start 1]
    EachStep Epochs.step (stored none [7, 0]) ops Grows ∧
      Always Epochs.step (stored none [7, 0]) ops Ordered :=
  epochs_grow ⟨by simp [stored], by simp [stored], by decide⟩ _ (by decide)

/-- A row of timeline 1 and an epoch of timeline 6. -/
theorem timelines_share_epochs :
    let s := stored (some ⟨1, 0⟩) [327680, 0]
    EachStep Epochs.step s [.start 1, .start 2] InScope ∧
      ¬ ([.start 1, .start 2].foldl Epochs.step s).Ordered := by
  refine ⟨by decide, fun h => ?_⟩
  have := h (1, 327681) (by decide) (2, 65536) (by decide) (by decide)
  contradiction

end Kafgres.LeaderEpoch.Epochs
