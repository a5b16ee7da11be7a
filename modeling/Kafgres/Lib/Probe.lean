/-
Probing a list of cells, as open addressing does it: walk a probe path
until a cell is the one looked for or is empty. The table that probes
supplies the path and the two tests. `ringPath` is the path of linear
probing in a table of `n` cells, and `Before` its visiting order.
-/
import Mathlib.Algebra.Group.Fin.Basic
import Mathlib.Algebra.GroupWithZero.Nat
import Mathlib.Data.List.FinRange

namespace Probe

open List

/-- What a walk ends in: the cell looked for, the first empty cell, or
the end of the path. -/
inductive Answer (α : Type) where
  | hit (i : α)
  | hole (i : α)
  | full
deriving DecidableEq, Repr

variable {α : Type}

/-- Walk `path` to the first cell that is a hit or a hole; a cell that
is both counts as a hit. -/
def probe (hit hole : α → Bool) : List α → Answer α
  | [] => .full
  | i :: path =>
    if hit i then .hit i
    else if hole i then .hole i
    else probe hit hole path

/-- Nothing in `pre` stops the walk. -/
def Passes (hit hole : α → Bool) (pre : List α) : Prop := ∀ j ∈ pre, hit j = false ∧ hole j = false

variable {hit hole : α → Bool} {path : List α}

-- ==== one step of a walk

theorem probe_cons_hit {i : α} (path : List α) (h : hit i = true) :
    probe hit hole (i :: path) = .hit i := by
  simp [probe, h]

theorem probe_cons_hole {i : α} (path : List α) (hi : hit i = false)
    (h : hole i = true) : probe hit hole (i :: path) = .hole i := by
  simp [probe, hi, h]

theorem probe_cons_pass {i : α} (path : List α) (hi : hit i = false) (h : hole i = false) :
    probe hit hole (i :: path) = probe hit hole path := by
  simp [probe, hi, h]

/-- A prefix that stops nothing is skipped whole. -/
theorem probe_append_passes {pre : List α} (post : List α) (hp : Passes hit hole pre) :
    probe hit hole (pre ++ post) = probe hit hole post := by
  induction pre with
  | nil => rfl
  | cons i pre ih =>
    obtain ⟨hi, hh⟩ := hp i (.head _)
    rw [cons_append, probe_cons_pass _ hi hh]
    exact ih fun j hj => hp j (.tail _ hj)

-- ==== the inversion

/-- A walk that answers a cell, hit or hole, passed everything before
it on the path. -/
theorem probe_stops {a : Answer α} {i : α}
    (h : probe hit hole path = a) (ha : a = .hit i ∨ a = .hole i) :
    ∃ pre post, path = pre ++ i :: post ∧ Passes hit hole pre ∧ (a = .hit i → hit i = true)
      ∧ (a = .hole i → hit i = false ∧ hole i = true) := by
  induction path with
  | nil =>
    rw [probe] at h
    rcases ha with rfl | rfl <;> cases h
  | cons j path ih =>
    cases hj : hit j with
    | true =>
      rw [probe_cons_hit path hj] at h
      obtain rfl : i = j := by
        rcases ha with rfl | rfl
        · exact (Answer.hit.inj h).symm
        · cases h
      refine ⟨[], path, rfl, fun _ hm => (not_mem_nil hm).elim, fun _ => hj, fun he => ?_⟩
      simp [← h] at he
    | false =>
      cases ho : hole j with
      | true =>
        rw [probe_cons_hole path hj ho] at h
        obtain rfl : i = j := by
          rcases ha with rfl | rfl
          · cases h
          · exact (Answer.hole.inj h).symm
        refine ⟨[], path, rfl, fun _ hm => (not_mem_nil hm).elim, fun he => ?_, fun _ => ⟨hj, ho⟩⟩
        simp [← h] at he
      | false =>
        rw [probe_cons_pass path hj ho] at h
        obtain ⟨pre, post, rfl, hpre, hhit, hhole⟩ := ih h
        refine ⟨j :: pre, post, rfl, ?_, hhit, hhole⟩
        exact forall_mem_cons.2 ⟨⟨hj, ho⟩, hpre⟩

/-- A walk finds `i` exactly when nothing before it on the path stops
the walk. -/
theorem probe_hit_iff {i : α} :
    probe hit hole path = .hit i ↔
      ∃ pre post, path = pre ++ i :: post ∧ Passes hit hole pre ∧ hit i = true := by
  constructor
  · intro h
    obtain ⟨pre, post, hp, hpre, hhit, -⟩ := probe_stops h (.inl rfl)
    exact ⟨pre, post, hp, hpre, hhit rfl⟩
  · rintro ⟨pre, post, rfl, hpre, hi⟩
    rw [probe_append_passes _ hpre, probe_cons_hit post hi]

/-- A walk that ends in a hole met no hit before it. -/
theorem probe_hole {i : α} (h : probe hit hole path = .hole i) :
    ∃ pre post, path = pre ++ i :: post ∧ Passes hit hole pre ∧ hit i = false ∧ hole i = true := by
  obtain ⟨pre, post, hp, hpre, -, hhole⟩ := probe_stops h (.inr rfl)
  exact ⟨pre, post, hp, hpre, hhole rfl⟩

-- ==== the ring

/-- The cells of a table of `n` in the order linear probing visits them
from `start`, wrapping once. -/
def ringPath {n : ℕ} (start : Fin n) : List (Fin n) := (List.finRange n).map (start + ·)

/-- Probing from `start` visits `i` before `j`. -/
def Before {n : ℕ} (start i j : Fin n) : Prop := i - start < j - start

section Ring

variable {n : ℕ} {start i j : Fin n}

theorem before_irrefl : ¬ Before start i i := lt_irrefl _

theorem ringPath_getElem (start : Fin n) (d : ℕ) (h : d < (ringPath start).length) :
    (ringPath start)[d] = start + ⟨d, by simpa [ringPath] using h⟩ := by
  simp [ringPath]

theorem ringPath_length (start : Fin n) : (ringPath start).length = n := by
  simp [ringPath]

variable [NeZero n]

theorem before_or_before (start : Fin n) (h : i ≠ j) : Before start i j ∨ Before start j i := by
  refine lt_or_gt_of_ne fun he => h ?_
  exact sub_left_inj.1 he

/-- Every cell is on every path. -/
theorem mem_ringPath (start i : Fin n) : i ∈ ringPath start := by
  rw [ringPath, mem_map]
  exact ⟨i - start, mem_finRange _, add_sub_cancel _ _⟩

/-- The part of a path in front of a cell is what probing visits before
it. -/
theorem mem_front_iff {pre post : List (Fin n)} (h : ringPath start = pre ++ i :: post) :
    j ∈ pre ↔ Before start j i := by
  have hlen : (ringPath start).length = n := ringPath_length start
  have hpre : pre.length < (ringPath start).length := by simp [h]
  -- Both cells are named by their distance from the start.
  have hi : i - start = ⟨pre.length, by omega⟩ := by
    have := ringPath_getElem start pre.length hpre
    simp only [h, getElem_append_right le_rfl, Nat.sub_self, getElem_cons_zero] at this
    rw [this, add_sub_cancel_left]
  rw [Before, hi, mem_iff_getElem]
  constructor
  · rintro ⟨d, hd, rfl⟩
    have := ringPath_getElem start d (by omega)
    simp only [h, getElem_append_left hd] at this
    rw [this, add_sub_cancel_left]
    exact hd
  · intro hj
    have hd : (j - start).val < pre.length := hj
    refine ⟨_, hd, ?_⟩
    have := ringPath_getElem start (j - start).val (by omega)
    simp only [h, getElem_append_left hd] at this
    rw [this]
    exact add_sub_cancel _ _

end Ring

end Probe
