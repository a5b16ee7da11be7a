/-
A queue that gives numbered results out in the order of their numbers,
in whatever order they come in.
-/
import Mathlib.Data.List.Range

namespace Reorder

open List Function

variable {α : Type}

/-- `next` numbers are taken and the first `flushed` given out. -/
structure Queue (α : Type) where
  next : ℕ := 0
  flushed : ℕ := 0
  ready : ℕ → Option α := fun _ => none
  out : List α := []

namespace Queue

/-- Give out what is next in order, for at most so many rounds. -/
def release : ℕ → Queue α → Queue α
  | 0, q => q
  | fuel + 1, q =>
    match q.ready q.flushed with
    | some a => release fuel { q with
        ready := update q.ready q.flushed none
        out := q.out ++ [a]
        flushed := q.flushed + 1 }
    | none => q

/-- A result comes in. Only numbers that are taken can be next, so there
are rounds enough (`Ordered.complete`). -/
def complete (q : Queue α) (n : ℕ) (a : α) : Queue α := release (q.next - q.flushed)
    { q with ready := update q.ready n (some a) }

@[simp] theorem release_next (fuel : ℕ) (q : Queue α) : (release fuel q).next = q.next := by
  induction fuel generalizing q with
  | zero => rfl
  | succ fuel ih =>
    unfold release
    split
    · rw [ih]
    · rfl

end Queue

variable {done : List (ℕ × α)} {q : Queue α}

/-- The results given out are those of the first numbers, in order, and
what has come in besides is kept. -/
structure Filling (done : List (ℕ × α)) (q : Queue α) : Prop where
  once : (done.map (·.1)).Nodup
  taken : ∀ n, q.next ≤ n → done.lookup n = none
  ready : ∀ n, q.flushed ≤ n → q.ready n = done.lookup n
  given : ∀ n < q.flushed, done.lookup n ≠ none
  out : q.out = (List.range q.flushed).filterMap (List.lookup · done)

/-- Moreover the first number that is not given out has not come in. -/
structure Ordered (done : List (ℕ × α)) (q : Queue α) : Prop
    extends Filling done q where
  waits : done.lookup q.flushed = none

theorem Ordered.start : Ordered ([] : List (ℕ × α)) {} where
  once := List.nodup_nil
  taken := fun _ _ => rfl
  ready := fun _ _ => rfl
  given := nofun
  out := rfl
  waits := rfl

theorem Ordered.take (h : Ordered done q) : Ordered done { q with next := q.next + 1 } :=
  { h with taken := fun n hn => h.taken n (Nat.le_of_succ_le hn) }

theorem Filling.release {fuel : ℕ} (h : Filling done q) (hfuel : q.next ≤ q.flushed + fuel) :
    Ordered done (q.release fuel) := by
  induction fuel generalizing q with
  | zero => exact ⟨h, h.taken _ hfuel⟩
  | succ fuel ih =>
    have hready := h.ready q.flushed le_rfl
    unfold Queue.release
    split
    next a ha =>
      rw [ha] at hready
      refine ih ⟨h.once, h.taken, fun n hn => ?_, fun n hn => ?_, ?_⟩ ?_
      · have hne : n ≠ q.flushed := Nat.ne_of_gt hn
        show update q.ready q.flushed none n = _
        rw [update_of_ne hne]
        exact h.ready n (Nat.le_of_succ_le hn)
      · rcases Nat.lt_succ_iff_lt_or_eq.1 hn with hlt | rfl
        · exact h.given n hlt
        · rw [← hready]
          exact nofun
      · rw [range_succ, filterMap_append, ← h.out]
        simp [← hready]
      · show q.next ≤ q.flushed + 1 + fuel
        omega
    next hnone => exact ⟨h, hready.symm.trans hnone⟩

/-- A result that has not come in yet comes in. -/
theorem Ordered.complete (h : Ordered done q) {n : ℕ} (a : α)
    (hn : n < q.next) (hnew : done.lookup n = none) :
    Ordered (done ++ [(n, a)]) (q.complete n a) := by
  have hlook : ∀ m, (done ++ [(n, a)]).lookup m = if m = n then some a else done.lookup m := by
    intro m
    rw [lookup_append]
    split
    next hm => simp [hm, hnew]
    next hm =>
      have : (m == n) = false := beq_false_of_ne hm
      simp [lookup_cons, this]
  have hflushed : q.flushed ≤ n := by
    by_contra hlt
    exact h.given n (not_le.1 hlt) hnew
  refine Filling.release ⟨?_, fun m hm => ?_, fun m hm => ?_,
    fun m hm => ?_, ?_⟩ (by dsimp only; omega)
  · rw [map_append, perm_append_comm.nodup_iff]
    refine nodup_cons.2 ⟨fun hmem => ?_, h.once⟩
    obtain ⟨x, hx, rfl⟩ := mem_map.1 hmem
    have := lookup_eq_none_iff.1 hnew x hx
    simp at this
  · rw [hlook, if_neg (by dsimp only at hm; omega)]
    exact h.taken m hm
  · show update q.ready n (some a) m = _
    rw [hlook, update_apply, h.ready m hm]
  · rw [hlook, if_neg (by dsimp only at hm; omega)]
    exact h.given m hm
  · rw [h.out]
    refine filterMap_congr fun m hm => ?_
    rw [hlook, if_neg]
    have := mem_range.1 hm
    omega

end Reorder
