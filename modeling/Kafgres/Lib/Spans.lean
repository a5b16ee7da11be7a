/-
Items laid end to end: each begins where the one before it stops. The
stop of an item is the first position past it.
-/
import Mathlib.Data.Int.Order.Basic
import Mathlib.Data.List.Infix

namespace Spans

open List

variable {α : Type} {lo hi : α → ℤ} {a o : ℤ} {x y : α} {xs ys : List α}

/-- The items are laid end to end from a position on. -/
def Laid (lo hi : α → ℤ) : ℤ → List α → Prop
  | _, [] => True
  | a, x :: xs => lo x = a ∧ a < hi x ∧ Laid lo hi (hi x) xs

instance Laid.decidable (lo hi : α → ℤ) : (a : ℤ) → (xs : List α) → Decidable (Laid lo hi a xs)
  | _, [] => isTrue trivial
  | a, x :: xs =>
    have : Decidable (Laid lo hi (hi x) xs) := Laid.decidable lo hi (hi x) xs
    inferInstanceAs (Decidable (lo x = a ∧ a < hi x ∧ Laid lo hi (hi x) xs))

/-- Where items laid from a position stop. -/
def stop (hi : α → ℤ) : ℤ → List α → ℤ
  | a, [] => a
  | _, x :: xs => stop hi (hi x) xs

theorem stop_append (a : ℤ) (xs ys : List α) :
    stop hi a (xs ++ ys) = stop hi (stop hi a xs) ys := by
  induction xs generalizing a with
  | nil => rfl
  | cons x xs ih => exact ih (hi x)

theorem laid_append : Laid lo hi a (xs ++ ys) ↔ Laid lo hi a xs ∧ Laid lo hi (stop hi a xs) ys := by
  induction xs generalizing a with
  | nil => simp [Laid, stop]
  | cons x xs ih => simp [Laid, stop, ih, and_assoc]

section

variable (h : Laid lo hi a xs)
include h

/-- One more item. -/
theorem Laid.snoc (hlo : lo x = stop hi a xs) (hlt : lo x < hi x) : Laid lo hi a (xs ++ [x]) :=
  laid_append.2 ⟨h, hlo, hlo ▸ hlt, trivial⟩

theorem Laid.take (n : ℕ) : Laid lo hi a (xs.take n) := by
  rw [← take_append_drop n xs] at h
  exact (laid_append.1 h).1

theorem Laid.le_lo (hx : x ∈ xs) : a ≤ lo x := by
  induction xs generalizing a with
  | nil => cases hx
  | cons y xs ih =>
    obtain ⟨hlo, hlt, hrest⟩ := h
    rcases mem_cons.1 hx with rfl | hx
    · exact hlo.ge
    · exact hlt.le.trans (ih hrest hx)

theorem Laid.le_stop : a ≤ stop hi a xs := by
  induction xs generalizing a with
  | nil => exact le_refl a
  | cons y xs ih =>
    obtain ⟨-, hlt, hrest⟩ := h
    exact hlt.le.trans (ih hrest)

theorem Laid.hi_le (hx : x ∈ xs) : hi x ≤ stop hi a xs := by
  induction xs generalizing a with
  | nil => cases hx
  | cons y xs ih =>
    obtain ⟨-, -, hrest⟩ := h
    rcases mem_cons.1 hx with rfl | hx
    · exact hrest.le_stop
    · exact ih hrest hx

/-- Items that are all among those of a longer list are its first
ones. -/
theorem prefix_of_subset (h' : Laid lo hi a ys) (hsub : ∀ x ∈ xs, x ∈ ys) : xs <+: ys := by
  induction xs generalizing a ys with
  | nil => exact nil_prefix
  | cons x xs ih =>
    obtain ⟨hlo, hlt, hrest⟩ := h
    cases ys with
    | nil => cases hsub x (.head _)
    | cons y ys =>
      obtain ⟨hlo', hlt', hrest'⟩ := h'
      -- the item at this position is the only one that begins here
      have hxy : x = y := by
        rcases mem_cons.1 (hsub x (.head _)) with h | h
        · exact h
        · have := hrest'.le_lo h
          omega
      subst hxy
      refine cons_prefix_cons.2 ⟨rfl, ih hrest hrest' ?_⟩
      intro z hz
      rcases mem_cons.1 (hsub z (.tail _ hz)) with h | h
      · have := hrest.le_lo hz
        subst h
        omega
      · exact h

end

/-- The item at a position. -/
def holder (lo hi : α → ℤ) (xs : List α) (o : ℤ) : Option α :=
  xs.find? fun x => lo x ≤ o && o < hi x

theorem Laid.holder_isSome (h : Laid lo hi a xs) (hle : a ≤ o)
    (hlt : o < stop hi a xs) : (holder lo hi xs o).isSome := by
  unfold holder
  induction xs generalizing a with
  | nil =>
    unfold stop at hlt
    omega
  | cons x xs ih =>
    obtain ⟨hlo, -, hrest⟩ := h
    rw [find?_cons]
    by_cases hx : o < hi x
    · have hlo' : lo x ≤ o := by omega
      simp [hlo', hx]
    · simp only [hx, decide_false, Bool.and_false]
      exact ih hrest (by omega) hlt

theorem le_stop_of_ordered (hord : xs.Pairwise fun x y => hi x ≤ lo y)
    (hlt : ∀ x ∈ xs, lo x < hi x) (hge : ∀ x ∈ xs, a ≤ lo x) : a ≤ stop hi a xs := by
  induction xs generalizing a with
  | nil => exact le_refl a
  | cons x xs ih =>
    obtain ⟨hhead, hrest⟩ := pairwise_cons.1 hord
    have := hge x mem_cons_self
    have := hlt x mem_cons_self
    have := ih hrest (fun y hy => hlt y (mem_cons_of_mem _ hy)) hhead
    unfold stop
    omega

/-- Items in order that leave out no position from the first on. -/
theorem laid_of_covered (hord : xs.Pairwise fun x y => hi x ≤ lo y)
    (hlt : ∀ x ∈ xs, lo x < hi x) (hge : ∀ x ∈ xs, a ≤ lo x)
    (hcov : ∀ o, a ≤ o → o < stop hi a xs → ∃ x ∈ xs, lo x ≤ o ∧ o < hi x) : Laid lo hi a xs := by
  induction xs generalizing a with
  | nil => exact trivial
  | cons x xs ih =>
    obtain ⟨hhead, hrest⟩ := pairwise_cons.1 hord
    have hlt' := fun y hy => hlt y (mem_cons_of_mem _ hy)
    have hx := hlt x mem_cons_self
    have hax := hge x mem_cons_self
    have hstop := le_stop_of_ordered hrest hlt' hhead
    have hlo : lo x = a := by
      -- the item over the first position can only be the first
      obtain ⟨y, hy, hle, -⟩ := hcov a le_rfl (by unfold stop; omega)
      rcases mem_cons.1 hy with rfl | hy
      · omega
      · have := hhead y hy
        omega
    refine ⟨hlo, by omega, ih hrest hlt' hhead fun o ho hos => ?_⟩
    obtain ⟨y, hy, hle, hlt⟩ := hcov o (by omega) hos
    rcases mem_cons.1 hy with rfl | hy
    · omega
    · exact ⟨y, hy, hle, hlt⟩

/-- Items cut before the first that begins at a position or past it stop
there, if none of those kept reaches over it. -/
theorem Laid.stop_takeWhile (h : Laid lo hi a xs) (hle : a ≤ o) (hlt : o < stop hi a xs)
    (hwhole : ∀ x ∈ xs, lo x < o → hi x ≤ o) : stop hi a (xs.takeWhile fun x => lo x < o) = o := by
  induction xs generalizing a with
  | nil =>
    unfold stop at hlt
    omega
  | cons x xs ih =>
    obtain ⟨hlo, -, hrest⟩ := h
    rw [takeWhile_cons]
    by_cases hx : lo x < o
    · rw [if_pos (decide_eq_true hx)]
      apply ih hrest (hwhole x (.head _) hx) hlt
      exact fun y hy => hwhole y (.tail _ hy)
    · rw [if_neg (by simpa using hx)]
      unfold stop
      omega

theorem Laid.takeWhile (h : Laid lo hi a xs) (p : α → Bool) : Laid lo hi a (xs.takeWhile p) := by
  rw [← takeWhile_append_dropWhile (p := p) (l := xs)] at h
  exact (laid_append.1 h).1

end Spans
