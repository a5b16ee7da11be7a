/-
Lists in which each entry is justified by those before it. What justifies
an entry may be any relation of a list to an entry.
-/
import Mathlib.Data.List.Induction

namespace Ledger

open List

variable {α : Type} {R : List α → α → Prop} {xs ys : List α} {x : α}

/-- Every entry is justified by the entries before it. -/
def Justified (R : List α → α → Prop) (xs : List α) : Prop :=
  ∀ pre x post, xs = pre ++ x :: post → R pre x

theorem justified_nil : Justified R [] := by
  intro pre x post h
  simp at h

/-- One more entry. -/
theorem justified_snoc : Justified R (xs ++ [x]) ↔ Justified R xs ∧ R xs x := by
  constructor
  · intro h
    refine ⟨fun pre y post hxs => ?_, h xs x [] rfl⟩
    exact h pre y (post ++ [x]) (by simp [hxs])
  intro h pre y post hsplit
  obtain ⟨hxs, hx⟩ := h
  -- the split is at the new entry or before it
  rcases post.eq_nil_or_concat with rfl | ⟨post', z, rfl⟩
  · obtain ⟨rfl, hy⟩ := append_inj' hsplit rfl
    cases hy
    exact hx
  refine hxs pre y post' ?_
  rw [concat_eq_append, ← cons_append, ← append_assoc] at hsplit
  exact (append_inj' hsplit rfl).1

/-- More entries, each justified by the old ones and the new ones before
it. -/
theorem Justified.append (h : Justified R xs)
    (hys : ∀ pre x post, ys = pre ++ x :: post → R (xs ++ pre) x) : Justified R (xs ++ ys) := by
  induction ys using reverseRecOn with
  | nil => simpa using h
  | append_singleton ys y ih =>
    rw [← append_assoc, justified_snoc]
    refine ⟨ih fun pre x post hsplit => ?_, hys ys y [] rfl⟩
    exact hys pre x (post ++ [y]) (by simp [hsplit])

/-- More entries that the old ones alone justify, or that need no
justification. -/
theorem Justified.append_of_forall (h : Justified R xs)
    (hys : ∀ pre, ∀ y ∈ ys, R pre y) : Justified R (xs ++ ys) :=
  h.append fun pre x _ hsplit => hys _ x (by simp [hsplit])

end Ledger
