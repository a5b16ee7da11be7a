/-
A list rewritten element by element: each element is replaced, in place,
by a list that a relation allows for it.
-/
import Mathlib.Data.List.Pairwise

namespace Rewriting

open List

variable {α : Type}

/-- `l'` is `l` with every element replaced by what `R` allows for
it. -/
inductive Rewrites (R : α → List α → Prop) : List α → List α → Prop
  | nil : Rewrites R [] []
  | cons {a : α} {out l l' : List α} :
      R a out → Rewrites R l l' → Rewrites R (a :: l) (out ++ l')

variable {R S : α → List α → Prop} {l l' k k' : List α} {a : α}

namespace Rewrites

theorem append (h : Rewrites R l l') (h' : Rewrites R k k') : Rewrites R (l ++ k) (l' ++ k') := by
  induction h with
  | nil => exact h'
  | cons ha _ ih =>
    rw [cons_append, append_assoc]
    exact cons ha ih

theorem snoc {out : List α} (h : Rewrites R l l') (ha : R a out) :
    Rewrites R (l ++ [a]) (l' ++ out) := by
  have hone := cons ha (nil (R := R))
  rw [append_nil] at hone
  exact h.append hone

/-- Elements that may stay make a list that may stay. -/
theorem refl (h : ∀ a ∈ l, R a [a]) : Rewrites R l l := by
  induction l with
  | nil => exact nil
  | cons a l ih =>
    exact cons (h a mem_cons_self) (ih fun a ha => h a (.tail _ ha))

theorem mono (h : Rewrites R l l')
    (himp : ∀ a ∈ l, ∀ out, R a out → S a out) : Rewrites S l l' := by
  induction h with
  | nil => exact nil
  | cons ha _ ih =>
    exact cons (himp _ mem_cons_self _ ha) (ih fun a ha => himp a (.tail _ ha))

/-- Every element has its replacement in the new list. -/
theorem image (h : Rewrites R l l') (ha : a ∈ l) : ∃ out, R a out ∧ ∀ x ∈ out, x ∈ l' := by
  induction h with
  | nil => cases ha
  | @cons _ out _ l' hR _ ih =>
    rcases mem_cons.1 ha with rfl | hin
    · exact ⟨out, hR, fun x hx => mem_append_left _ hx⟩
    · obtain ⟨out, hout, hsub⟩ := ih hin
      exact ⟨out, hout, fun x hx => mem_append_right _ (hsub x hx)⟩

/-- Every element of the new list comes from an old one. -/
theorem source {x : α} (h : Rewrites R l l') (hx : x ∈ l') : ∃ a ∈ l, ∃ out, R a out ∧ x ∈ out := by
  induction h with
  | nil => cases hx
  | @cons a out _ _ hR _ ih =>
    rcases mem_append.1 hx with hin | hin
    · exact ⟨a, .head _, out, hR, hin⟩
    · obtain ⟨a', ha', out', hR', hx'⟩ := ih hin
      exact ⟨a', .tail _ ha', out', hR', hx'⟩

/-- An order between the elements is an order between their
replacements. -/
theorem pairwise {P : α → α → Prop} (h : Rewrites R l l')
    (hl : l.Pairwise P) (hone : ∀ a ∈ l, ∀ out, R a out → out.Pairwise P)
    (htwo : ∀ a b out out', R a out → R b out' → P a b →
      ∀ x ∈ out, ∀ y ∈ out', P x y) : l'.Pairwise P := by
  induction h with
  | nil => exact List.Pairwise.nil
  | @cons a out l l' hR hrest ih =>
    obtain ⟨ha, hl⟩ := pairwise_cons.1 hl
    refine pairwise_append.2 ⟨hone a mem_cons_self out hR,
      ih hl fun a ha => hone a (.tail _ ha), ?_⟩
    intro x hx y hy
    obtain ⟨b, hb, out', hR', hy⟩ := hrest.source hy
    exact htwo a b out out' hR hR' (ha b hb) x hx y hy

end Rewrites

end Rewriting
