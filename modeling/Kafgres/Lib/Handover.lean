/-
Handing items over between parties that are told what to hold one at a
time. The coordinator learns of a return only from the party's own
report, so what is granted may be more than what is held, never less.

Items have at most one intended owner. Giving out only what nobody else
is still granted, and taking back only what a report leaves out, keeps
the grants of the parties apart (`Safe`), and with them what they hold.
-/
import Mathlib.Data.Set.BooleanAlgebra
import Mathlib.Order.CompletePartialOrder

namespace Handover

open Function

variable {ι α : Type}

/-- What the coordinator has granted, and what each party holds. -/
structure State (ι α : Type) where
  granted : ι → Set α
  holds : ι → Set α

/-- No item is granted twice, and nothing is held that is not granted. -/
structure Safe (s : State ι α) : Prop where
  apart : ∀ i j, i ≠ j → Disjoint (s.granted i) (s.granted j)
  covered : ∀ i, s.holds i ⊆ s.granted i

/-- What some party is granted and not meant to keep. -/
def elsewhere (granted target : ι → Set α) : Set α :=
  {p | ∃ j, p ∈ granted j ∧ p ∉ target j}

/-- What may be given to a party now. -/
def grantable (granted target : ι → Set α) (i : ι) : Set α := target i \ elsewhere granted target

/-- With one intended owner an item, what is grantable to one is granted
to no other. -/
theorem grantable_apart {granted target : ι → Set α} {i j : ι}
    (htarget : Disjoint (target i) (target j)) :
    Disjoint (grantable granted target i) (granted j) := by
  apply Set.disjoint_left.2
  intro p hp hheld
  have hmeant : p ∈ target j := by
    by_contra hno
    exact hp.2 ⟨j, hheld, hno⟩
  exact Set.disjoint_left.1 htarget hp.1 hmeant

namespace State

variable [DecidableEq ι]

/-- A party reports what it still holds. -/
def report (s : State ι α) (i : ι) (kept : Set α) : State ι α where
  granted := update s.granted i (s.granted i ∩ kept)
  holds := update s.holds i (s.holds i ∩ kept)

/-- A party is granted items and sent some of them. -/
def grant (s : State ι α) (i : ι) (items sent : Set α) : State ι α where
  granted := update s.granted i (s.granted i ∪ items)
  holds := update s.holds i (s.holds i ∪ sent)

/-- A party comes back under another name, holding nothing. -/
def rename (s : State ι α) (old new : ι) : State ι α where
  granted := update (update s.granted old ∅) new (s.granted old)
  holds := update (update s.holds old ∅) new ∅

end State

/-- Parties leave with whatever they were granted. -/
def State.drop (s : State ι α) (gone : Set ι) : State ι α where
  granted := fun i => {p | i ∉ gone ∧ p ∈ s.granted i}
  holds := fun i => {p | i ∉ gone ∧ p ∈ s.holds i}

variable {s : State ι α}

theorem Safe.drop (h : Safe s) (gone : Set ι) : Safe (s.drop gone) := by
  refine ⟨?_, fun j p hp => ⟨hp.1, h.covered j hp.2⟩⟩
  intro j k hjk
  exact (h.apart j k hjk).mono (fun _ hp => hp.2) fun _ hp => hp.2

variable [DecidableEq ι]

theorem Safe.report (h : Safe s) (i : ι) (kept : Set α) : Safe (s.report i kept) := by
  have hsub : ∀ j, (s.report i kept).granted j ⊆ s.granted j := by
    intro j
    unfold State.report
    rcases eq_or_ne j i with rfl | hj
    · simp
    · simp [update_of_ne hj]
  constructor
  · intro j k hjk
    exact (h.apart j k hjk).mono (hsub j) (hsub k)
  intro j
  unfold State.report
  rcases eq_or_ne j i with rfl | hj
  · simp only [update_self]
    exact Set.inter_subset_inter_left _ (h.covered j)
  · simpa [update_of_ne hj] using h.covered j

theorem Safe.grant (h : Safe s) {i : ι} {items sent : Set α}
    (hfree : ∀ j, j ≠ i → Disjoint items (s.granted j))
    (hsent : sent ⊆ items) : Safe (s.grant i items sent) := by
  unfold State.grant
  constructor
  · intro j k hjk
    dsimp only
    rcases eq_or_ne j i with rfl | hj
    · rw [update_self, update_of_ne hjk.symm]
      exact (h.apart j k hjk).union_left (hfree k hjk.symm)
    rcases eq_or_ne k i with rfl | hk
    · rw [update_self, update_of_ne hj]
      exact (h.apart j k hjk).union_right (hfree j hj).symm
    · rw [update_of_ne hj, update_of_ne hk]
      exact h.apart j k hjk
  · intro j
    rcases eq_or_ne j i with rfl | hj
    · simp only [update_self]
      exact Set.union_subset_union (h.covered j) hsent
    · simpa [update_of_ne hj] using h.covered j

theorem Safe.rename (h : Safe s) {old new : ι} (hne : new ≠ old) : Safe (s.rename old new) := by
  have hgranted : ∀ j, (s.rename old new).granted j
      = if j = new then s.granted old else if j = old then ∅
        else s.granted j := by
    intro j
    simp only [State.rename, update_apply]
  constructor
  · intro j k hjk
    rw [hgranted, hgranted]
    by_cases hj : j = new
    · by_cases hk : k = old
      · simp [hk, hne.symm]
      · have hk' : k ≠ new := fun he => hjk (hj.trans he.symm)
        simp only [hj, hk, hk', if_true, if_false]
        exact h.apart old k (Ne.symm hk)
    · by_cases hj' : j = old
      · simp [hj', hne.symm]
      by_cases hk : k = new
      · simp only [hj, hj', hk, if_true, if_false]
        exact h.apart j old hj'
      by_cases hk' : k = old
      · simp [hk', hne.symm]
      · simp only [hj, hj', hk, hk', if_false]
        exact h.apart j k hjk
  · intro j
    rw [hgranted]
    simp only [State.rename, update_apply]
    by_cases hj : j = new
    · simp [hj]
    · by_cases hj' : j = old
      · simp [hj', hne.symm]
      · simpa [hj, hj'] using h.covered j

end Handover
