/-
A finite map that keeps, for each key, the greatest value it was given.
It is an association list; `raise` gives one key one value, and
`raises` a list of them.
-/
import Mathlib.Data.List.Defs
import Mathlib.Order.MinMax

namespace Peaks

open List

variable {F O : Type} [DecidableEq F] [LinearOrder O]
variable {l : List (F × O)} {f g : F} {o p : O} {q : F × O} {ps : List (F × O)}

/-- Give `f` the value `o`: it keeps the greater of that and its own. -/
def raise : List (F × O) → F → O → List (F × O)
  | [], f, o => [(f, o)]
  | (g, p) :: l, f, o =>
    if f = g then (g, max p o) :: l else (g, p) :: raise l f o

def raises (l ps : List (F × O)) : List (F × O) := ps.foldl (fun l q => raise l q.1 q.2) l

/-- The key's value is at least `o`. -/
def Reaches (l : List (F × O)) (f : F) (o : O) : Prop := ∃ p, l.lookup f = some p ∧ o ≤ p

theorem lookup_raise :
    (raise l f o).lookup g =
    if g = f then some ((l.lookup f).elim o (max · o)) else l.lookup g := by
  induction l with
  | nil =>
    by_cases h : g = f
    · simp [raise, h]
    · simp [raise, lookup_cons, beq_false_of_ne h, h]
  | cons q l ih =>
    obtain ⟨g', p⟩ := q
    rcases eq_or_ne f g' with rfl | hf
    · by_cases hg : g = f
      · simp [raise, hg]
      · simp [raise, lookup_cons, beq_false_of_ne hg, hg]
    · rcases eq_or_ne g f with rfl | hg
      · simp [raise, lookup_cons, beq_false_of_ne hf, hf, ih]
      · simp [raise, lookup_cons, hf, hg, ih]

theorem reaches_raise_self : Reaches (raise l f o) f o := by
  cases h : l.lookup f with
  | none => exact ⟨o, by simp [lookup_raise, h], le_rfl⟩
  | some p => exact ⟨max p o, by simp [lookup_raise, h], le_max_right p o⟩

theorem Reaches.raise (h : Reaches l g p) : Reaches (raise l f o) g p := by
  obtain ⟨q, hq, hle⟩ := h
  rcases eq_or_ne g f with rfl | hg
  · exact ⟨max q o, by simp [lookup_raise, hq], hle.trans (le_max_left q o)⟩
  · exact ⟨q, by simp [lookup_raise, hg, hq], hle⟩

theorem Reaches.raises (h : Reaches l g p) (ps : List (F × O)) : Reaches (raises l ps) g p := by
  induction ps generalizing l with
  | nil => exact h
  | cons q ps ih => exact ih h.raise

theorem reaches_raises (h : (g, p) ∈ ps) : Reaches (raises l ps) g p := by
  induction ps generalizing l with
  | nil => cases h
  | cons q ps ih =>
    rcases mem_cons.1 h with rfl | hin
    · exact reaches_raise_self.raises ps
    · exact ih hin

omit [LinearOrder O] in
theorem mem_of_lookup (h : l.lookup f = some o) : (f, o) ∈ l := by
  obtain ⟨l₁, l₂, rfl, -⟩ := lookup_eq_some_iff.1 h
  exact mem_append_right _ mem_cons_self

theorem mem_of_mem_raise (h : q ∈ raise l f o) : q ∈ l ∨ q = (f, o) := by
  induction l with
  | nil => exact Or.inr (mem_singleton.1 h)
  | cons q' l ih =>
    obtain ⟨g, p⟩ := q'
    unfold raise at h
    split at h
    · next heq =>
        rcases mem_cons.1 h with rfl | hin
        · rcases max_choice p o with hp | ho
          · exact Or.inl (by rw [hp]; exact mem_cons_self)
          · exact Or.inr (by rw [ho, heq])
        · exact Or.inl (mem_cons_of_mem _ hin)
    · rcases mem_cons.1 h with rfl | hin
      · exact Or.inl mem_cons_self
      · exact (ih hin).imp (mem_cons_of_mem _) id

/-- Raising makes no pair up. -/
theorem mem_of_mem_raises (h : q ∈ raises l ps) : q ∈ l ∨ q ∈ ps := by
  induction ps generalizing l with
  | nil => exact Or.inl h
  | cons q' ps ih =>
    rcases ih h with hin | hin
    · rcases mem_of_mem_raise hin with hold | rfl
      · exact Or.inl hold
      · exact Or.inr mem_cons_self
    · exact Or.inr (mem_cons_of_mem _ hin)

end Peaks
