/-
Runs of a deterministic system: a state folded over a list of
operations. A property of every state a run passes through is stated
over the run's prefixes, and follows from what one step preserves.
-/
import Mathlib.Data.List.Infix

namespace Run

open List

variable {σ α : Type} {step : σ → α → σ} {s : σ} {ops : List α}

/-- What every step keeps, a run keeps. -/
theorem foldl_inv (P : σ → Prop) (hstep : ∀ s a, P s → P (step s a))
    (h0 : P s) (ops : List α) : P (ops.foldl step s) := by
  induction ops generalizing s with
  | nil => exact h0
  | cons a ops ih => exact ih (hstep s a h0)

/-- The property holds in every state of the run of `ops` from `s`. -/
def Always (step : σ → α → σ) (s : σ) (ops : List α) (P : σ → Prop) : Prop :=
  ∀ pre, pre <+: ops → P (pre.foldl step s)

/-- Every step of the run of `ops` from `s` is taken in a state that
meets the step's condition. -/
def EachStep (step : σ → α → σ) (s : σ) (ops : List α) (Ok : σ → α → Prop) : Prop :=
  ∀ pre a, pre ++ [a] <+: ops → Ok (pre.foldl step s) a

variable {P : σ → Prop}

theorem Always.cons_iff {a : α} :
    Always step s (a :: ops) P ↔ P s ∧ Always step (step s a) ops P := by
  constructor
  · intro h
    refine ⟨h [] nil_prefix, fun pre hpre => ?_⟩
    exact h (a :: pre) (cons_prefix_cons.2 ⟨rfl, hpre⟩)
  rintro ⟨h0, h⟩ pre hpre
  cases pre with
  | nil => exact h0
  | cons b pre =>
    obtain ⟨rfl, htail⟩ := cons_prefix_cons.1 hpre
    exact h pre htail

variable {Ok : σ → α → Prop} {I : σ → Prop}

theorem EachStep.cons_iff {a : α} :
    EachStep step s (a :: ops) Ok ↔ Ok s a ∧ EachStep step (step s a) ops Ok := by
  constructor
  · intro h
    refine ⟨h [] a (by simp), fun pre b hpre => ?_⟩
    exact h (a :: pre) b (cons_prefix_cons.2 ⟨rfl, hpre⟩)
  rintro ⟨h0, h⟩ pre b hpre
  cases pre with
  | nil =>
    obtain ⟨rfl, -⟩ := cons_prefix_cons.1 hpre
    exact h0
  | cons c pre =>
    obtain ⟨rfl, htail⟩ := cons_prefix_cons.1 hpre
    exact h pre b htail

@[simp] theorem Always.nil_iff : Always step s [] P ↔ P s := by
  simp [Always]

@[simp] theorem EachStep.nil : EachStep step s [] Ok := by
  simp [EachStep]

theorem EachStep.append_iff {ops' : List α} :
    EachStep step s (ops ++ ops') Ok ↔
      EachStep step s ops Ok ∧ EachStep step (ops.foldl step s) ops' Ok := by
  induction ops generalizing s with
  | nil => simp
  | cons a ops ih =>
    rw [cons_append, EachStep.cons_iff, EachStep.cons_iff, ih, and_assoc]
    rfl

/-- Conditions that can be checked can be checked along a run. -/
instance EachStep.decidable {Ok : σ → α → Prop} [∀ s a, Decidable (Ok s a)] :
    (s : σ) → (ops : List α) → Decidable (EachStep step s ops Ok)
  | _, [] => isTrue EachStep.nil
  | s, a :: ops =>
    have : Decidable (EachStep step (step s a) ops Ok) :=
      EachStep.decidable (step s a) ops
    decidable_of_iff (Ok s a ∧ EachStep step (step s a) ops Ok) EachStep.cons_iff.symm

/-- The invariant rule: steps that meet their condition keep the
invariant, so a run of such steps keeps it throughout. -/
theorem Always.of_eachStep (hstep : ∀ s a, P s → Ok s a → P (step s a))
    (h0 : P s) (hok : EachStep step s ops Ok) : Always step s ops P := by
  induction ops generalizing s with
  | nil => simpa using h0
  | cons a ops ih =>
    obtain ⟨ha, hrest⟩ := EachStep.cons_iff.1 hok
    exact Always.cons_iff.2 ⟨h0, ih (hstep s a h0 ha) hrest⟩

/-- The exact rule: if in a good state a step leads to a good state
precisely under its condition, a run stays good precisely when each of
its steps meets the condition. -/
theorem prefixes_iff (hstep : ∀ s a, P s → (P (step s a) ↔ Ok s a)) (h0 : P s) :
    Always step s ops P ↔ EachStep step s ops Ok := by
  induction ops generalizing s with
  | nil => simpa using h0
  | cons a ops ih =>
    rw [Always.cons_iff, EachStep.cons_iff]
    constructor
    · rintro ⟨-, hrest⟩
      have h1 : P (step s a) := hrest [] nil_prefix
      exact ⟨(hstep s a h0).1 h1, (ih h1).1 hrest⟩
    · rintro ⟨ha, hrest⟩
      have h1 : P (step s a) := (hstep s a h0).2 ha
      exact ⟨h0, (ih h1).2 hrest⟩

/-- The exact rule next to an invariant no step can break. -/
theorem prefixes_iff_of_inv (hinv : ∀ s a, I s → I (step s a))
    (hstep : ∀ s a, I s → P s → (P (step s a) ↔ Ok s a)) (hI : I s) (h0 : P s) :
    Always step s ops P ↔ EachStep step s ops Ok := by
  have hboth : Always step s ops (fun s => I s ∧ P s) ↔ EachStep step s ops Ok := by
    refine prefixes_iff (fun s a h => ?_) ⟨hI, h0⟩
    rw [← hstep s a h.1 h.2]
    exact and_iff_right (hinv s a h.1)
  rw [← hboth]
  refine ⟨?_, fun h pre hpre => (h pre hpre).2⟩
  exact fun h pre hpre => ⟨foldl_inv I hinv hI pre, h pre hpre⟩

/-- Two conditions on steps that agree in good states, one of which
keeps the state good, agree along runs from a good state. `Fits` is the
setting the runs are taken in. -/
theorem EachStep.iff_of_inv {Fits R : σ → α → Prop}
    (hiff : ∀ s a, I s → Fits s a → (R s a ↔ Ok s a))
    (hinv : ∀ s a, I s → Fits s a → Ok s a → I (step s a)) (h0 : I s)
    (hfit : EachStep step s ops Fits) : EachStep step s ops R ↔ EachStep step s ops Ok := by
  induction ops generalizing s with
  | nil => simp
  | cons a ops ih =>
    obtain ⟨ha, hrest⟩ := EachStep.cons_iff.1 hfit
    rw [EachStep.cons_iff, EachStep.cons_iff, hiff s a h0 ha]
    exact and_congr_right fun hok => ih (hinv s a h0 ha hok) hrest

end Run
