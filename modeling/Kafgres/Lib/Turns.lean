/-
A list of requests served one after the other by a stateful step, with
the answer to each. If each step's effect on a part of the state is a
list of events read off its request and its answer, so is the effect of
the whole list (`trace_serve`).
-/
import Mathlib.Data.List.Basic

namespace Turns

open List

variable {σ α β τ ε : Type}

def serve (f : σ → α → σ × β) : σ → List α → σ × List β
  | s, [] => (s, [])
  | s, a :: rest =>
    let r := serve f (f s a).1 rest
    (r.1, (f s a).2 :: r.2)

variable {f : σ → α → σ × β} {s : σ} {reqs : List α}

@[simp] theorem serve_cons (a : α) (rest : List α) :
    serve f s (a :: rest) =
      ((serve f (f s a).1 rest).1, (f s a).2 :: (serve f (f s a).1 rest).2) :=
  rfl

theorem inv_serve (I : σ → Prop) (hstep : ∀ s, ∀ a ∈ reqs, I s → I (f s a).1) (h : I s) :
    I (serve f s reqs).1 := by
  induction reqs generalizing s with
  | nil => exact h
  | cons a rest ih =>
    exact ih (fun s b hb => hstep s b (.tail _ hb)) (hstep s a mem_cons_self h)

/-- A part of the state that no step changes unless `P`. -/
theorem frame_serve (I : σ → Prop) (obs : σ → τ) {P : Prop}
    (hinv : ∀ s, ∀ a ∈ reqs, I s → I (f s a).1)
    (hstep : ∀ s, ∀ a ∈ reqs, I s → obs (f s a).1 = obs s ∨ P) (h : I s) :
    obs (serve f s reqs).1 = obs s ∨ P := by
  refine (inv_serve (fun s' => I s' ∧ (obs s' = obs s ∨ P)) ?_ ⟨h, .inl rfl⟩).2
  intro s' a ha hs'
  refine ⟨hinv s' a ha hs'.1, ?_⟩
  rcases hstep s' a ha hs'.1 with hobs | hP
  · rw [hobs]
    exact hs'.2
  · exact .inr hP

/-- What the steps do to a part of the state, read off the requests and
the answers. -/
theorem trace_serve (I : σ → Prop) (hstep : ∀ s a, I s → I (f s a).1)
    (obs : σ → τ) {apply : τ → ε → τ} {events : α → β → List ε}
    (hobs : ∀ s a, I s → obs (f s a).1 = (events a (f s a).2).foldl apply (obs s))
    (h : I s) (reqs : List α) :
    obs (serve f s reqs).1 = ((reqs.zip (serve f s reqs).2).flatMap fun p =>
        events p.1 p.2).foldl apply (obs s) := by
  induction reqs generalizing s with
  | nil => rfl
  | cons a rest ih =>
    rw [serve_cons, zip_cons_cons, flatMap_cons, foldl_append, ← hobs s a h]
    exact ih (hstep s a h)

end Turns
