/-
Programs over a state that can stop in two ways: with an error their
caller sees, or by unwinding to the nearest savepoint. What was done to
the state before stopping stays done; a savepoint puts back the part of
the state it covers.

`Stays R p` says that `p` moves the state along `R` however it ends, and
`Goes` how the run from one state moves and may stop.
-/
import Mathlib.Logic.Function.Basic

namespace Fallible

/-- How a run ends. -/
inductive Result (ε α : Type) where
  | ok (a : α)
  | err (e : ε)
  /-- Unwound: no caller below the savepoint sees it. -/
  | raised

/-- The outcome of one call to the outside. -/
inductive Fault (ε : Type) where
  | ok
  | err (e : ε)
  | raise

/-- A program over state `σ`. -/
def Prog (σ ε α : Type) := σ → σ × Result ε α

namespace Prog

variable {σ ε ζ α β : Type}

/-- Run the continuation if the first part ended well. -/
def andThen (x : Prog σ ε α) (f : α → Prog σ ε β) : Prog σ ε β := fun s =>
  match (x s).2 with
  | .ok a => f a (x s).1
  | .err e => ((x s).1, .err e)
  | .raised => ((x s).1, .raised)

instance : Monad (Prog σ ε) where
  pure a s := (s, .ok a)
  bind := andThen

/-- Change the state. -/
def update (f : σ → σ) : Prog σ ε Unit := fun s => (f s, .ok ())

/-- Read the state. -/
def read (f : σ → α) : Prog σ ε α := fun s => (s, .ok (f s))

def fail (e : ε) : Prog σ ε α := fun s => (s, .err e)

/-- A call that may fail; `wrap` is how its error is reported. -/
def call (fault : Fault ζ) (wrap : ζ → ε) : Prog σ ε Unit := fun s =>
  match fault with
  | .ok => (s, .ok ())
  | .err e => (s, .err (wrap e))
  | .raise => (s, .raised)

/-- Turn an error into an answer; an unwinding passes through. -/
def attempt (x : Prog σ ε α) : Prog σ ζ (Except ε α) := fun s =>
  match (x s).2 with
  | .ok a => ((x s).1, .ok (.ok a))
  | .err e => ((x s).1, .ok (.error e))
  | .raised => ((x s).1, .raised)

/-- A savepoint: unless the body ends well, `restore old new` puts back
the state it covers. An unwinding ends here, as the error `aborted`. -/
def atomically (restore : σ → σ → σ) (aborted : ε) (x : Prog σ ε α) : Prog σ ε α := fun s =>
  match (x s).2 with
  | .ok a => ((x s).1, .ok a)
  | .err e => (restore s (x s).1, .err e)
  | .raised => (restore s (x s).1, .err aborted)

-- ==== rules

variable {x : Prog σ ε α} {f : α → Prog σ ε β} {s t : σ} {a : α} {aborted e : ε}
  {restore : σ → σ → σ}

/-- A run of a sequence that ended well ran both parts well. -/
theorem bind_eq_ok {b : β} :
    (x >>= f) s = (t, .ok b) ↔ ∃ u a, x s = (u, .ok a) ∧ f a u = (t, .ok b) := by
  show andThen x f s = _ ↔ _
  unfold andThen
  constructor
  · intro h
    cases hx : (x s).2 with
    | ok a =>
      rw [hx] at h
      exact ⟨(x s).1, a, Prod.ext rfl hx, h⟩
    | err | raised =>
      simp [hx] at h
  · rintro ⟨u, a, hx, hf⟩
    rw [hx]
    exact hf

/-- What follows a good first part. -/
theorem bind_of_ok {u : σ} (h : x s = (u, .ok a)) : (x >>= f) s = f a u := by
  show andThen x f s = _
  unfold andThen
  rw [h]

theorem bind_of_err {u : σ} (h : x s = (u, .err e)) : (x >>= f) s = (u, .err e) := by
  show andThen x f s = _
  unfold andThen
  rw [h]

theorem bind_assoc {γ : Type} (x : Prog σ ε α) (f : α → Prog σ ε β)
    (g : β → Prog σ ε γ) : (x >>= f) >>= g = x >>= fun a => f a >>= g := by
  funext s
  show andThen (andThen x f) g s = andThen x (fun a => andThen (f a) g) s
  simp only [andThen]
  cases (x s).2 <;> rfl

theorem call_eq_ok {fault : Fault ζ} {wrap : ζ → ε} {u : Unit} :
    call fault wrap s = (t, .ok u) ↔ fault = .ok ∧ t = s := by
  cases fault <;> simp [call, eq_comm]

/-- A sequence that ended with an error did so in one of its parts. -/
theorem bind_eq_err (h : (x >>= f) s = (t, .err e)) :
    x s = (t, .err e) ∨ ∃ u a, x s = (u, .ok a) ∧ f a u = (t, .err e) := by
  replace h : andThen x f s = (t, .err e) := h
  unfold andThen at h
  cases hx : (x s).2 with
  | ok a =>
    rw [hx] at h
    exact .inr ⟨(x s).1, a, Prod.ext rfl hx, h⟩
  | err e' =>
    rw [hx] at h
    cases h
    exact .inl (Prod.ext rfl hx)
  | raised =>
    simp [hx] at h

theorem atomically_eq_ok : atomically restore aborted x s = (t, .ok a) ↔ x s = (t, .ok a) := by
  unfold atomically
  rcases hx : x s with ⟨u, r⟩
  cases r <;> simp

/-- A savepoint left with an error has put the state back. -/
theorem atomically_eq_err (h : atomically restore aborted x s = (t, .err e)) :
    t = restore s (x s).1 := by
  unfold atomically at h
  cases hx : (x s).2 with
  | ok a =>
    simp [hx] at h
  | err | raised =>
    rw [hx] at h
    cases h
    rfl

theorem attempt_fst : (attempt x s : σ × Result ζ (Except ε α)).1 = (x s).1 := by
  unfold attempt
  split <;> rfl

theorem attempt_eq_ok :
    (attempt x s : σ × Result ζ (Except ε α)) = (t, .ok (.ok a)) ↔ x s = (t, .ok a) := by
  unfold attempt
  rcases hx : x s with ⟨u, r⟩
  cases r <;> simp

theorem attempt_eq_error :
    (attempt x s : σ × Result ζ (Except ε α)) = (t, .ok (.error e)) ↔ x s = (t, .err e) := by
  unfold attempt
  rcases hx : x s with ⟨u, r⟩
  cases r <;> simp

end Prog

/-- A preorder on states, as what programs are allowed to do. -/
structure Motion (σ : Type) where
  rel : σ → σ → Prop
  refl : ∀ s, rel s s
  trans : ∀ {s t u}, rel s t → rel t u → rel s u

namespace Motion

variable {σ : Type}

/-- Leave a part of the state alone. -/
def leaves {γ : Type} (part : σ → γ) : Motion σ where
  rel s t := part t = part s
  refl _ := rfl
  trans h h' := h'.trans h

/-- A savepoint moves along what its body moves along, if putting back
does too. -/
theorem atomically {ε α : Type} {R : Motion σ} {x : Prog σ ε α} {s : σ}
    {restore : σ → σ → σ} {aborted : ε} (hx : R.rel s (x s).1)
    (hr : ∀ t, R.rel s t → R.rel s (restore s t)) :
    R.rel s (Prog.atomically restore aborted x s).1 := by
  unfold Prog.atomically
  split
  · exact hx
  · exact hr _ hx
  · exact hr _ hx

end Motion

/-- The program moves the state along `R`, however it ends. -/
def Stays {σ ε α : Type} (R : Motion σ) (x : Prog σ ε α) : Prop := ∀ s, R.rel s (x s).1

namespace Stays

variable {σ ε ζ α β : Type} {R : Motion σ} {x : Prog σ ε α} {f : α → Prog σ ε β}

theorem run (h : Stays R x) {s t : σ} {r : Result ε α} (hx : x s = (t, r)) : R.rel s t := by
  have hs := h s
  rwa [hx] at hs

protected theorem pure (a : α) : Stays R (pure a : Prog σ ε α) := R.refl

protected theorem fail (e : ε) : Stays R (Prog.fail e : Prog σ ε α) := R.refl

protected theorem read (g : σ → α) : Stays R (Prog.read g : Prog σ ε α) := R.refl

protected theorem bind (hx : Stays R x) (hf : ∀ a, Stays R (f a)) : Stays R (x >>= f) := by
  intro s
  show R.rel s (Prog.andThen x f s).1
  unfold Prog.andThen
  split
  · exact R.trans (hx s) (hf _ _)
  · exact hx s
  · exact hx s

protected theorem attempt (hx : Stays R x) : Stays R (Prog.attempt x : Prog σ ζ (Except ε α)) := by
  intro s
  rw [Prog.attempt_fst]
  exact hx s

protected theorem atomically {restore : σ → σ → σ} {aborted : ε}
    (hx : Stays R x) (hr : ∀ s t, R.rel s t → R.rel s (restore s t)) :
    Stays R (Prog.atomically restore aborted x) :=
  fun s => Motion.atomically (hx s) (hr s)

end Stays

/-- The call can only fail in `P`, and unwind if `unwinds`. -/
def Fault.Within {ζ ε : Type} (fault : Fault ζ) (wrap : ζ → ε)
    (P : ε → Prop) (unwinds : Prop) : Prop :=
  match fault with
  | .ok => True
  | .err e => P (wrap e)
  | .raise => unwinds

theorem Fault.Within.mono {ζ ε : Type} {fault : Fault ζ} {wrap : ζ → ε}
    {P Q : ε → Prop} {r : Prop} (h : fault.Within wrap P r)
    (hPQ : ∀ e, P e → Q e) : fault.Within wrap Q r := by
  cases fault with
  | ok => trivial
  | err e => exact hPQ _ h
  | raise => exact h

/-- Errors that are all allowed. -/
theorem Fault.Within.of_raise {ζ ε : Type} {fault : Fault ζ} {wrap : ζ → ε} {r : Prop}
    (h : fault = .raise → r) : fault.Within wrap (fun _ => True) r := by
  cases fault with
  | ok | err => trivial
  | raise => exact h rfl

/-- The run from `s` moves along `R` and ends well, with an error in `P`,
or by unwinding if `unwinds`. -/
structure Goes {σ ε α : Type} (R : Motion σ) (P : ε → Prop) (unwinds : Prop) (x : Prog σ ε α)
    (s : σ) : Prop where
  moves : R.rel s (x s).1
  ends : match (x s).2 with
    | .ok _ => True
    | .err e => P e
    | .raised => unwinds

namespace Goes

variable {σ ε ζ α β : Type} {R : Motion σ} {P : ε → Prop} {r : Prop} {x : Prog σ ε α}
  {f : α → Prog σ ε β} {s t : σ}

/-- A run that moves along `R`, however it ends. -/
theorem of_moves (h : R.rel s (x s).1) : Goes R (fun _ => True) True x s :=
  ⟨h, by split <;> trivial⟩

protected theorem pure (a : α) : Goes R P r (pure a : Prog σ ε α) s := ⟨R.refl s, trivial⟩

protected theorem fail {e : ε} (h : P e) : Goes R P r (Prog.fail e : Prog σ ε α) s :=
  ⟨R.refl s, h⟩

protected theorem read (g : σ → α) : Goes R P r (Prog.read g : Prog σ ε α) s :=
  ⟨R.refl s, trivial⟩

protected theorem update {g : σ → σ} (h : R.rel s (g s)) :
    Goes R P r (Prog.update g : Prog σ ε Unit) s := ⟨h, trivial⟩

protected theorem call {fault : Fault ζ} {wrap : ζ → ε} (h : fault.Within wrap P r) :
    Goes R P r (Prog.call fault wrap) s := by
  cases fault with
  | ok => exact ⟨R.refl s, trivial⟩
  | err | raise => exact ⟨R.refl s, h⟩

/-- What follows may use how the first part ended. -/
protected theorem bind (hx : Goes R P r x s)
    (hf : ∀ t a, x s = (t, .ok a) → Goes R P r (f a) t) : Goes R P r (x >>= f) s := by
  obtain ⟨hmoves, hends⟩ := hx
  rcases hr : x s with ⟨t, a | e | -⟩
  · have hgoes := hf t a hr
    rw [hr] at hmoves
    exact ⟨by rw [Prog.bind_of_ok hr]; exact R.trans hmoves hgoes.moves,
      by rw [Prog.bind_of_ok hr]; exact hgoes.ends⟩
  all_goals
    have hstop : (x >>= f) s = _ := show Prog.andThen x f s = _ by unfold Prog.andThen; rw [hr]
    rw [hr] at hmoves hends
    exact ⟨by rw [hstop]; exact hmoves, by rw [hstop]; exact hends⟩

/-- An answered error is handed to what follows. -/
theorem attempt_bind {Q : ζ → Prop} {g : Except ε α → Prog σ ζ β} (hx : Goes R P r x s)
    (he : ∀ t e, x s = (t, .err e) → P e → Goes R Q r (g (.error e)) t)
    (ha : ∀ t a, x s = (t, .ok a) → Goes R Q r (g (.ok a)) t) :
    Goes R Q r (Prog.attempt x >>= g) s := by
  have hends := hx.ends
  refine .bind ⟨by rw [Prog.attempt_fst]; exact hx.moves, ?_⟩ fun t a h => ?_
  · unfold Prog.attempt
    cases hr : (x s).2 with
    | ok | err => trivial
    | raised =>
      rw [hr] at hends
      exact hends
  · cases a with
    | ok a => exact ha t a (Prog.attempt_eq_ok.1 h)
    | error e =>
      have herr := Prog.attempt_eq_error.1 h
      rw [herr] at hends
      exact he t e herr hends

theorem run {o : Result ε α} (h : Goes R P r x s) (hx : x s = (t, o)) : R.rel s t := by
  have hs := h.moves
  rwa [hx] at hs

theorem err {e : ε} (h : Goes R P r x s) (hx : x s = (t, .err e)) : P e := by
  have hs := h.ends
  rwa [hx] at hs

/-- A run with no way to stop ends well. -/
theorem exists_ok (h : Goes R (fun _ => False) False x s) : ∃ t a, x s = (t, .ok a) := by
  have hs := h.ends
  cases hr : (x s).2 with
  | ok a => exact ⟨(x s).1, a, Prod.ext rfl hr⟩
  | err | raised =>
    rw [hr] at hs
    exact hs.elim

end Goes

end Fallible
