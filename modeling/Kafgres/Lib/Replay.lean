/-
Logs of writes over a store that is read cell by cell. What an open
transaction sees is its own log replayed over what is committed, and its
commit makes that the store.
-/
import Mathlib.Data.List.Induction

/-- A store with its cells: a write sets the cell of its key, and no
other. -/
structure CellStore (σ κ ω : Type) (β : κ → Type) where
  read : ∀ k, σ → β k
  key : ω → κ
  apply : σ → ω → σ
  read_apply_of_ne : ∀ (s : σ) (w : ω) (k : κ), k ≠ key w →
    read k (apply s w) = read k s
  read_apply_key : ∀ (s s' : σ) (w : ω),
    read (key w) (apply s w) = read (key w) (apply s' w)

namespace CellStore

variable {σ κ ω : Type} {β : κ → Type} (S : CellStore σ κ ω β)

def replay (s : σ) (log : List ω) : σ := log.foldl S.apply s

def keys (log : List ω) : List κ := log.map S.key

theorem replay_snoc (s : σ) (log : List ω) (w : ω) :
    S.replay s (log ++ [w]) = S.apply (S.replay s log) w := by
  unfold replay
  rw [List.foldl_append]
  rfl

theorem mem_keys_snoc {log : List ω} {w : ω} {k : κ} :
    k ∈ S.keys (log ++ [w]) ↔ k ∈ S.keys log ∨ k = S.key w := by
  unfold keys
  simp

variable {S} {s s' : σ} {log : List ω} {k : κ}

theorem read_replay_of_notMem (h : k ∉ S.keys log) : S.read k (S.replay s log) = S.read k s := by
  induction log using List.reverseRecOn with
  | nil => rfl
  | append_singleton log w ih =>
    rw [S.mem_keys_snoc, not_or] at h
    rw [S.replay_snoc, S.read_apply_of_ne _ _ _ h.2, ih h.1]

theorem read_replay_of_mem (h : k ∈ S.keys log) :
    S.read k (S.replay s log) = S.read k (S.replay s' log) := by
  induction log using List.reverseRecOn with
  | nil => cases h
  | append_singleton log w ih =>
    rw [S.replay_snoc, S.replay_snoc]
    rcases eq_or_ne k (S.key w) with rfl | hk
    · exact S.read_apply_key _ _ w
    rw [S.read_apply_of_ne _ _ _ hk, S.read_apply_of_ne _ _ _ hk]
    rcases S.mem_keys_snoc.1 h with hlog | hw
    · exact ih hlog
    · exact absurd hw hk

end CellStore
