/-
A log read as a table: entries at increasing offsets, each with a key
and a value or none, which makes the key absent.

Two kinds of entries may go without the table changing: one with a later
entry of its key still in the log, and a tombstone with nothing but
tombstones under it, which is a fact about the whole log.
-/
import Mathlib.Data.List.Nodup
import Mathlib.Order.Lattice

namespace KeyedLog

open List

/-- An entry of the log; one without a key is in nobody's table. -/
structure Entry (O K V : Type) where
  offset : O
  key : Option K
  value : Option V
deriving DecidableEq, Repr

variable {O K V : Type} [LinearOrder O] [DecidableEq K]
variable {l l' : List (Entry O K V)} {e : Entry O K V} {k : K}

/-- Offsets increase along the log. -/
def Ordered (l : List (Entry O K V)) : Prop := l.Pairwise (·.offset < ·.offset)

/-- The last entry of a key. -/
def latest (l : List (Entry O K V)) (k : K) : Option (Entry O K V) :=
  (l.filter (·.key = some k)).getLast?

/-- The reader's table. -/
def view (l : List (Entry O K V)) (k : K) : Option V := (latest l k).bind (·.value)

/-- A later entry of the same key is in the log. -/
def Superseded (l : List (Entry O K V)) (e : Entry O K V) : Prop :=
  ∃ e' ∈ l, e'.key = e.key ∧ e.offset < e'.offset

/-- A tombstone that hides no value. -/
def Moot (l : List (Entry O K V)) (e : Entry O K V) : Prop := e.value = none ∧
    ∀ e' ∈ l, e'.key = e.key → e'.offset < e.offset → e'.value = none

omit [LinearOrder O] in
theorem latest_eq_none_iff : latest l k = none ↔ ∀ e ∈ l, e.key ≠ some k := by
  simp [latest]

/-- In an ordered log the last entry of a key is the one at the highest
offset. -/
theorem le_of_latest (hl : Ordered l) (h : latest l k = some e) :
    e ∈ l ∧ e.key = some k ∧ ∀ e' ∈ l, e'.key = some k → e'.offset ≤ e.offset := by
  obtain ⟨pre, hpre⟩ := getLast?_eq_some_iff.1 h
  have hmem : ∀ x, x ∈ pre ++ [e] ↔ x ∈ l ∧ x.key = some k := by
    intro x
    rw [← hpre, mem_filter, decide_eq_true_iff]
  have he := (hmem e).1 (mem_append_right _ mem_cons_self)
  refine ⟨he.1, he.2, fun e' he' hk => ?_⟩
  have hsorted : (pre ++ [e]).Pairwise (·.offset < ·.offset) := hpre ▸ hl.filter _
  rcases mem_append.1 ((hmem e').2 ⟨he', hk⟩) with hin | hin
  · exact ((pairwise_append.1 hsorted).2.2 e' hin e mem_cons_self).le
  · rw [mem_singleton.1 hin]

omit [DecidableEq K] in
theorem eq_of_offset_eq (hl : Ordered l) {e' : Entry O K V} (he : e ∈ l)
    (he' : e' ∈ l) (h : e.offset = e'.offset) : e = e' := by
  have hnodup : (l.map (·.offset)).Nodup := pairwise_map.2 (hl.imp fun hlt => hlt.ne)
  exact inj_on_of_nodup_map hnodup he he' h

/-- Thinning a log leaves the table alone when what goes is superseded
or hides nothing. -/
theorem view_eq_of_cleaned (hl : Ordered l) (hl' : Ordered l') (hsub : ∀ e ∈ l', e ∈ l)
    (hdrop : ∀ e ∈ l, e.key.isSome → e ∉ l' → Superseded l e ∨ Moot l e) : view l' = view l := by
  funext k
  cases hm : latest l k with
  | none =>
    have hnone : latest l' k = none := latest_eq_none_iff.2 fun e he =>
        latest_eq_none_iff.1 hm e (hsub e he)
    simp [view, hm, hnone]
  | some m =>
    obtain ⟨hmem, hkey, hmax⟩ := le_of_latest hl hm
    cases hm' : latest l' k with
    | none =>
      -- every entry of the key went, the latest among them
      have hgone : m ∉ l' := fun h =>
        latest_eq_none_iff.1 hm' m h hkey
      have hmoot : Moot l m := by
        rcases hdrop m hmem (by simp [hkey]) hgone with hs | hs
        · obtain ⟨e', he', hk', hlt⟩ := hs
          exact absurd (hmax e' he' (hk'.trans hkey)) (not_le.2 hlt)
        · exact hs
      simp [view, hm, hm', hmoot.1]
    | some m' =>
      obtain ⟨hmem', hkey', hmax'⟩ := le_of_latest hl' hm'
      by_cases hin : m ∈ l'
      · have hoff : m.offset = m'.offset := le_antisymm
          (hmax' m hin hkey) (hmax m' (hsub m' hmem') hkey')
        have heq : m = m' := eq_of_offset_eq hl hmem (hsub m' hmem') hoff
        simp [view, hm, hm', heq]
      · -- what is left of the key lies under a moot tombstone
        have hmoot : Moot l m := by
          rcases hdrop m hmem (by simp [hkey]) hin with hs | hs
          · obtain ⟨e', he', hk', hlt⟩ := hs
            exact absurd (hmax e' he' (hk'.trans hkey)) (not_le.2 hlt)
          · exact hs
        have hlt : m'.offset < m.offset := by
          refine lt_of_le_of_ne (hmax m' (hsub m' hmem') hkey') ?_
          intro hoff
          have heq := eq_of_offset_eq hl (hsub m' hmem') hmem hoff
          exact hin (heq ▸ hmem')
        have hv := hmoot.2 m' (hsub m' hmem') (hkey'.trans hkey.symm) hlt
        simp [view, hm, hm', hmoot.1, hv]

end KeyedLog
