/-
What a retention pass drops.
-/
import Kafgres.Segment.Retention
import Mathlib.Order.Bounds.Basic

namespace Kafgres.Segment

open List

variable {infos : List SegInfo} {c : ℤ} {m n : ℕ}

-- ==== the statement

/-- The oldest of some segments is sealed and past the horizon. -/
def Past : Option ℤ → List SegInfo → Prop
  | some horizon, s :: _ :: _ => s.mtimeMs ≤ horizon
  | _, _ => False

/-- One of the segments is sealed, and together they exceed the budget. -/
def Over : Option ℤ → List SegInfo → Prop
  | some budget, s :: next :: rest => budget < live (s :: next :: rest)
  | _, _ => False

/-- The oldest segment is sealed, wholly below the target and archived. -/
def Clear (target : ℤ) (archived : ℤ → Bool) : List ℤ → Prop
  | b :: next :: _ => next ≤ target ∧ archived b = true
  | _ => False

/-- `n` is how many of the oldest have to go until the rest is not due. -/
def GoesOver {α : Type} (due : List α → Prop) (l : List α) (n : ℕ) : Prop :=
  IsLeast {n | ¬ due (l.drop n)} n

/-- The cutoff once the `n` oldest segments may go: the base of the next
one. No segment, no cutoff. -/
def boundary (infos : List SegInfo) : ℕ → ℤ
  | 0 => 0
  | n + 1 => infos[n + 1]?.elim 0 (·.base)

-- ==== the loops

section

variable {α : Type} {due : List α → Prop} {a : α} {l : List α}

theorem GoesOver.zero (h : ¬ due l) : GoesOver due l 0 := ⟨h, fun _ _ => Nat.zero_le _⟩

theorem GoesOver.cons (h : GoesOver due l n) (hdue : due (a :: l)) :
    GoesOver due (a :: l) (n + 1) := by
  refine ⟨h.1, fun k hk => ?_⟩
  cases k with
  | zero => exact absurd hdue hk
  | succ k => exact Nat.succ_le_succ (h.2 hk)

end

theorem boundary_mono (hs : infos.Pairwise (·.base < ·.base)) (h0 : ∀ s ∈ infos, 0 ≤ s.base)
    (hmn : m ≤ n) (hn : n ≤ infos.length - 1) : boundary infos m ≤ boundary infos n := by
  rcases hmn.eq_or_lt with rfl | hlt
  · exact le_rfl
  obtain ⟨n, rfl⟩ : ∃ k, n = k + 1 := ⟨n - 1, by omega⟩
  have hn' : n + 1 < infos.length := by omega
  cases m with
  | zero => simpa [boundary, hn'] using h0 _ (getElem_mem hn')
  | succ m =>
    have hm' : m + 1 < infos.length := by omega
    simpa [boundary, hn', hm'] using (pairwise_iff_getElem.1 hs _ _ hm' hn' hlt).le

theorem boundary_max (hs : infos.Pairwise (·.base < ·.base)) (h0 : ∀ s ∈ infos, 0 ≤ s.base)
    (hm : m ≤ infos.length - 1) (hn : n ≤ infos.length - 1) :
    max (boundary infos m) (boundary infos n) = boundary infos (max m n) := by
  rcases le_total m n with h | h
  · rw [max_eq_right h, max_eq_right (boundary_mono hs h0 h hn)]
  · rw [max_eq_left h, max_eq_left (boundary_mono hs h0 h hm)]

/-- A loop that goes on while `due` holds of what is left. -/
structure Walks (due : List SegInfo → Prop) (loop : List SegInfo → ℤ → ℤ) : Prop where
  stop : ∀ l c, ¬ due l → loop l c = c
  go : ∀ s next rest c, due (s :: next :: rest) →
    loop (s :: next :: rest) c = loop (next :: rest) (max c next.base)
  sealed : ∀ l, due l → 2 ≤ l.length

theorem time_walks (now : ℤ) (ms : Option ℤ) :
    Walks (Past (ms.map (saturatingSub now)))
    fun l c => ms.elim c fun ms => timeLoop (saturatingSub now ms) l c := by
  cases ms with
  | none => exact ⟨fun _ _ _ => rfl, nofun, nofun⟩
  | some ms =>
    refine ⟨fun l c h => ?_, fun _ _ _ _ h => if_pos h, fun l h => ?_⟩
    · match l with
      | [] | [_] => rfl
      | _ :: _ :: _ => exact if_neg h
    · match l with
      | _ :: _ :: _ => simp

theorem byte_walks (bytes : Option ℤ) :
    Walks (Over bytes) fun l c => bytes.elim c fun budget => byteLoop l (live l - budget) c := by
  cases bytes with
  | none => exact ⟨fun _ _ _ => rfl, nofun, nofun⟩
  | some budget =>
    refine ⟨fun l c h => ?_, fun s next rest c h => ?_, fun l h => ?_⟩
    · match l with
      | [] | [_] => rfl
      | _ :: _ :: _ => exact if_pos (sub_nonpos.2 (not_lt.1 h))
    · have hless : live (s :: next :: rest) - budget - s.bytes = live (next :: rest) - budget := by
        simp only [live, map_cons, sum_cons]
        omega
      exact (if_neg (not_le.2 (sub_pos.2 h))).trans (by rw [hless]; rfl)
    · match l with
      | _ :: _ :: _ => simp

theorem Walks.spec {due : List SegInfo → Prop} {loop : List SegInfo → ℤ → ℤ} (h : Walks due loop)
    (hs : infos.Pairwise (·.base < ·.base)) (h0 : ∀ s ∈ infos, 0 ≤ s.base) (hc : 0 ≤ c) :
    ∃ n ≤ infos.length - 1, GoesOver due infos n ∧ loop infos c = max c (boundary infos n) := by
  induction infos generalizing c with
  | nil =>
    have hnot : ¬ due [] := fun hdue => absurd (h.sealed _ hdue) (by decide)
    exact ⟨0, le_rfl, .zero hnot, (h.stop _ _ hnot).trans (max_eq_left hc).symm⟩
  | cons s rest ih =>
    by_cases hdue : due (s :: rest)
    swap
    · exact ⟨0, Nat.zero_le _, .zero hdue, (h.stop _ _ hdue).trans (max_eq_left hc).symm⟩
    obtain ⟨next, rest, rfl⟩ := exists_cons_of_length_pos (Nat.le_of_succ_le_succ (h.sealed _ hdue))
    obtain ⟨n, hn, hover, heq⟩ := ih hs.of_cons (forall_mem_cons.1 h0).2 (le_max_of_le_left hc)
    refine ⟨n + 1, Nat.succ_le_succ hn, hover.cons hdue, ?_⟩
    rw [h.go _ _ _ _ hdue, heq, max_assoc]
    congr 1
    -- the next segment's base is the boundary after one
    have hone := boundary_max hs h0 (m := 1) (n := n + 1) (by simp) (Nat.succ_le_succ hn)
    cases n with
    | zero => exact max_eq_left (h0 next (by simp))
    | succ n => exact hone.trans (congrArg _ (max_eq_right (by omega)))

theorem retentionCutoff_eq (hs : infos.Pairwise (·.base < ·.base)) (h0 : ∀ s ∈ infos, 0 ≤ s.base)
    (now : ℤ) (policy : RetentionPolicy) :
    ∃ t n, GoesOver (Past (policy.retentionMs.map (saturatingSub now))) infos t ∧
      GoesOver (Over policy.retentionBytes) infos n ∧
      retentionCutoff now infos policy = boundary infos (max t n) := by
  obtain ⟨t, ht, hpast, htime⟩ := (time_walks now policy.retentionMs).spec hs h0 le_rfl
  have h0t : 0 ≤ boundary infos t := boundary_mono hs h0 (Nat.zero_le t) ht
  obtain ⟨n, hn, hover, hbyte⟩ := (byte_walks policy.retentionBytes).spec hs h0 h0t
  rw [boundary_max hs h0 ht hn] at hbyte
  refine ⟨t, n, hpast, hover, ?_⟩
  unfold retentionCutoff
  split
  next hshort =>
    -- nothing sealed, nothing to go over
    obtain rfl : t = 0 := by omega
    obtain rfl : n = 0 := by omega
    rfl
  next =>
    rw [htime, max_eq_right h0t]
    exact hbyte

-- ==== the pass

theorem reclaimed_eq (target : ℤ) (archived : ℤ → Bool) (bases : List ℤ) :
    ∃ n ≤ bases.length - 1, GoesOver (Clear target archived) bases n ∧
      ∀ cap, reclaimed target archived cap bases = bases.take (min cap n) := by
  induction bases with
  | nil => exact ⟨0, le_rfl, .zero id, fun cap => by cases cap <;> rfl⟩
  | cons b rest ih =>
    cases rest with
    | nil => exact ⟨0, le_rfl, .zero id, fun cap => by cases cap <;> rfl⟩
    | cons next rest =>
      by_cases hclear : Clear target archived (b :: next :: rest)
      · obtain ⟨n, hn, hover, heq⟩ := ih
        refine ⟨n + 1, Nat.succ_le_succ hn, hover.cons hclear, fun cap => ?_⟩
        cases cap with
        | zero => simp [reclaimed]
        | succ cap => simp [reclaimed, hclear.1, hclear.2, heq]
      · refine ⟨0, Nat.zero_le _, .zero hclear, fun cap => ?_⟩
        cases cap with
        | zero => rfl
        | succ cap =>
          have hstop : next > target ∨ archived b = false := by
            simpa [Clear, imp_iff_not_or] using hclear
          rw [reclaimed, if_pos hstop, Nat.min_zero, take_zero]

/-- A pass moves the log start to the base of the first segment outside
both prefixes, and unlinks the leading segments below it, up to the cap
and the first one that is not archived. -/
theorem retention_exact (now : ℤ) (policy : RetentionPolicy) (archived : ℤ → Bool)
    (infos fresh : List SegInfo) (logStart : ℤ) (hs : infos.Pairwise (·.base < ·.base))
    (hfresh : fresh.Pairwise (·.base < ·.base)) (h0 : ∀ s ∈ infos, 0 ≤ s.base) :
    let swept := enforceRetention now policy archived infos fresh logStart
    (policy = ⟨none, none⟩ → swept = ⟨[], logStart⟩) ∧
    (policy ≠ ⟨none, none⟩ → ∃ t n k,
      GoesOver (Past (policy.retentionMs.map (saturatingSub now))) infos t ∧
      GoesOver (Over policy.retentionBytes) infos n ∧
      swept.logStart = max logStart (boundary infos (max t n)) ∧
      GoesOver (Clear swept.logStart archived) (fresh.map (·.base)) k ∧
      swept.unlinked = (fresh.map (·.base)).take (min maxSegmentUnlinks k)) ∧
    logStart ≤ swept.logStart ∧ ∀ active ∈ fresh.getLast?, active.base ∉ swept.unlinked := by
  intro swept
  by_cases hnone : policy = ⟨none, none⟩
  · have hswept : swept = ⟨[], logStart⟩ := by simp [swept, enforceRetention, hnone]
    rw [hswept]
    exact ⟨fun _ => rfl, fun hp => absurd hnone hp, le_rfl, fun _ _ => not_mem_nil⟩
  obtain ⟨t, n, ht, hn, hcut⟩ := retentionCutoff_eq hs h0 now policy
  obtain ⟨k, hlen, hk, hgone⟩ := reclaimed_eq (max logStart (boundary infos (max t n))) archived
    (fresh.map (·.base))
  have hset : ¬ (policy.retentionMs = none ∧ policy.retentionBytes = none) := by
    rintro ⟨hms, hbytes⟩
    cases policy
    exact hnone (congrArg₂ _ hms hbytes)
  have hswept : swept = ⟨(fresh.map (·.base)).take (min maxSegmentUnlinks k),
      max logStart (boundary infos (max t n))⟩ := by
    simp only [swept, enforceRetention, if_neg hset, hcut, max_comm _ logStart, hgone,
      max_eq_right (le_max_left logStart _)]
  rw [hswept]
  refine ⟨fun hp => absurd hp hnone, fun _ => ⟨t, n, k, ht, hn, rfl, hk, rfl⟩, le_max_left _ _, ?_⟩
  intro active hlast hin
  obtain ⟨older, rfl⟩ := getLast?_eq_some_iff.1 hlast
  have hle : min maxSegmentUnlinks k ≤ (older.map (·.base)).length :=
    (Nat.min_le_right _ _).trans (by simpa using hlen)
  rw [map_append, take_append_of_le_length hle] at hin
  obtain ⟨x, hx, heq⟩ := mem_map.1 (mem_of_mem_take hin)
  exact ((pairwise_append.1 hfresh).2.2 x hx active (.head _)).ne heq

/-- A sealed segment past the horizon and one over the budget, behind a
log start in the first. -/
theorem retention_exact_two : let infos : List SegInfo := [⟨0, 10, 40⟩, ⟨5, 10, 60⟩, ⟨9, 10, 90⟩]
    enforceRetention 100 ⟨some 50, some 15⟩ (fun _ => true) infos infos 3 = ⟨[0, 5], 9⟩ ∧
      (3 : ℤ) ≤ 9 := by
  have h := retention_exact 100 ⟨some 50, some 15⟩ (fun _ => true)
    [⟨0, 10, 40⟩, ⟨5, 10, 60⟩, ⟨9, 10, 90⟩] [⟨0, 10, 40⟩, ⟨5, 10, 60⟩, ⟨9, 10, 90⟩] 3
    (by simp) (by simp) (by simp)
  exact ⟨by decide, h.2.2.1⟩

/-- With nothing past the horizon the log start stays below the oldest
segment, the first one outside both prefixes. -/
theorem retention_stays_behind : let infos : List SegInfo := [⟨10, 10, 60⟩, ⟨20, 10, 90⟩]
    GoesOver (Past (some 50)) infos 0 ∧ GoesOver (Over none) infos 0 ∧
      infos[0]?.map (·.base) = some 10 ∧
      (enforceRetention 100 ⟨some 50, none⟩ (fun _ => true) infos infos 0).logStart = 0 :=
  ⟨.zero (by simp [Past]), .zero id, rfl, by decide⟩

end Kafgres.Segment
