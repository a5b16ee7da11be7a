/-
The copy and the swap, over any relation that holds between a batch and
what `judge_batch` leaves of it.
-/
import Kafgres.Compaction.Proofs.Layout

namespace Kafgres.Compaction

open Rewriting List

variable {B : Type} {p p' : Partition B} {info : SegInfo}
variable {R : Batch B → List (Batch B) → Prop} {segs : List (Segment B)} {new : Option (Segment B)}
  {base : ℤ}

-- ==== the copy

section

variable [Wire B] {c : Call B} {j : Judge} {m : OffsetMap B}
variable {w w' : CleanWork}

theorem judgeBatch_known {b : Batch B} {known known' : List (ℤ × ℕ)}
    {e : StoreError} (h : judgeBatch j m known b = (known', .error e)) : known' = known := by
  unfold judgeBatch at h
  split at h
  · cases h
  split at h
  · cases h
    rfl
  · cases h
  · cases h

/-- The copy takes batches in turn and writes what is left of each. `K`
is what holds of the batches known not to decode. -/
theorem copy_rewrites {K : List (ℤ × ℕ) → Prop} {done bs : List (Batch B)}
    {rw rw' : Rewrite B} {out : Copied}
    (hone : ∀ b ∈ bs, ∀ known known' kept, K known → judgeBatch j m known b = (known', .ok kept) →
      R b (b.replaced kept) ∧ K known') (hK : K w.known) (hdone : Rewrites R done rw.written)
    (h : copy c j m bs rw w = (w', rw', out)) :
    K w'.known ∧ rw'.info = rw.info ∧ rw'.writing = rw.writing ∧
      ∃ n ≤ bs.length, rw'.pos = rw.pos + n ∧ Rewrites R (done ++ bs.take n) rw'.written ∧
        (out = .whole → n = bs.length) := by
  induction bs generalizing done rw w with
  | nil =>
    unfold copy at h
    split at h
    all_goals
      cases h
      exact ⟨hK, rfl, rfl, 0, le_rfl, rfl, by simpa using hdone, by simp⟩
  | cons b bs ih =>
    unfold copy at h
    split at h
    · cases h
      exact ⟨hK, rfl, rfl, 0, by simp, rfl, by simpa using hdone, by simp⟩
    split at h
    · cases h
      exact ⟨hK, rfl, rfl, 0, by simp, rfl, by simpa using hdone, by simp⟩
    cases hjb : judgeBatch j m w.known b with
    | mk known₁ r =>
    rw [hjb] at h
    cases r with
    | error e =>
      cases h
      rw [judgeBatch_known hjb]
      exact ⟨hK, rfl, rfl, 0, by simp, rfl, by simpa using hdone, by simp⟩
    | ok kept =>
      obtain ⟨hR, hK₁⟩ := hone b mem_cons_self _ _ _ hK hjb
      obtain ⟨hk, hinfo, hwr, n, hn, hpos, hrw, hwhole⟩ := ih (fun x hx => hone x (.tail _ hx)) hK₁
        (hdone.snoc hR) h
      refine ⟨hk, hinfo, hwr, n + 1, by simpa using hn, ?_, ?_, fun ho => by simpa using hwhole ho⟩
      · rw [hpos]
        unfold Rewrite.write
        dsimp only
        omega
      · simpa using hrw

variable {generation : ℕ}

/-- The writing half of a step: it stops within the segment, or the copy
is whole and swapped in. -/
theorem copyStep_cases {K : List (ℤ × ℕ) → Prop} {s : Segment B} {rw : Rewrite B} {out : Cleaned B}
    (hone : ∀ b ∈ s.batches, ∀ known known' kept, K known →
      judgeBatch j m known b = (known', .ok kept) → R b (b.replaced kept) ∧ K known')
    (hK : K w.known) (hpos : rw.pos ≤ s.batches.length)
    (hdone : Rewrites R (s.batches.take rw.pos) rw.written)
    (h : copyStep c j m generation p s rw w = (w', out)) :
    K w'.known ∧ match out with
      | .paused rw' => rw'.info = rw.info ∧ rw'.writing = rw.writing ∧
          rw'.pos ≤ s.batches.length ∧ Rewrites R (s.batches.take rw'.pos) rw'.written
      | .swapped _ p' => ∃ written, Rewrites R s.batches written ∧
          swapSegment c p rw.info written generation = .ok (some p')
      | .unchanged => False
      | .abandoned | .failed _ => True := by
  unfold copyStep at h
  cases hc : copy c j m (s.batches.drop rw.pos) rw w with
  | mk w₁ r =>
  obtain ⟨rw₁, copied⟩ := r
  rw [hc] at h
  obtain ⟨hK₁, hinfo, hwr, n, hn, hpos₁, hcopied, hwhole⟩ :=
    copy_rewrites (fun b hb => hone b (mem_of_mem_drop hb)) hK hdone hc
  rw [← take_add, ← hpos₁] at hcopied
  rw [length_drop] at hn hwhole
  cases copied with
  | paused =>
    cases h
    exact ⟨hK₁, hinfo, hwr, by omega, hcopied⟩
  | failed e =>
    cases h
    exact ⟨hK₁, trivial⟩
  | whole =>
    have hall : s.batches.take rw₁.pos = s.batches := by
      apply take_of_length_le
      have := hwhole rfl
      omega
    rw [hall] at hcopied
    dsimp only at h
    split at h
    · cases h
      exact ⟨hK₁, trivial⟩
    · cases h
      exact ⟨hK₁, trivial⟩
    next p' hswap =>
    cases h
    exact ⟨hK₁, _, hcopied, hinfo ▸ hswap⟩

end

-- ==== the swap

theorem mem_replaceSegment {s : Segment B} (h : s ∈ replaceSegment base new segs) :
    (s ∈ segs ∧ s.base ≠ base) ∨ s ∈ new := by
  obtain ⟨x, hx, hin⟩ := mem_flatMap.1 h
  split at hin
  · exact Or.inr (by simpa using hin)
  · next hne =>
      rw [mem_singleton.1 hin]
      exact Or.inl ⟨hx, hne⟩

theorem rewrites_replaceSegment (hnew : ∀ s ∈ segs, s.base = base → SegReplaces R s new.toList)
    (hold : ∀ s ∈ segs, ∀ b ∈ s.batches, R b [b]) :
    Rewrites (SegReplaces R) segs (replaceSegment base new segs) := by
  induction segs with
  | nil => exact Rewrites.nil
  | cons s segs ih =>
    have hrest := ih (fun x hx => hnew x (.tail _ hx)) fun x hx => hold x (.tail _ hx)
    unfold replaceSegment
    rw [flatMap_cons]
    refine Rewrites.cons ?_ hrest
    split
    · next heq => exact hnew s mem_cons_self heq
    · exact SegReplaces.refl (hold s mem_cons_self)

variable {c : Call B} {written : List (Batch B)} {generation : ℕ}

/-- The file a swap puts at a base: none, or one with the finished
copy. -/
def Fresh (base : ℤ) (written : List (Batch B)) : Option (Segment B) → Prop
  | none => written = []
  | some s => s.base = base ∧ s.batches = written

/-- A swap that goes through. It is of a sealed segment, in the layout
the plan was made for; a file that could not be removed stays. -/
theorem swapSegment_cases (h : swapSegment c p info written generation = .ok (some p')) :
    p.layoutGeneration = generation ∧ p.active.base ≠ info.base ∧
      (∃ s, p.openSegment info.base = some s) ∧
      ((written = [] ∧ c.unlinkFails info.base = true ∧
        p' = { p with layoutGeneration := p.layoutGeneration + 1 }) ∨
      ∃ new, Fresh info.base written new ∧ p' = { p with
          closed := replaceSegment info.base new p.closed
          layoutGeneration := p.layoutGeneration + 1 }) := by
  unfold swapSegment at h
  split at h
  · cases h
  next hgen =>
  split at h
  · cases h
  next s hopen =>
  split at h
  · cases h
  split at h
  · cases h
  next hact =>
  refine ⟨not_not.1 hgen, hact, ⟨s, hopen⟩, ?_⟩
  split at h
  · next hfail =>
      cases h
      exact Or.inl ⟨hfail.1, hfail.2, rfl⟩
  split at h
  · next hnil =>
      cases h
      exact Or.inr ⟨none, hnil, rfl⟩
  split at h
  · cases h
  · cases h
    exact Or.inr ⟨some _, ⟨rfl, rfl⟩, rfl⟩

/-- What a swap leaves is the old segments rewritten. -/
theorem swapSegment_replaced (hrefl : ∀ b ∈ p.log, R b [b])
    (hcopy : ∀ s ∈ p.closed, s.base = info.base → Rewrites R s.batches written)
    (h : swapSegment c p info written generation = .ok (some p')) :
    Replaced R p p' ∧ p'.layoutGeneration = p.layoutGeneration + 1 := by
  have hclosed : ∀ s ∈ p.closed, ∀ b ∈ s.batches, R b [b] := by
    intro s hs b hb
    exact hrefl b (Partition.mem_log.2 ⟨s, mem_append_left _ hs, hb⟩)
  obtain ⟨-, -, -, ⟨-, -, rfl⟩ | ⟨new, hnew, rfl⟩⟩ := swapSegment_cases h
  · refine ⟨⟨Rewrites.refl fun s hs => ?_, rfl, rfl⟩, rfl⟩
    exact SegReplaces.refl (hclosed s hs)
  refine ⟨⟨rewrites_replaceSegment (fun s hs hbase => ?_) hclosed, rfl, rfl⟩, rfl⟩
  refine ⟨written, hcopy s hs hbase, ?_⟩
  cases new with
  | none => exact Or.inl ⟨rfl, hnew⟩
  | some s' => exact Or.inr ⟨s', rfl, hnew.1.trans hbase.symm, hnew.2⟩

end Kafgres.Compaction
