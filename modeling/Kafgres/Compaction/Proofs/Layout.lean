/-
How the batches of a partition lie in its segments, whatever is in them.
-/
import Kafgres.Codec.Proofs.Compaction
import Kafgres.Compaction.Pass
import Kafgres.Lib.Rewriting

namespace Kafgres.Compaction

open Rewriting List Compaction.Partition

variable {B : Type} {p p' : Partition B} {b b' : Batch B} {mtime : ℤ} {s : Segment B}

theorem pairwise_of_length_le_one {α : Type} {R : α → α → Prop}
    {l : List α} (h : l.length ≤ 1) : l.Pairwise R := by
  rcases l with _ | ⟨a, _ | ⟨a', l⟩⟩
  · exact List.Pairwise.nil
  · exact pairwise_singleton R a
  · simp at h

-- ==== how the batches lie

namespace Partition

theorem mem_log : b ∈ p.log ↔ ∃ s ∈ p.segments, b ∈ s.batches := by
  simp [log]

theorem log_eq (p : Partition B) : p.log = p.closed.flatMap (·.batches) ++ p.active.batches := by
  simp [log, segments]

theorem active_mem (p : Partition B) : p.active ∈ p.segments := mem_append_right _ mem_cons_self

/-- Segments and batches are in offset order. -/
structure Layout (p : Partition B) : Prop where
  extent : ∀ b ∈ p.log, b.baseOffset ≤ b.lastOffset
  ordered : p.log.Pairwise (·.lastOffset < ·.baseOffset)
  placed : p.segments.Pairwise fun s s' =>
    s.base < s'.base ∧ ∀ b ∈ s.batches, b.lastOffset < s'.base
  based : ∀ s ∈ p.segments, 0 ≤ s.base ∧ ∀ b ∈ s.batches,
    s.base ≤ b.baseOffset
  below : ∀ b ∈ p.log, b.lastOffset < p.nextOffset
  active_le : p.active.base ≤ p.nextOffset

namespace Layout

theorem base_nonneg (h : p.Layout) (hb : b ∈ p.log) : 0 ≤ b.baseOffset := by
  obtain ⟨s, hs, hin⟩ := mem_log.1 hb
  have hbase := h.based s hs
  exact hbase.1.trans (hbase.2 b hin)

/-- Segments are told apart by their base. -/
theorem segment_eq (h : p.Layout) {s' : Segment B} (hs : s ∈ p.segments)
    (hs' : s' ∈ p.segments) (heq : s.base = s'.base) : s = s' := by
  have hsymm : Std.Symm fun x y : Segment B => x.base ≠ y.base := ⟨fun _ _ => Ne.symm⟩
  have hpw : p.segments.Pairwise fun x y => x.base ≠ y.base := h.placed.imp fun hlt => hlt.1.ne
  by_contra hne
  exact hpw.forall hs hs' hne heq

/-- A base offset names one segment. -/
theorem openSegment_eq (h : p.Layout) {base : ℤ} :
    p.openSegment base = some s ↔ s ∈ p.segments ∧ s.base = base := by
  constructor
  · intro hs
    exact ⟨mem_of_find?_eq_some hs, by simpa using find?_some hs⟩
  rintro ⟨hs, rfl⟩
  cases hf : p.openSegment s.base with
  | none =>
    have hnone := find?_eq_none.1 hf s hs
    simp at hnone
  | some s' =>
    have hs' := mem_of_find?_eq_some hf
    have hbase : s'.base = s.base := by simpa using find?_some hf
    rw [h.segment_eq hs' hs hbase]

end Layout

end Partition

-- ==== a log that grows

theorem log_append (p : Partition B) (b : Batch B) (mtime : ℤ) :
    (p.append b mtime).log = p.log ++ [{ b with baseOffset := p.nextOffset }] := by
  simp [append, log_eq]

theorem mem_log_append :
    b' ∈ (p.append b mtime).log ↔ b' ∈ p.log ∨ b' = { b with baseOffset := p.nextOffset } := by
  rw [log_append, mem_append, mem_singleton]

theorem log_roll (p : Partition B) (mtime : ℤ) : (p.roll mtime).log = p.log := by
  unfold Partition.roll
  split
  · rfl
  · simp [log_eq]

/-- A batch at the log end. -/
theorem Partition.Layout.append (hp : p.Layout)
    (hb : 0 ≤ b.lastOffsetDelta) : (p.append b mtime).Layout := by
  have hlast : p.nextOffset ≤ Batch.lastOffset { b with baseOffset := p.nextOffset } := by
    unfold Batch.lastOffset
    dsimp only
    omega
  obtain ⟨hclosed, -, hcross⟩ := pairwise_append.1 hp.placed
  constructor
  · intro x hx
    rcases mem_log_append.1 hx with hx | rfl
    · exact hp.extent x hx
    · exact hlast
  · rw [log_append]
    apply pairwise_append.2
    refine ⟨hp.ordered, pairwise_singleton _ _, fun x hx y hy => ?_⟩
    rw [mem_singleton.1 hy]
    exact hp.below x hx
  · apply pairwise_append.2
    refine ⟨hclosed, pairwise_singleton _ _, fun s hs t ht => ?_⟩
    rw [mem_singleton.1 ht]
    exact hcross s hs p.active mem_cons_self
  · intro s hs
    rcases mem_append.1 hs with hs | hs
    · exact hp.based s (mem_append_left _ hs)
    have hact := hp.based p.active p.active_mem
    rw [mem_singleton.1 hs]
    refine ⟨hact.1, ?_⟩
    exact forall_mem_append.2 ⟨hact.2, forall_mem_singleton.2 hp.active_le⟩
  · intro x hx
    change x.lastOffset < Batch.lastOffset _ + 1
    rcases mem_log_append.1 hx with hx | rfl
    · have := hp.below x hx
      omega
    · omega
  · have := hp.active_le
    change p.active.base ≤ Batch.lastOffset _ + 1
    omega

theorem Partition.Layout.roll (hp : p.Layout) (mtime : ℤ) : (p.roll mtime).Layout := by
  have hlog := log_roll p mtime
  unfold Partition.roll at hlog ⊢
  split
  · exact hp
  next hne =>
  rw [if_neg hne] at hlog
  have hactive : p.active.base < p.nextOffset := by
    obtain ⟨x, hx⟩ := exists_mem_of_ne_nil _ hne
    have hxlog := mem_log.2 ⟨p.active, p.active_mem, hx⟩
    have := (hp.based p.active p.active_mem).2 x hx
    have := hp.extent x hxlog
    have := hp.below x hxlog
    omega
  refine ⟨hlog ▸ hp.extent, hlog ▸ hp.ordered, ?_, fun s hs => ?_, hlog ▸ hp.below, le_rfl⟩
  · apply pairwise_append.2
    refine ⟨hp.placed, pairwise_singleton _ _, fun s hs t ht => ?_⟩
    rw [mem_singleton.1 ht]
    refine ⟨?_, fun x hx => hp.below x (mem_log.2 ⟨s, hs, hx⟩)⟩
    rcases mem_append.1 hs with hs | hs
    · exact ((pairwise_append.1 hp.placed).2.2 s hs p.active mem_cons_self).1.trans hactive
    · rw [mem_singleton.1 hs]
      exact hactive
  · rcases mem_append.1 hs with hs | hs
    · exact hp.based s hs
    · rw [mem_singleton.1 hs]
      have := (hp.based p.active p.active_mem).1
      exact ⟨by dsimp only; omega, fun x hx => nomatch hx⟩

-- ==== replaced segments

/-- What is put in the place of a batch lies within it. -/
structure Within (b : Batch B) (out : List (Batch B)) : Prop where
  short : out.length ≤ 1
  within : ∀ b' ∈ out, b.baseOffset ≤ b'.baseOffset ∧
    b'.baseOffset ≤ b'.lastOffset ∧ b'.lastOffset ≤ b.lastOffset

/-- A segment replaced by one at its base, or by none. -/
def SegReplaces (R : Batch B → List (Batch B) → Prop) (s : Segment B)
    (out : List (Segment B)) : Prop :=
  ∃ bs, Rewrites R s.batches bs ∧ ((out = [] ∧ bs = []) ∨
      ∃ s', out = [s'] ∧ s'.base = s.base ∧ s'.batches = bs)

variable {R : Batch B → List (Batch B) → Prop}

theorem SegReplaces.refl {s : Segment B} (h : ∀ b ∈ s.batches, R b [b]) : SegReplaces R s [s] :=
  ⟨s.batches, Rewrites.refl h, Or.inr ⟨s, rfl, rfl, rfl⟩⟩

/-- Segments replaced one by one replace their batches. -/
theorem rewrites_batches {l l' : List (Segment B)} (h : Rewrites (SegReplaces R) l l') :
    Rewrites R (l.flatMap (·.batches)) (l'.flatMap (·.batches)) := by
  induction h with
  | nil => exact Rewrites.nil
  | cons hs _ ih =>
    rw [flatMap_cons, flatMap_append]
    obtain ⟨bs, hbs, ⟨rfl, rfl⟩ | ⟨s', rfl, -, rfl⟩⟩ := hs
    · exact hbs.append ih
    · rw [flatMap_singleton]
      exact hbs.append ih

/-- Some of the sealed segments replaced, batch by batch. -/
structure Replaced (R : Batch B → List (Batch B) → Prop)
    (p p' : Partition B) : Prop where
  closed : Rewrites (SegReplaces R) p.closed p'.closed
  active : p'.active = p.active
  nextOffset : p'.nextOffset = p.nextOffset

namespace Replaced

section

variable (h : Replaced R p p') (hrefl : ∀ b ∈ p.log, R b [b])
include h hrefl

theorem log : Rewrites R p.log p'.log := by
  rw [p.log_eq] at hrefl
  rw [p.log_eq, p'.log_eq, h.active]
  apply (rewrites_batches h.closed).append
  exact Rewrites.refl fun b hb => hrefl b (mem_append_right _ hb)

theorem segments : Rewrites (SegReplaces R) p.segments p'.segments := by
  unfold Partition.segments
  rw [h.active]
  refine h.closed.append (Rewrites.refl fun s hs => ?_)
  rw [mem_singleton.1 hs]
  apply SegReplaces.refl
  exact fun b hb => hrefl b (mem_log.2 ⟨_, p.active_mem, hb⟩)

/-- Every segment stands for an old one, at its base. -/
theorem segment_source {s' : Segment B}
    (hs' : s' ∈ p'.segments) :
    ∃ s ∈ p.segments, s'.base = s.base ∧ Rewrites R s.batches s'.batches := by
  obtain ⟨s, hs, out, ⟨bs, hbs, hout⟩, hin⟩ := (h.segments hrefl).source hs'
  rcases hout with ⟨rfl, -⟩ | ⟨s₁, rfl, hbase, rfl⟩
  · cases hin
  · rw [mem_singleton.1 hin]
    exact ⟨s, hs, hbase, hbs⟩

end

theorem layout (hp : p.Layout) (h : Replaced R p p') (hrefl : ∀ b ∈ p.log, R b [b])
    (hR : ∀ b out, R b out → Within b out) : p'.Layout := by
  have hfrom : ∀ b' ∈ p'.log, ∃ b ∈ p.log, b.baseOffset ≤ b'.baseOffset ∧
      b'.baseOffset ≤ b'.lastOffset ∧ b'.lastOffset ≤ b.lastOffset := by
    intro b' hb'
    obtain ⟨b, hb, out, hout, hin⟩ := (h.log hrefl).source hb'
    exact ⟨b, hb, (hR b out hout).within b' hin⟩
  constructor
  · intro b' hb'
    obtain ⟨b, -, -, hle, -⟩ := hfrom b' hb'
    exact hle
  · refine (h.log hrefl).pairwise hp.ordered (fun b _ out hout => ?_)
      fun b c out out' hb hc hlt x hx y hy => ?_
    · exact pairwise_of_length_le_one (hR b out hout).short
    · have := (hR b out hb).within x hx
      have := (hR c out' hc).within y hy
      omega
  · refine (h.segments hrefl).pairwise hp.placed (fun s _ out hout => ?_)
      fun s t out out' hs ht hlt s' hs' t' ht' => ?_
    · obtain ⟨bs, -, ⟨rfl, -⟩ | ⟨s', rfl, -⟩⟩ := hout
      · exact List.Pairwise.nil
      · exact pairwise_singleton _ s'
    obtain ⟨bs, hbs, ⟨rfl, -⟩ | ⟨s₁, rfl, hsbase, rfl⟩⟩ := hs
    · cases hs'
    obtain ⟨-, -, ⟨rfl, -⟩ | ⟨t₁, rfl, htbase, -⟩⟩ := ht
    · cases ht'
    rw [mem_singleton.1 hs', mem_singleton.1 ht', hsbase, htbase]
    refine ⟨hlt.1, fun b' hb' => ?_⟩
    obtain ⟨b, hb, out, hout, hin⟩ := hbs.source hb'
    have := (hR b out hout).within b' hin
    have := hlt.2 b hb
    omega
  · intro s' hs'
    obtain ⟨s, hs, hbase, hbs⟩ := h.segment_source hrefl hs'
    obtain ⟨hnonneg, hge⟩ := hp.based s hs
    rw [hbase]
    refine ⟨hnonneg, fun b' hb' => ?_⟩
    obtain ⟨b, hb, out, hout, hin⟩ := hbs.source hb'
    exact (hge b hb).trans ((hR b out hout).within b' hin).1
  · intro b' hb'
    obtain ⟨b, hb, -, -, hle⟩ := hfrom b' hb'
    rw [h.nextOffset]
    exact lt_of_le_of_lt hle (hp.below b hb)
  · rw [h.active, h.nextOffset]
    exact hp.active_le

end Replaced

end Kafgres.Compaction
