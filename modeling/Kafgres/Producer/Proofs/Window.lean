/-
The sequence window is exactly-once over every run of checks.

Rows are keyed by their first sequence, so an accepted batch can push a
row out early by reusing its key. First sequences walk forward and wrap
at `i32::MAX`, so a key comes back after 2^31 numbers at the earliest.
-/
import Kafgres.Lib.Run
import Kafgres.Producer.Window
import Mathlib.Algebra.Order.BigOperators.Group.List
import Mathlib.Data.List.Chain
import Mathlib.Tactic.Linarith

namespace Kafgres.Producer

open List

/-- Sequence numbers before the count wraps. -/
def sequenceSpace : ℤ := 2147483648

/-- The sequence number after `last`, wrapping after `i32::MAX` to 0. -/
def nextSeq (last : ℤ) : ℤ := if last = i32Max then 0 else last + 1

/-- How a batch may follow the one accepted before it: in the same epoch
with the next sequence, or in a higher epoch from sequence 0. -/
def Follows (a b : Arrival) : Prop := (a.epoch = b.epoch ∧ b.firstSeq = nextSeq a.lastSeq) ∨
    (a.epoch < b.epoch ∧ b.firstSeq = 0)

/-- Any six batches accepted one after the other take fewer than 2^31
sequence numbers together. -/
def SixShort (accepted : List Arrival) : Prop := ∀ block, block <:+: accepted → block.length ≤ 6 →
    (block.map fun a => a.len).sum < sequenceSpace

-- ==== sequence numbers

theorem inSequence_iff {last next : ℤ} (h : next ≤ i32Max) :
    inSequence last next ↔ next = nextSeq last := by
  simp only [inSequence, nextSeq, Bool.or_eq_true, Bool.and_eq_true, decide_eq_true_eq]
  split <;> omega

/-- A sequence number at most one turn past the end, brought back. -/
def wrapSeq (x : ℤ) : ℤ := if x ≤ i32Max then x else x - sequenceSpace

theorem len_pos (a : Incoming) : 0 < a.len := by
  have := a.delta_nonneg
  simp only [Incoming.len]
  omega

/-- The batch after `a` starts `a.len` past it. -/
theorem nextSeq_lastSeq (a : Incoming) : nextSeq a.lastSeq = wrapSeq (a.firstSeq + a.len) := by
  have h1 := a.firstSeq_le
  have h3 := a.delta_le
  simp only [nextSeq, Incoming.lastSeq, incrementSequence, wrapSeq,
    Incoming.len, i32Max, sequenceSpace] at *
  split_ifs <;> omega

theorem wrapSeq_add {f d e : ℤ} (hf : f ≤ i32Max) (hd : 0 ≤ d)
    (he : 0 ≤ e) (hde : d + e < sequenceSpace) :
    wrapSeq (wrapSeq (f + d) + e) = wrapSeq (f + (d + e)) := by
  simp only [wrapSeq, i32Max, sequenceSpace] at *
  split_ifs <;> omega

theorem wrapSeq_ne {f d : ℤ} (hd : 0 < d) (hlt : d < sequenceSpace) : wrapSeq (f + d) ≠ f := by
  simp only [wrapSeq, sequenceSpace] at *
  split_ifs <;> omega

private theorem lens_nonneg (l : List Arrival) : 0 ≤ (l.map fun a => a.len).sum :=
  List.sum_nonneg fun x hx => by
    obtain ⟨a, -, rfl⟩ := List.mem_map.1 hx
    exact (len_pos a.toIncoming).le

/-- Along a chain within one epoch, the first sequences are the running
total of what came before. -/
theorem first_after {a x : Arrival} {mid post : List Arrival}
    (hchain : (a :: (mid ++ x :: post)).IsChain Follows)
    (hepoch : ∀ y ∈ mid ++ x :: post, y.epoch = a.epoch)
    (hsum : ((a :: mid).map fun a => a.len).sum < sequenceSpace) :
    x.firstSeq = wrapSeq (a.firstSeq + ((a :: mid).map fun a => a.len).sum) := by
  -- From the newest end: the induction peels the batch before `x`.
  induction mid using reverseRecOn generalizing x post with
  | nil =>
    have hf := (isChain_cons_cons.1 hchain).1
    have he := hepoch x (by simp)
    rcases hf with ⟨-, hf⟩ | ⟨hlt, -⟩
    · simpa [nextSeq_lastSeq] using hf
    · omega
  | append_singleton mid y ih =>
    have hy := len_pos y.toIncoming
    have hmid := lens_nonneg (a :: mid)
    have htotal : ((a :: (mid ++ [y])).map fun a => a.len).sum
        = ((a :: mid).map fun a => a.len).sum + y.len := by
      simp [add_assoc]
    rw [htotal] at hsum ⊢
    have hsplit : a :: (mid ++ [y] ++ x :: post) = (a :: mid) ++ y :: (x :: post) := by simp
    have hchain' : ((a :: mid) ++ y :: (x :: post)).IsChain Follows := hsplit ▸ hchain
    have hepoch' : ∀ z ∈ mid ++ y :: (x :: post), z.epoch = a.epoch := by
      simpa using hepoch
    have hyfirst : y.firstSeq = wrapSeq (a.firstSeq + ((a :: mid).map fun a => a.len).sum) :=
      ih hchain' (by simpa using hepoch') (by omega)
    have hf : Follows y x := (isChain_cons_cons.1 (isChain_split.1 hchain').2).1
    have hey := hepoch y (by simp)
    have hex := hepoch x (by simp)
    rcases hf with ⟨-, hf⟩ | ⟨hlt, -⟩
    · rw [hf, nextSeq_lastSeq, hyfirst]
      exact wrapSeq_add a.firstSeq_le hmid hy.le (by omega)
    · omega

-- ==== the invariant

/-- What every state of a run satisfies. -/
structure WindowInv (s : WindowState) : Prop where
  window_eq : s.window = (s.accepted.map Arrival.row).foldl record []
  chain : s.accepted.IsChain Follows

/-- The row just recorded is the newest. -/
theorem record_eq_append (w : Window) (r : Retained) : ∃ u, record w r = u ++ [r] :=
  Recency.put_eq_append (by decide) w r

theorem foldl_record_getLast? (rows : List Retained) :
    (rows.foldl record []).getLast? = rows.getLast? := by
  cases rows using reverseRecOn with
  | nil => rfl
  | append_singleton rows r =>
    rw [foldl_append]
    obtain ⟨u, hu⟩ := record_eq_append (rows.foldl record []) r
    simp [hu]

variable {s : WindowState}

/-- The newest row is the last batch accepted. -/
theorem WindowInv.newest (h : WindowInv s) :
    s.window.getLast? = s.accepted.getLast?.map Arrival.row := by
  rw [h.window_eq, foldl_record_getLast?, getLast?_map]

/-- What acceptance means against the newest row. -/
theorem check_append {w : Window} {newest : Retained} {epochStart : ℤ}
    {b : Incoming} (hlast : w.getLast? = some newest)
    (h : check w epochStart b.epoch b.firstSeq b.lastSeq = .append) :
    (newest.epoch = b.epoch ∧ b.firstSeq = nextSeq newest.lastSeq) ∨
      (newest.epoch < b.epoch ∧ b.firstSeq = 0) := by
  rw [check, hlast] at h
  rcases lt_trichotomy b.epoch newest.epoch with hlo | heq | hhi
  · simp [hlo] at h
  · simp only [heq, lt_irrefl, if_false] at h
    split at h
    · cases h
    cases hseq : inSequence newest.lastSeq b.firstSeq with
    | true => exact .inl ⟨heq.symm, (inSequence_iff b.firstSeq_le).1 hseq⟩
    | false =>
      rw [hseq, if_neg Bool.false_ne_true] at h
      split at h <;> cases h
  · simp only [if_neg (not_lt.2 hhi.le), gt_iff_lt, if_pos hhi] at h
    by_cases hz : b.firstSeq = 0
    · exact .inr ⟨hhi, hz⟩
    · simp [hz] at h

theorem windowInv_step (h : WindowInv s) (a : Arrival) : WindowInv (s.step a) := by
  rw [WindowState.step]
  split
  swap
  · exact h
  rename_i hcheck
  constructor
  · simp [h.window_eq, foldl_append]
  refine isChain_append.2 ⟨h.chain, isChain_singleton _, ?_⟩
  intro newest hnewest y hy
  rw [Option.mem_def] at hnewest hy
  obtain rfl : a = y := by simpa using hy
  have hlast : s.window.getLast? = some newest.row := by
    rw [h.newest, hnewest]
    rfl
  exact check_append (b := a.toIncoming) hlast hcheck

theorem windowInv_run (arrivals : List Arrival) : WindowInv (runWindow arrivals) :=
  Run.foldl_inv WindowInv (fun _ a h => windowInv_step h a) ⟨rfl, .nil⟩ arrivals

-- ==== retention

/-- Each of the last five batches of an epoch still has its row. -/
theorem row_retained (h : WindowInv s) (hshort : SixShort s.accepted)
    {pre post : List Arrival} {r : Arrival}
    (hsplit : s.accepted = pre ++ r :: post) (hfive : post.length ≤ 4)
    (hepoch : ∀ y ∈ post, y.epoch = r.epoch) : r.row ∈ s.window := by
  have hchain : (r :: post).IsChain Follows := by
    have := h.chain
    rw [hsplit] at this
    exact (isChain_append.1 this).2.1
  -- No later batch has the row's key: fewer than 2^31 numbers passed.
  have hkeys : ∀ x ∈ post.map Arrival.row, x.firstSeq ≠ r.row.firstSeq := by
    intro x hx
    obtain ⟨y, hy, rfl⟩ := mem_map.1 hx
    obtain ⟨mid, rest, rfl⟩ := append_of_mem hy
    have hsum : ((r :: mid).map fun a => a.len).sum < sequenceSpace := by
      refine hshort (r :: mid) ⟨pre, y :: rest, by simp [hsplit]⟩ ?_
      simp only [length_append, length_cons] at hfive ⊢
      omega
    have hpos : 0 < ((r :: mid).map fun a => a.len).sum := by
      have := lens_nonneg mid
      have := len_pos r.toIncoming
      simp only [map_cons, sum_cons]
      omega
    show y.firstSeq ≠ r.firstSeq
    rw [first_after hchain hepoch hsum]
    exact wrapSeq_ne hpos hsum
  rw [h.window_eq, hsplit, map_append, foldl_append, map_cons, foldl_cons]
  obtain ⟨u, hu⟩ := record_eq_append ((pre.map Arrival.row).foldl record []) r.row
  rw [hu]
  refine Recency.puts_keep _ hkeys ?_
  simp only [length_nil, length_map, retainedBatches]
  omega

theorem window_keys_nodup (h : WindowInv s) : (s.window.map Retained.firstSeq).Nodup := by
  rw [h.window_eq]
  exact Recency.puts_keys_nodup _ nodup_nil

/-- A batch of the newest epoch whose row is retained is a duplicate at
the offset in that row. -/
theorem check_duplicate {w : Window} {newest r : Retained}
    (epochStart : ℤ) (hnodup : (w.map Retained.firstSeq).Nodup)
    (hlast : w.getLast? = some newest) (hr : r ∈ w) (hepoch : r.epoch = newest.epoch) :
    check w epochStart r.epoch r.firstSeq r.lastSeq = .duplicate r.baseOffset := by
  rw [check, hlast]
  simp only [hepoch, lt_self_iff_false, if_false]
  cases hfind : w.find? fun x => decide (x.epoch = newest.epoch) && decide (x.firstSeq = r.firstSeq)
      && decide (x.lastSeq = r.lastSeq) with
  | none =>
    have := find?_eq_none.1 hfind r hr
    simp [hepoch] at this
  | some x =>
    have hx := find?_some hfind
    simp only [Bool.and_eq_true, decide_eq_true_eq] at hx
    rw [inj_on_of_nodup_map hnodup (mem_of_find?_eq_some hfind) hr hx.1.2]

-- ==== the results

/-- **The window is exactly-once.** After any run of checks from an
empty window: within an epoch the accepted batches run consecutively; a
batch equal to one of the last five accepted in the newest epoch is
answered as a duplicate at the offset it was given; a lower epoch is
fenced; and a higher one is accepted precisely from sequence 0. -/
theorem window_exactly_once (arrivals : List Arrival)
    (hshort : SixShort (runWindow arrivals).accepted) :
    let s := runWindow arrivals
    s.accepted.IsChain Follows ∧
    (∀ pre r post epochStart, s.accepted = pre ++ r :: post →
      post.length ≤ 4 → (∀ y ∈ post, y.epoch = r.epoch) →
      check s.window epochStart r.epoch r.firstSeq r.lastSeq = .duplicate r.baseOffset) ∧
    (∀ newest (b : Incoming) epochStart, s.accepted.getLast? = some newest →
      (b.epoch < newest.epoch → check s.window epochStart b.epoch b.firstSeq b.lastSeq
          = .fenced newest.epoch) ∧
      (newest.epoch < b.epoch → (check s.window epochStart b.epoch b.firstSeq b.lastSeq = .append
          ↔ b.firstSeq = 0))) := by
  intro s
  have h : WindowInv s := windowInv_run arrivals
  refine ⟨h.chain, fun pre r post epochStart hsplit hfive hepoch => ?_,
    fun newest b epochStart hnewest => ?_⟩
  · have hrow := row_retained h hshort hsplit hfive hepoch
    -- The newest accepted batch is of the same epoch as `r`.
    obtain ⟨newest, hnewest, hnepoch⟩ : ∃ newest,
        s.accepted.getLast? = some newest ∧ newest.epoch = r.epoch := by
      rw [hsplit]
      cases post using reverseRecOn with
      | nil => exact ⟨r, by simp, rfl⟩
      | append_singleton post y =>
        refine ⟨y, ?_, hepoch y (by simp)⟩
        rw [← cons_append, ← append_assoc]
        exact getLast?_concat
    have hlast : s.window.getLast? = some newest.row := by
      rw [h.newest, hnewest]
      rfl
    exact check_duplicate epochStart (window_keys_nodup h) hlast hrow hnepoch.symm
  · have hlast : s.window.getLast? = some newest.row := by
      rw [h.newest, hnewest]
      rfl
    have hrow : newest.row.epoch = newest.epoch := rfl
    constructor
    · intro hlt
      rw [check, hlast]
      simp [hrow, hlt]
    intro hgt
    rw [check, hlast]
    simp only [hrow, if_neg (not_lt.2 hgt.le), gt_iff_lt, if_pos hgt]
    split <;> simp_all

/-- A run that takes fewer than 2^31 numbers in all is short. -/
theorem sixShort_of_total {accepted : List Arrival}
    (h : (accepted.map fun a => a.len).sum < sequenceSpace) : SixShort accepted := by
  rintro block ⟨before, after, rfl⟩ -
  have hb := lens_nonneg before
  have ha := lens_nonneg after
  simp only [map_append, sum_append] at h
  omega

/-- Two batches across the wrap, then one of a new epoch. -/
def wrappingRun : List Arrival := [⟨⟨0, i32Max - 1, 1, by decide, by decide, by decide⟩, 0, 10⟩,
   ⟨⟨0, 0, 2, by decide, by decide, by decide⟩, 0, 12⟩,
   ⟨⟨1, 0, 0, by decide, by decide, by decide⟩, 0, 15⟩]

theorem window_exactly_once_wrappingRun :
    (runWindow wrappingRun).accepted = wrappingRun ∧
    (runWindow wrappingRun).accepted.IsChain Follows ∧
    check (runWindow wrappingRun).window 0 1 0 0 = .duplicate 15 ∧
    check (runWindow wrappingRun).window 0 0 3 4 = .fenced 1 := by
  have hacc : (runWindow wrappingRun).accepted = wrappingRun := rfl
  have hshort : SixShort (runWindow wrappingRun).accepted := by
    rw [hacc]
    exact sixShort_of_total (by decide)
  obtain ⟨hchain, hdup, hepochs⟩ := window_exactly_once wrappingRun hshort
  refine ⟨hacc, hchain, ?_, ?_⟩
  · exact hdup (wrappingRun.take 2) ⟨⟨1, 0, 0, by decide, by decide, by decide⟩, 0, 15⟩ [] 0
      (by rw [hacc]; rfl) (by decide) (by simp)
  · exact (hepochs ⟨⟨1, 0, 0, by decide, by decide, by decide⟩, 0, 15⟩
      ⟨0, 3, 1, by decide, by decide, by decide⟩ 0
      (by rw [hacc]; rfl)).1 (by decide)

end Kafgres.Producer
