/-
Both engines read what a plain scan would, when they read anything.

A `read_committed` read goes no further than the first 65,536 markers
from the offset on, and markers outlive their batches. Where as many lie
before the next batch there is, it returns nothing, and the consumer asks
for the same offset again (`markers_stall_read`).
-/
import Kafgres.Fetch.Proofs.ReadCommitted
import Kafgres.Fetch.Table

namespace Kafgres.Fetch

open Compaction List

variable {B : Type} {log bs : List (Batch B)} {l : Limits} {offset : ℤ}
  {maxBytes : ℕ} {isolation : IsolationLevel}

-- ==== a stretch of the log

/-- The batches a read can return lie one after the other. -/
theorem admits_run (hord : log.Pairwise (·.lastOffset < ·.baseOffset))
    (hext : ∀ b ∈ log, b.baseOffset ≤ b.lastOffset) :
    ∃ pre post, log = pre ++ log.filter l.admits ++ post ∧ ∀ b ∈ pre, b.lastOffset < l.offset := by
  induction log with
  | nil => exact ⟨[], [], rfl, by simp⟩
  | cons b log ih =>
    obtain ⟨hb, hrest⟩ := pairwise_cons.1 hord
    have hbase := hext b mem_cons_self
    obtain ⟨pre, post, hlog, hpre⟩ := ih hrest fun x hx => hext x (.tail _ hx)
    by_cases hlow : b.lastOffset < l.offset
    · refine ⟨b :: pre, post, ?_, forall_mem_cons.2 ⟨hlow, hpre⟩⟩
      rw [filter_cons_of_neg (by simp [Limits.admits, hlow])]
      simpa using hlog
    by_cases hceil : b.baseOffset < l.ceiling
    · rw [filter_cons_of_pos (by simp [Limits.admits]; omega)]
      -- what follows is past the offset, so nothing of it is passed over
      obtain rfl : pre = [] := by
        refine eq_nil_iff_forall_not_mem.2 fun x hx => ?_
        have hin : x ∈ log := by
          rw [hlog]
          simp [hx]
        have := hpre x hx
        have := hb x hin
        have := hext x (.tail _ hin)
        omega
      refine ⟨[], post, ?_, by simp⟩
      rw [nil_append] at hlog
      rw [nil_append, cons_append, ← hlog]
    · refine ⟨[], b :: log, ?_, by simp⟩
      rw [filter_eq_nil_iff.2]
      · rfl
      intro x hx
      have : l.ceiling ≤ x.baseOffset := by
        rcases mem_cons.1 hx with rfl | hx
        · omega
        · have := hb x hx
          omega
      simp [Limits.admits, this]

/-- What fits is within the limit, but for a first batch. -/
theorem fitting_bytes (hlen : ∀ b ∈ bs, 0 < b.len) (used : ℕ) :
    (used ≠ 0 → used ≤ maxBytes →
      used + ((fitting maxBytes used bs).map (·.len)).sum ≤ maxBytes) ∧
    (((fitting maxBytes 0 bs).map (·.len)).sum ≤ maxBytes ∨
      (fitting maxBytes 0 bs).length = 1) := by
  induction bs generalizing used with
  | nil => exact ⟨fun _ h => by simpa [fitting] using h, .inl (by simp [fitting])⟩
  | cons b bs ih =>
    have hb := hlen b mem_cons_self
    have ih := ih fun x hx => hlen x (.tail _ hx)
    constructor
    · intro hused hle
      rw [fitting]
      split
      · simpa using hle
      next hfits =>
      split
      · simp
        omega
      · have := (ih (used + b.len)).1 (by omega) (by omega)
        simp
        omega
    · rw [fitting, if_neg (by simp), Nat.zero_add]
      split
      · exact .inr rfl
      · have := (ih b.len).1 (by omega) (by omega)
        exact .inl (by simpa using this)

theorem fitting_ne_nil (h : bs ≠ []) : fitting maxBytes 0 bs ≠ [] := by
  cases bs with
  | nil => exact absurd rfl h
  | cons b bs =>
    rw [fitting, if_neg (by simp)]
    split <;> simp

/-- A read that takes the first batches up to a place, as many as fit, is
a scan exactly if it comes to a batch where there is one. -/
theorem scans_iff (maxBytes : ℕ) (hord : log.Pairwise (·.lastOffset < ·.baseOffset))
    (hext : ∀ b ∈ log, b.baseOffset ≤ b.lastOffset) (hlen : ∀ b ∈ log, 0 < b.len) {ceiling : ℤ}
    (hle : l.ceiling ≤ ceiling) (hbs : bs <+: log.filter l.admits)
    (hne : bs = [] → log.filter l.admits = []) :
    Scans log l.offset ceiling maxBytes
        (if l.offset < ceiling then fitting maxBytes 0 bs else []) ↔
      Reached log l.offset ceiling l.ceiling := by
  have hadmits : ∀ b : Batch B, l.admits b = true ↔
      l.offset ≤ b.lastOffset ∧ b.baseOffset < l.ceiling := by
    simp [Limits.admits]
  constructor
  · intro h hq
    have hout := h.some hq
    split_ifs at hout with hlt
    · refine ⟨hlt, ?_⟩
      obtain ⟨b, hb⟩ := exists_mem_of_ne_nil bs fun hnil => hout (by simp [hnil, fitting])
      obtain ⟨hlog, hadm⟩ := mem_filter.1 (hbs.subset hb)
      exact ⟨b, hlog, (hadmits b).1 hadm⟩
    · exact absurd rfl hout
  · intro hreached
    split_ifs with hlt
    · have hfit := fitting_prefix maxBytes 0 bs
      have hmem : ∀ b ∈ bs, b ∈ log := fun b hb => (mem_filter.1 (hbs.subset hb)).1
      refine ⟨?_, fun b hb => ?_, (fitting_bytes (fun b hb => hlen b (hmem b hb)) 0).2,
        fun hq => fitting_ne_nil fun hnil => ?_⟩
      · obtain ⟨pre, post, hlog, hlow⟩ := admits_run (l := l) hord hext
        obtain ⟨rest, hrest⟩ := hfit.trans hbs
        refine ⟨pre, rest ++ post, ?_, hlow⟩
        rw [← hrest] at hlog
        simpa using hlog
      · have hb' := (hadmits b).1 (mem_filter.1 ((hfit.trans hbs).subset hb)).2
        exact ⟨hb'.1, hb'.2.trans_le hle⟩
      · obtain ⟨b, hb, hb'⟩ := (hreached hq).2
        exact filter_eq_nil_iff.1 (hne hnil) b hb ((hadmits b).2 hb')
    · exact ⟨⟨[], log, rfl, by simp⟩, by simp, .inl (Nat.zero_le _),
        fun hq => absurd (hreached hq).1 hlt⟩

-- ==== the segments

theorem readSegments_opened {s : Store B} {segs : List (Segment B)}
    (h : ∀ seg ∈ segs, s.opens seg.base = true) (r : Reading B) :
    ∃ r', readSegments s l segs r = .ok r' := by
  induction segs generalizing r with
  | nil => exact ⟨r, rfl⟩
  | cons seg segs ih =>
    have ih := ih fun x hx => h x (.tail _ hx)
    simp only [readSegments, h seg mem_cons_self]
    split
    · exact ih r
    split
    next hno => cases hno
    split
    · exact ⟨_, rfl⟩
    · exact ih _

/-- The markers that are loaded do not raise the ceiling. -/
theorem limits_ceiling_le (s : Store B) (offset : ℤ) (maxBytes : ℕ)
    (isolation : IsolationLevel) :
    (limits s offset maxBytes isolation).ceiling ≤ s.ceiling isolation := by
  cases isolation with
  | readUncommitted => exact le_rfl
  | readCommitted =>
    unfold limits committedMarkers
    dsimp only [Store.ceiling]
    split <;> simp

/-- The batches a read of the segment engine returns, when its files
open. -/
theorem read_batches {s : Store B} (maxBytes : ℕ) (isolation : IsolationLevel)
    (h : Lined s s.segments)
    (hopen : ∀ seg ∈ s.segments, s.opens seg.base = true)
    (hlow : s.logStart ≤ offset) (hhigh : offset ≤ s.nextOffset) :
    ∃ slice, read s offset maxBytes isolation = .ok slice ∧
      slice.batches = if offset < s.ceiling isolation then
          fitting maxBytes 0 (s.log.filter (limits s offset maxBytes isolation).admits)
        else [] := by
  generalize hl : limits s offset maxBytes isolation = l
  have hoff : l.offset = offset ∧ l.maxBytes = maxBytes := by
    subst hl
    cases isolation <;> exact ⟨rfl, rfl⟩
  obtain ⟨r, hr⟩ := readSegments_opened hopen ⟨[], offset, []⟩ (l := l)
  obtain ⟨hout, -⟩ := readSegments_spec h (hoff.1.symm ▸ hlow) (hoff.1.symm ▸ hr)
  rw [hoff.2] at hout
  unfold read
  rw [if_neg (by omega), hl, hr]
  cases isolation <;> dsimp only <;> split_ifs
  all_goals exact ⟨_, rfl, by simp [*]⟩

-- ==== the table

/-- The query begins at the first batch that reaches the offset. -/
theorem beginning_le_iff {s : TableStore B} {b : Batch B}
    (hord : s.rows.Pairwise (·.lastOffset < ·.baseOffset))
    (hext : ∀ b ∈ s.rows, b.baseOffset ≤ b.lastOffset) (hb : b ∈ s.rows) :
    s.beginning offset ≤ b.baseOffset ↔ offset ≤ b.lastOffset := by
  have hbb := hext b hb
  unfold TableStore.beginning
  cases hmax : ((s.rows.filter fun b => decide (b.baseOffset ≤ offset) &&
      decide (offset ≤ b.lastOffset)).map (·.baseOffset)).max? with
  | none =>
    rw [max?_eq_none_iff, map_eq_nil_iff, filter_eq_nil_iff] at hmax
    have := hmax b hb
    simp at this ⊢
    omega
  | some m =>
    obtain ⟨c, hc, rfl⟩ := mem_map.1 (max?_mem hmax)
    obtain ⟨hc, hin⟩ := mem_filter.1 hc
    simp at hin ⊢
    rcases apart_of_ordered hord hb hc with rfl | hlt | hlt <;> omega

/-- A read of the table engine. -/
theorem TableStore.read_scans_iff {s : TableStore B}
    (hord : s.rows.Pairwise (·.lastOffset < ·.baseOffset))
    (hext : ∀ b ∈ s.rows, b.baseOffset ≤ b.lastOffset) (hlen : ∀ b ∈ s.rows, 0 < b.len)
    (hlow : s.logStart ≤ offset) (hhigh : offset ≤ s.nextOffset) :
    ∃ slice, s.read offset maxBytes isolation = .ok slice ∧
      (Scans s.rows offset (s.ceiling isolation) maxBytes slice.batches ↔
        Reached s.rows offset (s.ceiling isolation) (s.ceiling isolation)) := by
  let l : Limits := ⟨offset, s.ceiling isolation, maxBytes, none⟩
  have hrows : (s.rows.filter fun b =>
      decide (s.beginning offset ≤ b.baseOffset) && decide (b.baseOffset < s.ceiling isolation)) =
      s.rows.filter l.admits := by
    refine filter_congr fun b hb => ?_
    rw [decide_eq_decide.2 (beginning_le_iff hord hext hb)]
    rfl
  have hfirst : (s.rows.filter l.admits).take rowsPerRead <+: s.rows.filter l.admits :=
    take_prefix ..
  have hiff := scans_iff maxBytes hord hext hlen le_rfl hfirst fun hnil =>
    (take_eq_nil_iff.1 hnil).resolve_left nofun
  unfold TableStore.read
  rw [if_neg (by omega), hrows]
  split_ifs with hlt
  · exact ⟨_, rfl, by rwa [if_pos (show l.offset < _ from hlt)] at hiff⟩
  · exact ⟨_, rfl, by rwa [if_neg (show ¬ l.offset < _ from hlt)] at hiff⟩

-- ==== the two

/-- A read at an offset of the log succeeds in either engine, and returns
what a plain scan comes to first exactly if, where a batch qualifies, the
offset is below the ceiling and a batch begins below what the loaded
markers go up to. -/
theorem reads_scan (offset : ℤ) (maxBytes : ℕ) (isolation : IsolationLevel) :
    (∀ s : Store B, Lined s s.segments → (∀ b ∈ s.log, 0 < b.len) →
      (∀ seg ∈ s.segments, s.opens seg.base = true) →
      s.logStart ≤ offset → offset ≤ s.nextOffset →
      ∃ slice, read s offset maxBytes isolation = .ok slice ∧
        (Scans s.log offset (s.ceiling isolation) maxBytes slice.batches ↔
          Reached s.log offset (s.ceiling isolation)
            (limits s offset maxBytes isolation).ceiling)) ∧
    ∀ s : TableStore B, s.rows.Pairwise (·.lastOffset < ·.baseOffset) →
      (∀ b ∈ s.rows, b.baseOffset ≤ b.lastOffset) →
      (∀ b ∈ s.rows, 0 < b.len) →
      s.logStart ≤ offset → offset ≤ s.nextOffset →
      ∃ slice, s.read offset maxBytes isolation = .ok slice ∧
        (Scans s.rows offset (s.ceiling isolation) maxBytes slice.batches ↔
          Reached s.rows offset (s.ceiling isolation) (s.ceiling isolation)) := by
  refine ⟨fun s h hlen hopen hlow hhigh => ?_, fun _ hord hext hlen hlow hhigh =>
    TableStore.read_scans_iff hord hext hlen hlow hhigh⟩
  obtain ⟨slice, hread, hbatches⟩ := read_batches maxBytes isolation h hopen hlow hhigh
  have hoff : (limits s offset maxBytes isolation).offset = offset := by
    cases isolation <;> rfl
  have hord : s.log.Pairwise (·.lastOffset < ·.baseOffset) := h.ordered
  have hiff := scans_iff maxBytes hord h.extent hlen
    (limits_ceiling_le s offset maxBytes isolation) prefix_rfl id
  rw [hoff, ← hbatches] at hiff
  exact ⟨slice, hread, hiff⟩

-- ==== examples

/-- At the cap, a read goes no further than the markers do. -/
theorem committedMarkers_le {markers : List ℤ} {from_ to_ last : ℤ} (hnodup : markers.Nodup)
    (hmany : markersPerFetch ≤ markers.length) (hfrom : from_ ≤ last)
    (hin : ∀ m ∈ markers, from_ ≤ m ∧ m < to_ ∧ m ≤ last) :
    (committedMarkers markers from_ to_).2 ≤ last + 1 := by
  have hall : (markers.filter fun b => decide (from_ ≤ b) && decide (b < to_)) = markers :=
    filter_eq_self.2 fun m hm => by simp [hin m hm]
  unfold committedMarkers
  dsimp only
  rw [hall]
  generalize hsorted : markers.insertionSort (· ≤ ·) = sorted
  have hperm : sorted.Perm markers := hsorted ▸ perm_insertionSort ..
  have hlen : (sorted.take markersPerFetch).dedup.length = markersPerFetch := by
    rw [((hperm.nodup_iff.2 hnodup).sublist (take_sublist ..)).dedup, length_take,
      hperm.length_eq, min_eq_left hmany]
  rw [if_neg (by omega)]
  refine (min_le_left _ _).trans (Int.add_le_add_right ?_ 1)
  rcases foldl_max_mem (sorted.take markersPerFetch) from_ with heq | hmem
  · rwa [heq]
  · exact (hin _ (hperm.mem_iff.1 (mem_of_mem_take hmem))).2.2

/-- The markers of the first 65,536 offsets. -/
@[irreducible] def firstMarkers : List ℤ := (range markersPerFetch).map (↑)

/-- A batch at offset 70000, below it the markers of batches that were
compacted away. -/
def outlived : Store ℕ where
  disk := [⟨0, 0, [{ oneRecord 70000 5 0 false 7 with transactional := false }]⟩]
  nextOffset := 70001
  logStart := 0
  pending := []
  txns := { markers := firstMarkers }

/-- The batch is below the last stable offset, and a read from 0 on does
not return it. -/
theorem markers_stall_read :
    Lined outlived outlived.segments ∧
    (∀ b ∈ outlived.log, 0 < b.len) ∧ (∀ seg ∈ outlived.segments, outlived.opens seg.base = true) ∧
    outlived.logStart ≤ 0 ∧ 0 ≤ outlived.nextOffset ∧
    (∃ b ∈ outlived.log, 0 ≤ b.lastOffset ∧ b.baseOffset < outlived.ceiling .readCommitted) ∧
    ∃ slice, read outlived 0 1000 .readCommitted = .ok slice ∧ slice.batches = [] := by
  have hlined : Lined outlived outlived.segments := by constructor <;> decide
  refine ⟨hlined, by decide, by decide, by decide, by decide, by decide, ?_⟩
  obtain ⟨slice, hread, hbatches⟩ := read_batches 1000 .readCommitted hlined (by decide)
    (by decide : outlived.logStart ≤ 0) (by decide)
  refine ⟨slice, hread, ?_⟩
  have hceil : (limits outlived 0 1000 .readCommitted).ceiling ≤ 65535 + 1 := by
    have hlso : outlived.lastStableOffset = 70001 := by decide
    unfold limits
    dsimp only
    rw [hlso, show outlived.txns.markers = firstMarkers from rfl]
    unfold firstMarkers
    refine committedMarkers_le (nodup_range.map Nat.cast_injective) (by simp) (by decide) ?_
    simp only [forall_mem_map, mem_range, markersPerFetch]
    omega
  have hnone : outlived.log.filter (limits outlived 0 1000 .readCommitted).admits = [] := by
    refine filter_eq_nil_iff.2 (forall_mem_singleton.2 ?_)
    simp only [Limits.admits, Bool.and_eq_true, decide_eq_true_eq]
    exact fun h => absurd (h.2.trans_le hceil) (by decide)
  rw [hbatches, hnone]
  rfl

/-- Three offsets in one batch. -/
def threeOffsets : Batch ℕ :=
  { oneRecord 0 5 0 false 7 with lastOffsetDelta := 2 }

/-- Two batches from the middle of the first on, with the marker of
another behind them. -/
theorem reads_scan_middle :
    let rows := [threeOffsets, oneRecord 3 5 0 false 8]
    let s : Store ℕ :=
      ⟨[⟨0, 0, rows⟩], fun _ => [(0, 0)], fun _ => true, 5, 0, [], ⟨[4], [], [], []⟩⟩
    (∃ slice, read s 1 1000 .readCommitted = .ok slice ∧ Scans s.log 1 5 1000 slice.batches) ∧
    ∃ slice, TableStore.read ⟨rows, 4, 0, {}⟩ 1 1000 .readUncommitted =
        .ok slice ∧ Scans rows 1 4 1000 slice.batches := by
  intro rows s
  obtain ⟨slice, hread, hiff⟩ := (@reads_scan ℕ 1 1000 .readCommitted).1 s
    (by constructor <;> decide) (by decide) (by decide) (by decide) (by decide)
  obtain ⟨slice', hread', hiff'⟩ := (@reads_scan ℕ 1 1000 .readUncommitted).2 ⟨rows, 4, 0, {}⟩
    (by decide) (by decide) (by decide) (by decide) (by decide)
  exact ⟨⟨slice, hread, hiff.2 (by decide +kernel)⟩, slice', hread', hiff'.2 (by decide)⟩

end Kafgres.Fetch
