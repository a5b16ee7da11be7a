/-
The epoch history is exact when epochs are raised one at a time.

The slot is then never behind the row, so an append stamps the epoch in
force. The check is against the row and the raise is an assignment: a
call that has checked can lower the slot below what another has raised it
to, and appends go on below that one's start.
-/
import Kafgres.LeaderEpoch.Proofs.History
import Kafgres.LeaderEpoch.Raise
import Kafgres.Lib.Run
import Kafgres.Lib.Spans

namespace Kafgres.LeaderEpoch

open Run Storage List

variable {s : State} {h h' : History} {epoch e : ℤ} {r : Entry}

-- ==== an ordered history

/-- Starts go up with the epochs. -/
def Increasing (h : History) : Prop := ∀ r ∈ h.rows, ∀ r' ∈ h.rows, r.leaderEpoch < r'.leaderEpoch →
    r.startOffset < r'.startOffset

/-- In an ordered history, both engines find the start of the first
epoch above. -/
theorem FirstAbove.minStart_eq (hinc : Increasing h)
    (hr : FirstAbove h epoch r) : minStart h epoch = some r.startOffset := by
  apply min?_eq_some_iff.2
  constructor
  · exact mem_map_of_mem (mem_filter.2 ⟨hr.mem, by simpa using hr.above⟩)
  intro o ho
  obtain ⟨x, hx, rfl⟩ := mem_map.1 ho
  obtain ⟨hx, habove⟩ := mem_filter.1 hx
  have hle := hr.first x hx (by simpa using habove)
  rcases hle.lt_or_eq with hlt | heq
  · exact (hinc r hr.mem x hx hlt).le
  · exact (Table.eq_of_key hr.mem hx heq) ▸ le_rfl

theorem FirstAbove.firstStart_eq (hr : FirstAbove h epoch r) :
    firstStart h epoch = some r.startOffset := by
  unfold firstStart
  have hsorted := pairwise_insertionSort (fun a b : Entry => a.leaderEpoch ≤ b.leaderEpoch)
    (h.rows.filter fun r => epoch < r.leaderEpoch)
  have hmem : ∀ x, x ∈ (h.rows.filter fun r =>
      epoch < r.leaderEpoch).insertionSort (fun a b => a.leaderEpoch ≤ b.leaderEpoch) ↔
      x ∈ h.rows ∧ epoch < x.leaderEpoch := by
    intro x
    simp [mem_insertionSort]
  cases hall : (h.rows.filter fun r => epoch < r.leaderEpoch).insertionSort
      (fun a b => a.leaderEpoch ≤ b.leaderEpoch) with
  | nil =>
    have := (hmem r).2 ⟨hr.mem, hr.above⟩
    simp [hall] at this
  | cons x xs =>
    rw [hall] at hsorted hmem
    obtain ⟨hx, habove⟩ := (hmem x).1 mem_cons_self
    -- the head is at or below `r`, which is the first
    have hle : x.leaderEpoch ≤ r.leaderEpoch := by
      rcases mem_cons.1 ((hmem r).2 ⟨hr.mem, hr.above⟩) with rfl | hin
      · exact le_rfl
      · exact (pairwise_cons.1 hsorted).1 r hin
    rw [Table.eq_of_key hx hr.mem (le_antisymm hle (hr.first x hx habove))]
    rfl

theorem exists_firstAbove (hr : r ∈ h.rows)
    (habove : epoch < r.leaderEpoch) : ∃ r', FirstAbove h epoch r' := by
  cases hmin : ((h.rows.filter fun r => epoch < r.leaderEpoch).map (·.leaderEpoch)).min? with
  | none =>
    rw [min?_eq_none_iff, map_eq_nil_iff, filter_eq_nil_iff] at hmin
    exact absurd (by simpa using habove) (hmin r hr)
  | some low =>
    obtain ⟨hmem, hlow⟩ := min?_eq_some_iff.1 hmin
    obtain ⟨r', hr', rfl⟩ := mem_map.1 hmem
    obtain ⟨hr', hlt⟩ := mem_filter.1 hr'
    refine ⟨r', hr', by simpa using hlt, fun x hx hxlt => ?_⟩
    exact hlow _ (mem_map_of_mem (mem_filter.2 ⟨hx, by simpa using hxlt⟩))

theorem matched_eq_none : matched h epoch = none ↔ ∀ r ∈ h.rows, epoch < r.leaderEpoch := by
  simp [matched, filter_eq_nil_iff]

theorem matched_eq_some :
    matched h epoch = some e ↔ (∃ r ∈ h.rows, r.leaderEpoch = e) ∧ e ≤ epoch ∧
      ∀ r ∈ h.rows, r.leaderEpoch ≤ epoch → r.leaderEpoch ≤ e := by
  unfold matched
  rw [max?_eq_some_iff]
  simp only [mem_map, mem_filter, decide_eq_true_eq]
  constructor
  · rintro ⟨⟨r, ⟨hr, hle⟩, rfl⟩, hmax⟩
    exact ⟨⟨r, hr, rfl⟩, hle, fun x hx hxle => hmax _ ⟨x, ⟨hx, hxle⟩, rfl⟩⟩
  rintro ⟨⟨r, hr, rfl⟩, hle, hmax⟩
  refine ⟨⟨r, ⟨hr, hle⟩, rfl⟩, fun b hb => ?_⟩
  obtain ⟨x, ⟨hx, hxle⟩, rfl⟩ := hb
  exact hmax x hx hxle

/-- The rows at or below an epoch decide what it matches. -/
theorem matched_congr (hsame : ∀ r, r.leaderEpoch ≤ epoch →
    (r ∈ h'.rows ↔ r ∈ h.rows)) : matched h' epoch = matched h epoch := by
  apply Option.ext
  intro e
  simp only [matched_eq_some]
  constructor
  · rintro ⟨⟨r, hr, rfl⟩, hle, hmax⟩
    exact ⟨⟨r, (hsame r hle).1 hr, rfl⟩, hle, fun x hx hxle => hmax x ((hsame x hxle).2 hx) hxle⟩
  · rintro ⟨⟨r, hr, rfl⟩, hle, hmax⟩
    exact ⟨⟨r, (hsame r hle).2 hr, rfl⟩, hle, fun x hx hxle => hmax x ((hsame x hxle).1 hx) hxle⟩

-- ==== the invariant

/-- The first offset past a batch. -/
def Stamp.stop (b : Stamp) : ℤ := b.baseOffset + b.lastOffsetDelta + 1

/-- The one call that may be under way: past its check, or past the slot
with the log where the call found it. -/
inductive Raising (current : ℤ) (slot : Slot) : List Raise → Prop where
  | idle : Raising current slot []
  | checked (epoch : ℤ) (above : current < epoch) :
      Raising current slot [.checked epoch]
  | raised (above : current < slot.leaderEpoch) :
      Raising current slot [.raised slot.leaderEpoch slot.nextOffset]

structure Inv (s : State) : Prop extends Exact s where
  nonneg : 0 ≤ s.info.leaderEpoch
  laid : Spans.Laid Stamp.baseOffset Stamp.stop 0 s.log
  next : s.slot.nextOffset = Spans.stop Stamp.stop 0 s.log
  seeds : ∀ x ∈ s.seeds, x ≤ s.info.leaderEpoch
  /-- A slot no append and no raise has come to: no epoch was taken. -/
  unset : s.slot.leaderEpoch < 0 → ∀ x ∈ s.seeds, x = s.info.leaderEpoch
  slot : 0 ≤ s.slot.leaderEpoch → s.info.leaderEpoch ≤ s.slot.leaderEpoch
  raising : Raising s.info.leaderEpoch s.slot s.raises
  stamped : ∀ b ∈ s.log, b.leaderEpoch ≤ s.info.leaderEpoch
  current : ∃ r ∈ s.info.history.rows, r.leaderEpoch = s.info.leaderEpoch
  recorded : ∀ r ∈ s.info.history.rows,
    r.leaderEpoch ≤ s.info.leaderEpoch ∧ r.startOffset ≤ s.slot.nextOffset

theorem Inv.created (epoch : ℕ) : Inv (State.created epoch) := by
  have hrow : ∀ r ∈ (State.created epoch).info.history.rows,
      r = ⟨epoch, 0⟩ := fun r hr => mem_singleton.1 hr
  exact {
    nondecreasing := nofun
    from_start := fun _ _ => nofun
    before_start := fun _ _ => nofun
    increasing := fun r hr r' hr' hlt => by
      rw [hrow r hr, hrow r' hr'] at hlt
      exact absurd hlt (lt_irrefl _)
    nonneg := Int.natCast_nonneg epoch
    laid := trivial
    next := rfl
    seeds := nofun
    unset := fun _ => nofun
    slot := fun h => absurd (show (0 : ℤ) ≤ -1 from h) (by decide)
    raising := .idle
    stamped := nofun
    current := ⟨⟨epoch, 0⟩, mem_singleton.2 rfl, rfl⟩
    recorded := fun r hr => by
      rw [hrow r hr]
      exact ⟨le_rfl, le_rfl⟩ }

/-- Every batch begins below the log end. -/
theorem Inv.below (hs : Inv s) {b : Stamp} (hb : b ∈ s.log) : b.baseOffset < s.slot.nextOffset := by
  have hstop : b.baseOffset + b.lastOffsetDelta + 1 ≤ _ := hs.laid.hi_le hb
  have := hs.next
  omega

variable {rs : List Raise} {m m' : Meta} {slot : Slot} {current : ℤ}

theorem Raising.eq_of_checked (hr : Raising current slot rs) (hmem : .checked e ∈ rs) :
    rs = [.checked e] ∧ current < e := by
  cases hr with
  | idle => cases hmem
  | checked e' above =>
    cases mem_singleton.1 hmem
    exact ⟨rfl, above⟩
  | raised => cases mem_singleton.1 hmem

theorem Raising.eq_of_raised {start : ℤ}
    (hr : Raising current slot rs) (hmem : .raised e start ∈ rs) :
    rs = [.raised e start] ∧ current < e ∧ e = slot.leaderEpoch ∧ start = slot.nextOffset := by
  cases hr with
  | idle => cases hmem
  | checked => cases mem_singleton.1 hmem
  | raised above =>
    cases mem_singleton.1 hmem
    exact ⟨rfl, above, rfl, rfl⟩

theorem Raising.erase (hr : Raising current slot rs) (r : Raise) :
    Raising current slot (rs.erase r) := by
  by_cases hmem : r ∈ rs
  · have hnil : rs.erase r = [] := by
      cases hr <;> simp_all
    rw [hnil]
    exact .idle
  · rw [erase_of_not_mem hmem]
    exact hr

/-- A slot that is not above the row is not one a call has raised. -/
theorem Raising.settle {slot' : Slot}
    (hr : Raising current slot rs) (hle : slot.leaderEpoch ≤ current) :
    Raising current slot' rs := by
  cases hr with
  | idle => exact .idle
  | checked e above => exact .checked e above
  | raised above => omega

-- ==== the appends

/-- The slot an append that gets through leaves behind. -/
def State.stamping (s : State) : Slot :=
  { s.slot with leaderEpoch := s.info.leaderEpoch }

/-- What an append does: nothing, when a call holds the slot above the
row; else it puts the slot at the epoch in force, and what it writes has
that epoch. -/
theorem append_cases (hs : Inv s) {seed : ℤ} (hseed : seed ∈ s.seeds) (delta : ℕ) (written : Bool) :
    s.append seed delta written = s ∨
    s.slot.leaderEpoch ≤ s.info.leaderEpoch ∧
      (s.append seed delta written = { s with slot := s.stamping } ∨
        s.append seed delta written = { s with
            slot := { s.stamping with
              nextOffset := s.slot.nextOffset + delta + 1 }
            log := s.log ++ [⟨s.slot.nextOffset, delta, s.info.leaderEpoch⟩] }) := by
  have hle := hs.seeds seed hseed
  have hnonneg := hs.nonneg
  by_cases hunset : s.slot.leaderEpoch < 0
  · obtain rfl := hs.unset hunset seed hseed
    refine .inr ⟨by omega, ?_⟩
    unfold State.append Slot.epochForAppend
    simp only [if_pos (Or.inl hunset), gt_iff_lt, lt_irrefl, if_false]
    cases written with
    | false => exact .inl rfl
    | true => exact .inr rfl
  · have hslot := hs.slot (not_lt.1 hunset)
    have hold : ¬ (s.slot.leaderEpoch < 0 ∨ seed > s.slot.leaderEpoch) := by
      omega
    by_cases hlo : s.slot.leaderEpoch > seed
    · left
      unfold State.append Slot.epochForAppend
      simp only [if_neg hold, if_pos hlo]
    -- row, slot and seed are one epoch
    have heq : s.slot.leaderEpoch = s.info.leaderEpoch := by omega
    have hself : s.stamping = s.slot := by
      unfold State.stamping
      rw [← heq]
    refine .inr ⟨heq.le, ?_⟩
    rw [hself]
    unfold State.append Slot.epochForAppend
    simp only [if_neg hold, if_neg hlo]
    cases written with
    | false => exact .inl rfl
    | true => exact .inr (by simp only [heq])

theorem Inv.stamping (hs : Inv s) (hle : s.slot.leaderEpoch ≤ s.info.leaderEpoch) :
    Inv { s with slot := s.stamping } :=
  { hs with
    unset := fun h => absurd h (not_lt.2 hs.nonneg)
    slot := fun _ => le_rfl
    raising := hs.raising.settle hle }

/-- A batch of the epoch in force keeps the log in order: every start
recorded is at its offset or below. -/
theorem Inv.write (hs : Inv s) (hle : s.slot.leaderEpoch ≤ s.info.leaderEpoch) (delta : ℕ) :
    Inv { s with
      slot := { s.stamping with
        nextOffset := s.slot.nextOffset + delta + 1 }
      log := s.log ++ [⟨s.slot.nextOffset, delta, s.info.leaderEpoch⟩] } := by
  have hstamped (x : Stamp) (hx : x.leaderEpoch ≤ s.info.leaderEpoch) :=
    forall_mem_append.2 ⟨hs.stamped, forall_mem_singleton.2 hx⟩
  exact { hs.stamping hle with
    nondecreasing := fun a ha => by
      refine forall_mem_append.2 ⟨fun b hb hab => ?_,
        forall_mem_singleton.2 fun _ => hstamped _ le_rfl a ha⟩
      rcases mem_append.1 ha with ha | ha
      · exact hs.nondecreasing a ha b hb hab
      · rw [mem_singleton.1 ha] at hab
        exact absurd (hs.below hb) (not_lt.2 hab)
    from_start := fun r hr => forall_mem_append.2
      ⟨hs.from_start r hr, forall_mem_singleton.2 fun _ => (hs.recorded r hr).1⟩
    before_start := fun r hr => forall_mem_append.2 ⟨hs.before_start r hr,
      forall_mem_singleton.2 fun h => absurd (hs.recorded r hr).2 (not_le.2 h)⟩
    laid := by
      refine hs.laid.snoc hs.next ?_
      show s.slot.nextOffset < s.slot.nextOffset + delta + 1
      omega
    next := by
      rw [Spans.stop_append]
      rfl
    raising := hs.raising.settle hle
    stamped := hstamped _ le_rfl
    recorded := fun r hr => by
      obtain ⟨hepoch, hstart⟩ := hs.recorded r hr
      refine ⟨hepoch, ?_⟩
      show r.startOffset ≤ s.slot.nextOffset + delta + 1
      omega }

-- ==== the commits

/-- The rows left by a commit at the log end: the new one, and the old
ones that began below. -/
theorem Inv.mem_recordEpoch (hs : Inv s) (habove : s.info.leaderEpoch < e) :
    r ∈ (recordEpoch s.info e s.slot.nextOffset).history.rows ↔ r = ⟨e, s.slot.nextOffset⟩ ∨
        r ∈ s.info.history.rows ∧ r.startOffset < s.slot.nextOffset := by
  refine mem_recordEntry.trans (or_congr_right (and_congr_right fun hr => ?_))
  have := (hs.recorded r hr).1
  constructor
  · intro hkept
    by_contra hno
    exact hkept.2 ⟨by omega, by omega⟩
  · intro hlt
    exact ⟨by omega, by omega⟩

theorem Inv.commit (hs : Inv s) (habove : s.info.leaderEpoch < e) (hslot : s.slot.leaderEpoch = e) :
    Inv { s with
      info := recordEpoch s.info e s.slot.nextOffset
      raises := [] } := by
  have hrows := fun r => hs.mem_recordEpoch (r := r) habove
  have hnonneg := hs.nonneg
  exact { hs with
    from_start := fun r hr b hb hrb => by
      rcases (hrows r).1 hr with rfl | ⟨hr, -⟩
      · -- nothing is at the log end yet
        exact absurd (hs.below hb) (not_lt.2 hrb)
      · exact hs.from_start r hr b hb hrb
    before_start := fun r hr b hb hbr => by
      rcases (hrows r).1 hr with rfl | ⟨hr, -⟩
      · exact (hs.stamped b hb).trans_lt habove
      · exact hs.before_start r hr b hb hbr
    increasing := fun r hr r' hr' hlt => by
      rcases (hrows r').1 hr' with rfl | ⟨hr', -⟩
      · rcases (hrows r).1 hr with rfl | ⟨-, hbelow⟩
        · exact absurd hlt (lt_irrefl _)
        · exact hbelow
      rcases (hrows r).1 hr with rfl | ⟨hr, -⟩
      · have := (hs.recorded r' hr').1
        dsimp only at hlt
        omega
      · exact hs.increasing r hr r' hr' hlt
    nonneg := hnonneg.trans habove.le
    seeds := fun x hx => (hs.seeds x hx).trans habove.le
    unset := fun h => by
      dsimp only at h
      omega
    slot := fun _ => hslot.ge
    raising := .idle
    stamped := fun b hb => (hs.stamped b hb).trans habove.le
    current := ⟨_, (hrows _).2 (.inl rfl), rfl⟩
    recorded := fun r hr => by
      rcases (hrows r).1 hr with rfl | ⟨hr, hbelow⟩
      · exact ⟨le_rfl, le_rfl⟩
      · exact ⟨((hs.recorded r hr).1).trans habove.le, hbelow.le⟩ }

-- ==== the run

theorem Inv.step (hs : Inv s) {op : Op} (hop : op.Alone s) : Inv (s.step op) := by
  cases op with
  | readSeed =>
    exact { hs with
      seeds := forall_mem_cons.2 ⟨le_rfl, hs.seeds⟩
      unset := fun h => forall_mem_cons.2 ⟨rfl, hs.unset h⟩ }
  | append seed delta written =>
    dsimp only [State.step]
    split_ifs with hseed
    · rcases append_cases hs hseed delta written with h | ⟨hle, h | h⟩ <;> rw [h]
      · exact hs
      · exact hs.stamping hle
      · exact hs.write hle delta
    · exact hs
  | check epoch =>
    dsimp only [State.step]
    split_ifs with hle
    · exact hs
    · have hidle : s.raises = [] := hop
      rw [hidle]
      exact { hs with raising := .checked epoch (not_le.1 hle) }
  | raise epoch =>
    dsimp only [State.step]
    split_ifs with hmem
    · obtain ⟨hone, habove⟩ := hs.raising.eq_of_checked hmem
      have hnonneg := hs.nonneg
      rw [hone, erase_cons_head]
      exact { hs with
        unset := fun h => by
          dsimp only at h
          omega
        slot := fun _ => habove.le
        raising := .raised habove }
    · exact hs
  | commit epoch start =>
    dsimp only [State.step]
    split_ifs with hmem
    · obtain ⟨hone, habove, hslot, rfl⟩ := hs.raising.eq_of_raised hmem
      rw [hone, erase_cons_head]
      exact hs.commit habove hslot.symm
    · exact hs
  | rollback r => exact { hs with raising := hs.raising.erase r }

-- ==== the queries

/-- A later moment answers for the epochs below an earlier one's as the
earlier does: they match the same rows, and the next epoch begins where
it did. -/
structure Continues (m m' : Meta) : Prop where
  le : m.leaderEpoch ≤ m'.leaderEpoch
  lower : ∀ r : Entry, r.leaderEpoch < m.leaderEpoch →
    (r ∈ m'.history.rows ↔ r ∈ m.history.rows)
  begins : ∀ e < m.leaderEpoch, ∀ r, FirstAbove m.history e r →
    ∃ r', FirstAbove m'.history e r' ∧ r'.startOffset = r.startOffset

theorem Continues.refl (m : Meta) : Continues m m :=
  ⟨le_rfl, fun _ _ => Iff.rfl, fun _ _ r hr => ⟨r, hr, rfl⟩⟩

theorem Continues.trans {m'' : Meta} (h : Continues m m')
    (h' : Continues m' m'') : Continues m m'' where
  le := h.le.trans h'.le
  lower := fun r hr => (h'.lower r (hr.trans_le h.le)).trans (h.lower r hr)
  begins := fun e he r hr => by
    obtain ⟨r', hr', hs⟩ := h.begins e he r hr
    obtain ⟨r'', hr'', hs'⟩ := h'.begins e (he.trans_le h.le) r' hr'
    exact ⟨r'', hr'', hs'.trans hs⟩

/-- Only the row of the epoch in force can go, and then the one that
replaces it has its start. -/
theorem Inv.continues_commit (hs : Inv s) (habove : s.info.leaderEpoch < e) :
    Continues s.info (recordEpoch s.info e s.slot.nextOffset) := by
  have hrows := fun r => hs.mem_recordEpoch (r := r) habove
  obtain ⟨now, hnow, hcur⟩ := hs.current
  have hkept : ∀ r ∈ s.info.history.rows, r.leaderEpoch < s.info.leaderEpoch →
        r.startOffset < s.slot.nextOffset := by
    intro r hr hlt
    exact (hs.increasing r hr now hnow (hcur ▸ hlt)).trans_le (hs.recorded now hnow).2
  refine ⟨habove.le, fun r hlt => ?_, fun e' he' r hr => ?_⟩
  · rw [hrows]
    refine ⟨?_, fun hr => .inr ⟨hr, hkept r hr hlt⟩⟩
    rintro (rfl | ⟨hr, -⟩)
    · exact absurd (hlt.trans habove) (lt_irrefl _)
    · exact hr
  · by_cases hstay : r.startOffset < s.slot.nextOffset
    · refine ⟨r, ⟨(hrows r).2 (.inr ⟨hr.mem, hstay⟩), hr.above, ?_⟩, rfl⟩
      intro x hx hlt
      rcases (hrows x).1 hx with rfl | ⟨hx, -⟩
      · exact ((hs.recorded r hr.mem).1).trans habove.le
      · exact hr.first x hx hlt
    · -- it is the row of the epoch in force: every other one stays
      have hlast : ¬ r.leaderEpoch < s.info.leaderEpoch := fun hlt => hstay (hkept r hr.mem hlt)
      have hle := (hs.recorded r hr.mem).2
      refine ⟨⟨e, s.slot.nextOffset⟩, ⟨(hrows _).2 (.inl rfl),
        he'.trans habove, fun x hx hlt => ?_⟩, ?_⟩
      · rcases (hrows x).1 hx with rfl | ⟨hx, hbelow⟩
        · exact le_rfl
        have hfirst := hr.first x hx hlt
        have hcap := (hs.recorded x hx).1
        have hsame : x = r := Table.eq_of_key hx hr.mem (by omega)
        exact absurd (hsame ▸ hbelow) hstay
      · show s.slot.nextOffset = r.startOffset
        omega

theorem append_info (seed : ℤ) (delta : ℕ) (written : Bool) :
    (s.append seed delta written).info = s.info := by
  unfold State.append
  dsimp only
  split <;> rfl

theorem Inv.continues_step (hs : Inv s) (op : Op) : Continues s.info (s.step op).info := by
  cases op with
  | commit epoch start =>
    dsimp only [State.step]
    split_ifs with hmem
    · obtain ⟨-, habove, -, rfl⟩ := hs.raising.eq_of_raised hmem
      exact hs.continues_commit habove
    · exact .refl _
  | append seed delta written =>
    dsimp only [State.step]
    split_ifs
    · exact append_info seed delta written ▸ .refl _
    · exact .refl _
  | check epoch | raise epoch =>
    dsimp only [State.step]
    split_ifs <;> exact .refl _
  | readSeed | rollback r => exact .refl _

theorem Inv.continues_run (hs : Inv s) {ops : List Op}
    (halone : EachStep State.step s ops fun s op => op.Alone s) :
    Continues s.info (ops.foldl State.step s).info := by
  induction ops generalizing s with
  | nil => exact .refl _
  | cons op ops ih =>
    obtain ⟨hop, hrest⟩ := EachStep.cons_iff.1 halone
    exact (hs.continues_step op).trans (ih (hs.step hop) hrest)

theorem Continues.matched_eq (h : Continues m m') (he : e < m.leaderEpoch) :
    matched m'.history e = matched m.history e :=
  matched_congr fun r hr => h.lower r (hr.trans_lt he)

/-- Three queries at three moments, for an epoch below the first
moment's. -/
theorem answers_of_continues {m₁ m₂ m₃ : Meta} {logEnd : ℤ}
    (h₁₂ : Continues m₁ m₂) (h₁₃ : Continues m₁ m₃) (hinc : Increasing m₃.history)
    (hcur : ∃ r ∈ m₁.history.rows, r.leaderEpoch = m₁.leaderEpoch) (he : e < m₁.leaderEpoch) :
    Answers m₁.history e (epochEndAt minStart m₁ m₂ m₃ e logEnd) ∧
      epochEndAt firstStart m₁ m₂ m₃ e logEnd = epochEndAt minStart m₁ m₂ m₃ e logEnd := by
  unfold Answers epochEndAt
  simp only [if_neg he.ne, if_neg he.not_gt, h₁₂.matched_eq he]
  cases hm : matched m₁.history e with
  | none => exact ⟨⟨rfl, matched_eq_none.1 hm⟩, rfl⟩
  | some low =>
    have hlow : low < m₁.leaderEpoch := (matched_eq_some.1 hm).2.1.trans_lt he
    obtain ⟨now, hnow, hnow'⟩ := hcur
    obtain ⟨r, hr⟩ := exists_firstAbove hnow (hnow' ▸ hlow)
    obtain ⟨r', hr', hsame⟩ := h₁₃.begins low hlow r hr
    -- both engines come to the start of the same row
    have hmin := hr'.minStart_eq hinc
    have hfirst := hr'.firstStart_eq
    rw [hsame] at hmin hfirst
    refine ⟨⟨r, hr, ?_⟩, ?_⟩
    · simp only [hmin, Option.getD_some]
    · simp only [hmin, hfirst]

-- ==== results

/-- With `set_leader_epoch` calls one at a time, next to any appends and
rollbacks: epochs and history agree in every state, and a read with its
queries spread over the run gets the same exact answer from both
engines. -/
theorem history_exact (epoch : ℕ) (ops : List Op)
    (halone : EachStep State.step (.created epoch) ops fun s op => op.Alone s) :
    Always State.step (.created epoch) ops Exact ∧
    ∀ p₁ p₂ p₃, p₁ <+: p₂ → p₂ <+: p₃ → p₃ <+: ops → ∀ e logEnd, e < (tables epoch p₁).leaderEpoch →
        Answers (tables epoch p₁).history e (epochEndAt minStart (tables epoch p₁) (tables epoch p₂)
            (tables epoch p₃) e logEnd) ∧
        epochEndAt firstStart (tables epoch p₁) (tables epoch p₂) (tables epoch p₃) e logEnd =
          epochEndAt minStart (tables epoch p₁) (tables epoch p₂) (tables epoch p₃) e logEnd := by
  have hinv : Always State.step (.created epoch) ops Inv :=
    Always.of_eachStep (fun s op hs hop => hs.step hop) (Inv.created epoch) halone
  refine ⟨fun p hp => (hinv p hp).toExact, ?_⟩
  intro p₁ p₂ p₃ h₁₂ h₂₃ hp e logEnd he
  have hinv₁ := hinv p₁ (h₁₂.trans (h₂₃.trans hp))
  have hinv₃ := hinv p₃ hp
  have hcont : ∀ p, p₁ <+: p → p <+: ops → Continues (tables epoch p₁) (tables epoch p) := by
    intro p hle hpre
    obtain ⟨q, rfl⟩ := hle
    obtain ⟨rest, rfl⟩ := hpre
    have hrun := (EachStep.append_iff.1 (EachStep.append_iff.1 halone).1).2
    unfold tables
    rw [foldl_append]
    exact hinv₁.continues_run hrun
  exact answers_of_continues (hcont p₂ h₁₂ (h₂₃.trans hp))
    (hcont p₃ (h₁₂.trans h₂₃) hp) hinv₃.increasing hinv₁.current he

/-- Two raises with appends before, between and after, the first rolled
back: the queries of a read fall before and after the second commits. -/
theorem history_exact_raised :
    let ops : List Op := [.readSeed, .append 0 1 true, .check 2, .raise 2,
      .append 0 0 true, .commit 2 2, .readSeed, .append 2 0 true, .check 5,
      .raise 5, .rollback (.raised 5 3), .check 4, .raise 4, .commit 4 3]
    epochEndAt minStart (tables 0 (ops.take 8)) (tables 0 (ops.take 10))
      (tables 0 ops) 1 3 = ⟨0, 2⟩ ∧
    epochEndAt firstStart (tables 0 (ops.take 8)) (tables 0 (ops.take 10)) (tables 0 ops) 1 3 =
    epochEndAt minStart (tables 0 (ops.take 8)) (tables 0 (ops.take 10)) (tables 0 ops) 1 3 := by
  intro ops
  have hpre := take_prefix 10 ops
  have h := (history_exact 0 ops (by decide +kernel)).2 (ops.take 8)
    (ops.take 10) ops (by decide) hpre
    (prefix_refl ops) 1 3 (by decide +kernel)
  exact ⟨by decide +kernel, h.2⟩

/-- Calls that overlap: both check against epoch 0, the second lowers
the slot, and a batch of epoch 3 lands at the start of epoch 5. -/
theorem overlapping_raises :
    ¬ Exact ([Op.check 5, .check 3, .raise 5, .raise 3, .commit 3 0,
      .readSeed, .append 3 0 true, .commit 5 0].foldl State.step (.created 0)) := by
  intro h
  have hbatch := h.from_start ⟨5, 0⟩ (by decide +kernel) ⟨0, 0, 3⟩ (by decide +kernel) le_rfl
  exact absurd hbatch (by decide)

end Kafgres.LeaderEpoch
