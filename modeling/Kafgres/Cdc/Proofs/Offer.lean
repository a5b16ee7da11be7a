/-
Offering a change to a lane, and flushing what is left at the end.
-/
import Kafgres.Cdc.Proofs.Flush

namespace Kafgres.Cdc

open List Function Option

variable {n : ℕ} {S : Setting n} {front front' : Fin n → Pos}
  {d d' : Drain n} {w : World} {lane : Fin n} {cfg : Config n} {i : Fin n} {r : Run}

-- ==== the targets

theorem foldl_min_none (holds : List (Option ℕ)) :
    holds.foldl (fun acc h => acc.bind fun a => h.map (min a)) none = none := by
  induction holds with
  | nil => rfl
  | cons h holds ih => exact ih

theorem foldl_min_cases (m : ℕ) (holds : List (Option ℕ)) :
    match holds.foldl (fun acc h => acc.bind fun a => h.map (min a)) (some m) with
    | some t => t ≤ m ∧ ∀ h ∈ holds, ∃ x, h = some x ∧ t ≤ x
    | none => none ∈ holds := by
  induction holds generalizing m with
  | nil => exact ⟨le_rfl, nofun⟩
  | cons h holds ih =>
    cases h with
    | none =>
      simp only [foldl_cons, bind_some, map_none, foldl_min_none]
      exact .head _
    | some x =>
      simp only [foldl_cons, bind_some, map_some]
      have := ih (min m x)
      split at this
      · obtain ⟨hm, hall⟩ := this
        refine ⟨by omega, ?_⟩
        exact forall_mem_cons.2 ⟨⟨x, rfl, by omega⟩, hall⟩
      · exact .tail _ this

/-- The target is at or below every hold; without one, a lane holds the
slot where it is. -/
theorem advanceTarget_cases (high : Option ℕ) {holds : List (Option ℕ)} (hne : holds ≠ []) :
    match advanceTarget high holds with
    | some t => ∀ h ∈ holds, ∃ x, h = some x ∧ t ≤ x
    | none => none ∈ holds := by
  unfold advanceTarget
  rw [if_neg hne]
  have hle := foldl_min_cases (2 ^ 64 - 1) holds
  split at hle
  · exact hle.2
  · exact hle

theorem HoldOk.of_le {x t : ℕ} (h : HoldOk S front (some x)) (hle : t ≤ x) :
    HoldOk S front (some t) :=
  fun i p hdue hp => h i p hdue (le_trans hp hle)

-- ==== the table lanes

/-- No flush brings a run into a lane. -/
def Shrinks (d d' : Drain n) : Prop :=
  ∀ i, (d'.lanes i).run = none ∨ (d'.lanes i).run = (d.lanes i).run

theorem Shrinks.refl (d : Drain n) : Shrinks d d := fun _ => .inr rfl

theorem Shrinks.trans {d'' : Drain n} (h : Shrinks d d') (h' : Shrinks d' d'') : Shrinks d d'' := by
  intro i
  rcases h' i with hi | hi
  · exact .inl hi
  · rw [hi]
    exact h i

theorem Flushed.shrinks (h : Flushed d d' lane) : Shrinks d d' := by
  intro i
  by_cases hi : i = lane
  · exact .inl (hi ▸ h.run)
  · exact .inr (h.others i hi).1

/-- Flushes one after another leave none of their lanes a run. -/
theorem foldl_flush {f : Drain n → Fin n → Drain n}
    (hf : ∀ d i, Shrinks d (f d i) ∧ ((f d i).lanes i).run = none) (lanes : List (Fin n))
    (d : Drain n) :
    Shrinks d (lanes.foldl f d) ∧ ∀ i ∈ lanes, ((lanes.foldl f d).lanes i).run = none := by
  induction lanes generalizing d with
  | nil => exact ⟨.refl d, nofun⟩
  | cons a lanes ih =>
    obtain ⟨hshrink, hnone⟩ := hf d a
    obtain ⟨hshrink', hnone'⟩ := ih (f d a)
    refine ⟨hshrink.trans hshrink', fun i hi => ?_⟩
    rcases mem_cons.1 hi with rfl | hi
    · -- flushed first, and no later flush brings a run back
      rcases hshrink' i with h | h
      · exact h
      · exact h.trans hnone
    · exact hnone' i hi

theorem flushRun_runs (cfg : Config n) (w : World) (held : Option (Option ℕ × Why)) (d : Drain n)
    (lane : Fin n) :
    Shrinks d (d.flushRun cfg w lane held) ∧
    ((d.flushRun cfg w lane held).lanes lane).run = none := by
  have hf : Flushed d (d.flushRun cfg w lane held) lane := flushRun_flushed ..
  exact ⟨hf.shrinks, hf.run⟩

theorem flush_runs (cfg : Config n) (w : World) (d : Drain n) (lane : Fin n) :
    Shrinks d (d.flush cfg w lane) ∧ ((d.flush cfg w lane).lanes lane).run = none := by
  unfold Drain.flush
  split_ifs
  · obtain ⟨hshrink, hnone⟩ := flushRun_runs cfg w (d.changesFirst cfg w).2
      (d.changesFirst cfg w).1 lane
    exact ⟨(foldl_flush (flushRun_runs cfg w none) cfg.tableLanes d).1.trans hshrink, hnone⟩
  · exact flushRun_runs cfg w none d lane

theorem HeldOk.table (ht : (S.cfg.mapping lane).summary = false) : HeldOk S front d lane none where
  hold := nofun
  ready := fun hs => by rw [ht] at hs; cases hs
  clean := fun _ => rfl

theorem mem_tableLanes : i ∈ cfg.tableLanes ↔ (cfg.mapping i).summary = false := by
  simp [Config.tableLanes]

theorem mem_summaryLanes : i ∈ cfg.summaryLanes ↔ (cfg.mapping i).summary = true := by
  simp [Config.summaryLanes]

/-- A summary that has been offered: its changes have, too. -/
def Level (S : Setting n) (front : Fin n → Pos) : Prop :=
  ∀ lane q, (S.cfg.mapping lane).summary = true → Due S.cfg S.st lane q →
    q ≤ front lane → ∀ i p, (S.cfg.mapping i).summary = false →
      Due S.cfg S.st i p → p.endLsn ≤ q.endLsn → p ≤ front i

/-- A lane that has not stopped and has no run has all settled that it
was offered. -/
theorem Inv.upTo (h : Inv S front d) (hs : (d.lanes lane).stopped = none)
    (hrun : (d.lanes lane).run = none) : UpTo S d.journal lane (front lane) := by
  intro p hdue hle
  rcases h.covers lane hs p hdue hle with hset | hp
  · exact hset
  · simp [pending, hrun] at hp

theorem changesFirst_spec (h : Inv S front d) (hlevel : Level S front)
    (hw : S.clean → ∀ i, (w i).Fine) (lane : Fin n) :
    Inv S front (d.changesFirst S.cfg w).1 ∧
      HeldOk S front (d.changesFirst S.cfg w).1 lane (d.changesFirst S.cfg w).2 := by
  have hinv : Inv S front (S.cfg.tableLanes.foldl (fun d lane => d.flushRun S.cfg w lane none) d) :=
    foldlRecOn _ _ h fun _ hd i hi => flushRun_spec hd (HeldOk.table (mem_tableLanes.1 hi)) hw
  have hnone := (foldl_flush (flushRun_runs S.cfg w none) S.cfg.tableLanes d).2
  unfold Drain.changesFirst
  dsimp only
  generalize S.cfg.tableLanes.foldl (fun d lane => d.flushRun S.cfg w lane none) d = d' at *
  refine ⟨hinv, ?_⟩
  generalize hblock : (S.cfg.tableLanes.filterMap fun i =>
    (d'.lanes i).stopped.map fun s => (s.1, (S.cfg.mapping i).name)) = blockers
  have hmem : ∀ i h why, (S.cfg.mapping i).summary = false →
      (d'.lanes i).stopped = some (h, why) → h ∈ blockers.map (·.1) := by
    intro i h why ht hs
    rw [← hblock]
    refine mem_map.2 ⟨(h, (S.cfg.mapping i).name), ?_, rfl⟩
    exact mem_filterMap.2 ⟨i, mem_tableLanes.2 ht, by rw [hs]; rfl⟩
  -- a table lane has all settled that it was offered, or it is a blocker
  have hopen : ∀ i, (S.cfg.mapping i).summary = false → (d'.lanes i).stopped = none →
      UpTo S d'.journal i (front i) := fun i ht hs => hinv.upTo hs (hnone i (mem_tableLanes.2 ht))
  cases blockers with
  | nil =>
    refine ⟨nofun, ?_, fun _ => rfl⟩
    intro hsum q hdue hle _ i p ht hdue' hle'
    cases hs : (d'.lanes i).stopped with
    | none =>
      exact hopen i ht hs p hdue' (hlevel lane q hsum hdue hle i p ht hdue' hle')
    | some s => exact nomatch hmem i s.1 s.2 ht hs
  | cons b blockers =>
    have hne : (b :: blockers).map (·.1) ≠ [] := by simp
    have htarget := advanceTarget_cases none hne
    obtain ⟨j, hj, hjb⟩ := mem_filterMap.1 (hblock ▸ mem_cons_self : b ∈ _)
    obtain ⟨sj, hsj, hbj⟩ := map_eq_some_iff.1 hjb
    have hstopOf : ∀ h ∈ (b :: blockers).map (·.1), HoldOk S front h := by
      intro h hh
      obtain ⟨b', hb', rfl⟩ := mem_map.1 hh
      obtain ⟨i, -, hib⟩ := mem_filterMap.1 (hblock ▸ hb' : b' ∈ _)
      obtain ⟨s, hs, rfl⟩ := map_eq_some_iff.1 hib
      exact (hinv.stopped i s.1 s.2 hs).offered
    refine ⟨fun h hh => ?_, ?_, fun hC => ?_⟩
    · cases some.inj hh
      split at htarget
      · next t ht =>
        rw [ht]
        obtain ⟨x, hx, hle⟩ := htarget b.1 mem_cons_self
        exact HoldOk.of_le (hx ▸ hstopOf b.1 mem_cons_self) hle
      · next ht =>
        rw [ht]
        exact hstopOf none htarget
    · intro hsum q hdue hle hheld i p ht hdue' hle'
      obtain ⟨t, hteq, hqt⟩ := hheld _ rfl
      dsimp only at hteq
      rw [hteq] at htarget
      cases hs : (d'.lanes i).stopped with
      | none =>
        exact hopen i ht hs p hdue' (hlevel lane q hsum hdue hle i p ht hdue' hle')
      | some s =>
        obtain ⟨x, hx, htx⟩ := htarget s.1 (hmem i s.1 s.2 ht hs)
        refine (hinv.stopped i s.1 s.2 hs).settled p hdue' ?_
        rw [hx]
        exact hle'.trans (hqt.trans htx)
    · simp [hinv.running hC j] at hsj

theorem flush_spec (h : Inv S front d) (hlevel : Level S front)
    (hw : S.clean → ∀ i, (w i).Fine) (lane : Fin n) : Inv S front (d.flush S.cfg w lane) := by
  unfold Drain.flush
  split_ifs with hsum
  · obtain ⟨hinv, hheld⟩ := changesFirst_spec h hlevel hw lane
    exact flushRun_spec hinv hheld hw
  · exact flushRun_spec h (HeldOk.table (by simpa using hsum)) hw

-- ==== making room

theorem makeRoom_spec {len : ℕ} (h : Inv S front d) (hlevel : Level S front)
    (hw : S.clean → ∀ i, (w i).Fine) (lane : Fin n) (turns : ℕ) :
    Inv S front (d.makeRoom S.cfg w lane len turns) := by
  induction turns generalizing d with
  | zero => exact h
  | succ turns ih =>
    unfold Drain.makeRoom
    split_ifs
    · split
      · exact h
      · exact ih (flush_spec h hlevel hw _)
    · exact h

-- ==== the offer

theorem HoldOk.raise {hold : Option ℕ} (h : HoldOk S front hold)
    (hle : ∀ i, front i ≤ front' i) : HoldOk S front' hold :=
  fun i p hdue hp => (h i p hdue hp).trans (hle i)

theorem RunOk.raise (h : RunOk S front lane r)
    (hle : ∀ i, front i ≤ front' i) : RunOk S front' lane r where
  segs := by
    obtain ⟨segs, hcut, heach⟩ := h.segs
    exact ⟨segs, hcut, fun s hs => ⟨(heach s hs).1.raise hle, (heach s hs).2⟩⟩
  increasing := h.increasing
  due := fun p hp => ⟨(h.due p hp).1, (h.due p hp).2.trans (hle lane)⟩

/-- The frontier moves on over what is settled or pending. -/
theorem Inv.raise (h : Inv S front d) (hle : ∀ i, front i ≤ front' i)
    (hcov : ∀ i, (d.lanes i).stopped = none → ∀ p, Due S.cfg S.st i p →
      p ≤ front' i → Settled S.cfg d.journal i p ∨ p ∈ pending (d.lanes i)) : Inv S front' d :=
  { h with
    stopped := fun i hold why hs =>
      ⟨(h.stopped i hold why hs).offered.raise hle, (h.stopped i hold why hs).settled⟩
    covers := hcov
    fresh := fun hC e he => ⟨(h.fresh hC e he).1,
      (h.fresh hC e he).2.1.trans (hle e.lane), (h.fresh hC e he).2.2⟩
    runs := fun i r hr => ⟨(h.runs i r hr).1, (h.runs i r hr).2.raise hle⟩ }

/-- An offer that comes next on its lane. -/
structure Fits (S : Setting n) (front : Fin n → Pos) (o : Offer n) :
    Prop where
  due : Due S.cfg S.st o.lane o.pos
  ahead : front o.lane < o.pos
  next : ∀ p, Due S.cfg S.st o.lane p → p < o.pos → p ≤ front o.lane
  hold : HoldOk S front o.hold
  before : o.hold.getD S.slot < o.pos.endLsn
  shape : S.clean → S.cfg.readable o.cols = true
  changes : (S.cfg.mapping o.lane).summary = true → ∀ i p,
    (S.cfg.mapping i).summary = false → Due S.cfg S.st i p → p.endLsn ≤ o.pos.endLsn → p ≤ front i

variable {o : Offer n}

theorem Fits.le (hfit : Fits S front o) (i : Fin n) :
    front i ≤ update front o.lane o.pos i := by
  rcases eq_or_ne i o.lane with rfl | hi
  · rw [update_self]
    exact hfit.ahead.le
  · rw [update_of_ne hi]

/-- What is due up to the offer: what was before it, and the offer. -/
theorem Fits.reaches (hfit : Fits S front o) {p : Pos} (hdue : Due S.cfg S.st i p)
    (hle : p ≤ update front o.lane o.pos i) : p ≤ front i ∨ i = o.lane ∧ p = o.pos := by
  rcases eq_or_ne i o.lane with rfl | hi
  · rw [update_self] at hle
    rcases hle.lt_or_eq with hlt | heq
    · exact .inl (hfit.next p hdue hlt)
    · exact .inr ⟨rfl, heq⟩
  · rw [update_of_ne hi] at hle
    exact .inl hle

theorem Fits.level (hfit : Fits S front o) (hlevel : Level S front) :
    Level S (update front o.lane o.pos) := by
  intro lane q hsum hdue hle i p ht hdue' hle'
  refine le_trans ?_ (hfit.le i)
  rcases hfit.reaches hdue hle with hle | ⟨rfl, rfl⟩
  · exact hlevel lane q hsum hdue hle i p ht hdue' hle'
  · exact hfit.changes hsum i p ht hdue' hle'

theorem Run.CutInto.last_mem {segs : List Seg}
    (h : r.CutInto segs) : r.last ∈ r.body.map (·.pos) := by
  obtain ⟨e, he, hpos⟩ := map_eq_some_iff.1 h.body_last
  exact mem_map.2 ⟨e, mem_of_getLast? he, hpos⟩

/-- A run with the offer pushed on it. -/
theorem RunOk.push (hr : RunOk S front o.lane r) (hfit : Fits S front o) :
    RunOk S (update front o.lane o.pos) o.lane (r.push o.pos o.hold o.len) := by
  obtain ⟨segs, hcut, heach⟩ := hr.segs
  have hbehind : ∀ p ∈ r.body.map (·.pos), p < o.pos :=
    fun p hp => (hr.due p hp).2.trans_lt hfit.ahead
  have hbody : (r.push o.pos o.hold o.len).body.map (·.pos) = r.body.map (·.pos) ++ [o.pos] := by
    simp [Run.push]
  refine ⟨⟨_, hcut.push (hbehind _ hcut.last_mem), fun t ht => ?_⟩, ?_, ?_⟩
  · suffices hold : HoldOk S front t.1 ∧ t.1.getD S.slot < t.2.1.endLsn from
      ⟨hold.1.raise hfit.le, hold.2⟩
    rcases segs.eq_nil_or_concat with rfl | ⟨A, s, rfl⟩
    · exact absurd rfl hcut.ne_nil
    rw [concat_eq_append] at ht heach
    rw [pushSeg_snoc] at ht
    split_ifs at ht with hsame
    · rcases mem_append.1 ht with ht | ht
      · exact heach t (mem_append_left _ ht)
      · cases mem_singleton.1 ht
        obtain ⟨hoff, hlt⟩ := heach s (by simp)
        exact ⟨hoff, hsame ▸ hlt⟩
    · rcases mem_append.1 ht with ht | ht
      · exact heach t ht
      · cases mem_singleton.1 ht
        exact ⟨hfit.hold, hfit.before⟩
  · rw [hbody]
    refine pairwise_append.2 ⟨hr.increasing, pairwise_singleton _ _, fun a ha b hb => ?_⟩
    cases mem_singleton.1 hb
    exact hbehind a ha
  · rw [hbody, update_self]
    exact forall_mem_append.2 ⟨fun p hp => ⟨(hr.due p hp).1, (hbehind p hp).le⟩,
      forall_mem_singleton.2 ⟨hfit.due, le_rfl⟩⟩

/-- A run of the offer alone. -/
theorem RunOk.first (hfit : Fits S front o) : RunOk S (update front o.lane o.pos) o.lane
      (Run.push ⟨o.cols, [], o.hold, o.pos, []⟩ o.pos o.hold o.len) where
  segs := by
    refine ⟨_, cutInto_first o.cols o.pos o.hold o.len, fun s hs => ?_⟩
    cases mem_singleton.1 hs
    exact ⟨hfit.hold.raise hfit.le, hfit.before⟩
  increasing := pairwise_singleton _ _
  due := fun p hp => by
    cases mem_singleton.1 hp
    rw [update_self]
    exact ⟨hfit.due, le_rfl⟩

theorem join_spec (h : Inv S front d) (hfit : Fits S front o)
    (hrunning : (d.lanes o.lane).stopped = none) :
    Inv S (update front o.lane o.pos) (d.join o) := by
  have hself : (d.join o).lanes o.lane = { d.lanes o.lane with
      run := some (((d.lanes o.lane).run.getD
        ⟨o.cols, [], o.hold, o.pos, []⟩).push o.pos o.hold o.len) } :=
    setLane_self _
  have hother : ∀ i, i ≠ o.lane → (d.join o).lanes i = d.lanes i := fun i hi => setLane_of_ne _ hi
  have hpend : pending ((d.join o).lanes o.lane) = pending (d.lanes o.lane) ++ [o.pos] := by
    rw [hself]
    cases hrun : (d.lanes o.lane).run <;> simp [pending, Run.push, hrun]
  have hgrow : ∀ i, pending (d.lanes i) ⊆ pending ((d.join o).lanes i) := by
    intro i
    rcases eq_or_ne i o.lane with rfl | hi
    · rw [hpend]
      exact subset_append_left _ _
    · rw [hother i hi]
      exact List.Subset.refl _
  have hd : DInv S front (fun i => pending (d.lanes i)) (d.join o) :=
    { h.toDInv.setRun (some (((d.lanes o.lane).run.getD _).push _ _ _)) with }
  refine { hd with
    stopped := ?_
    covers := ?_
    fresh := ?_
    runs := ?_
    shapes := ?_ }
  · exact fun i hold why hs => ⟨(hd.stopped i hold why hs).offered.raise
      hfit.le, (hd.stopped i hold why hs).settled⟩
  · intro i hs p hdue hle
    rcases hfit.reaches hdue hle with hle | ⟨rfl, rfl⟩
    · exact (hd.covers i hs p hdue hle).imp id fun hp => hgrow i hp
    · rw [hpend]
      exact .inr (by simp)
  · intro hC e he
    obtain ⟨hv, hle, hno⟩ := hd.fresh hC e he
    refine ⟨hv, hle.trans (hfit.le e.lane), ?_⟩
    by_cases hi : e.lane = o.lane
    · -- no entry is ahead of the frontier
      rw [hi, hpend]
      rw [hi] at hno hle
      intro hin
      rcases mem_append.1 hin with hin | hin
      · exact hno hin
      · rw [mem_singleton.1 hin] at hle
        exact not_lt.2 hle hfit.ahead
    · rwa [hother e.lane hi]
  · refine forall_setLane (P := fun i l => ∀ r, l.run = some r → l.stopped = none ∧
      RunOk S (update front o.lane o.pos) i r) ?_ fun i _ r hr =>
        ⟨(h.runs i r hr).1, (h.runs i r hr).2.raise hfit.le⟩
    rintro _ ⟨⟩
    refine ⟨hrunning, ?_⟩
    cases hrun : (d.lanes o.lane).run with
    | none => exact RunOk.first hfit
    | some r => exact (h.runs o.lane r hrun).2.push hfit
  · intro hC
    refine forall_setLane (P := fun _ l => ∀ r, l.run = some r → S.cfg.readable r.cols = true)
      ?_ fun i _ => h.shapes hC i
    rintro _ ⟨⟩
    cases hrun : (d.lanes o.lane).run with
    | none => exact hfit.shape hC
    | some r => exact h.shapes hC o.lane r hrun

/-- An offer, whatever it flushes: the frontier is at it. -/
theorem offer_spec (h : Inv S front d) (hlevel : Level S front)
    (hw : S.clean → ∀ i, (w i).Fine) (hfit : Fits S front o) :
    Inv S (update front o.lane o.pos) (d.offer S.cfg w o) := by
  -- what is not taken up: the lane is stopped, or has it already
  have hskip : ∀ d : Drain n, Inv S front d →
      ((d.lanes o.lane).stopped = none → UpTo S d.journal o.lane o.pos) →
      Inv S (update front o.lane o.pos) d := by
    intro d h hpos
    refine h.raise hfit.le fun i hs p hdue hle => ?_
    rcases hfit.reaches hdue hle with hle | ⟨rfl, rfl⟩
    · exact h.covers i hs p hdue hle
    · exact .inl (hpos hs o.pos hdue le_rfl)
  unfold Drain.offer
  dsimp only
  split_ifs with hout hshape hstop hstop
  · refine hskip d h fun hs p hdue hle => ?_
    rcases hout with hout | hout
    · simp [hs] at hout
    · obtain ⟨q, hq, hle'⟩ := any_eq_true _ _ |>.1 hout
      exact h.delivered o.lane q hq p hdue (hle.trans (by simpa using hle'))
  · refine hskip _ (makeRoom_spec (flush_spec h hlevel hw o.lane) hlevel hw _ _) fun hs => ?_
    simp [hs] at hstop
  · exact join_spec (makeRoom_spec (flush_spec h hlevel hw o.lane) hlevel hw _ _) hfit
      (by simpa using hstop)
  · refine hskip _ (makeRoom_spec h hlevel hw _ _) fun hs => ?_
    simp [hs] at hstop
  · exact join_spec (makeRoom_spec h hlevel hw _ _) hfit (by simpa using hstop)

/-- At the end no lane has a run. -/
theorem finish_spec (h : Inv S front d) (hlevel : Level S front) (hw : S.clean → ∀ i, (w i).Fine) :
    Inv S front (d.finish S.cfg w) ∧ ∀ i, ((d.finish S.cfg w).lanes i).run = none := by
  have hstart : Inv S front { d with streaming := false } := { h with }
  have hflush : ∀ lanes d, Inv S front d → Inv S front (foldl (Drain.flush S.cfg w) d lanes) :=
    fun _ _ hd => foldlRecOn _ _ hd fun _ hd i _ => flush_spec hd hlevel hw i
  have hruns := foldl_flush (flush_runs S.cfg w)
  refine ⟨hflush _ _ (hflush _ _ hstart), fun i => ?_⟩
  obtain ⟨hshrink, hnone⟩ := hruns S.cfg.summaryLanes
    (S.cfg.tableLanes.foldl (Drain.flush S.cfg w) { d with streaming := false })
  cases hsum : (S.cfg.mapping i).summary with
  | true => exact hnone i (mem_summaryLanes.2 hsum)
  | false =>
    rcases hshrink i with hi | hi
    · exact hi
    · exact hi.trans ((hruns _ _).2 i (mem_tableLanes.2 hsum))

end Kafgres.Cdc
