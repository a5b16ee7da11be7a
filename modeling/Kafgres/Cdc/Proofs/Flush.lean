/-
Flushing a lane: all of its run is settled, or it stops at a hold.
-/
import Kafgres.Cdc.Proofs.Lanes

namespace Kafgres.Cdc

open List Function Drain

variable {n : ℕ} {S : Setting n} {front : Fin n → Pos}
  {pend : Fin n → List Pos} {d d' : Drain n} {w : World}
  {lane : Fin n} {r : Run} {rest : List Pos}

-- ==== an attempt

variable {hold : Option ℕ} {s : Seg}

/-- A hold before the first element is before all that is pending. -/
theorem hold_lt_pending {ps : List Pos} (hs : SegOk s) (hlt : hold.getD S.slot < s.2.1.endLsn)
    (hinc : (s.2.2.map (·.pos) ++ ps).Pairwise (· < ·)) :
    ∀ q ∈ s.2.2.map (·.pos) ++ ps, hold.getD S.slot < q.endLsn := by
  cases hes : s.2.2 with
  | nil => exact absurd hes hs.ne_nil
  | cons e es =>
    have he : e.pos.endLsn = s.2.1.endLsn := hs.same e (hes ▸ mem_cons_self)
    rw [hes, map_cons, cons_append, pairwise_cons] at hinc
    intro q hq
    rcases mem_cons.1 hq with rfl | hq
    · exact he ▸ hlt
    · have := hinc.1 q hq
      rw [Pos.lt_iff] at this
      omega

/-- What comes of trying a run: nothing of it is pending, or the lane
may stop at a hold. -/
def Attempted (S : Setting n) (front : Fin n → Pos)
    (pend : Fin n → List Pos) (lane : Fin n) (rest : List Pos)
    (d' : Drain n) : Option (Option ℕ) → Prop
  | none => DInv S front (update pend lane rest) d'
  | some hold => ¬ S.clean ∧ DInv S front pend d' ∧ StopOk S front d'.journal lane hold

/-- The transactions of a run, ready to be produced one by one. -/
structure Batches (S : Setting n) (front : Fin n → Pos)
    (pend : Fin n → List Pos) (d : Drain n) (lane : Fin n)
    (segs : List Seg) (rest : List Pos) : Prop where
  pend : pend lane = (bodyOf segs).map (·.pos) ++ rest
  increasing : ((bodyOf segs).map (·.pos) ++ rest).Pairwise (· < ·)
  offered : ∀ q ∈ (bodyOf segs).map (·.pos) ++ rest, q ≤ front lane
  each : ∀ s ∈ segs, SegOk s ∧ HoldOk S front s.1 ∧
    s.1.getD S.slot < s.2.1.endLsn
  running : (d.lanes lane).stopped = none
  summaries : (S.cfg.mapping lane).summary = true →
    ∀ e ∈ bodyOf segs, ∀ i p, (S.cfg.mapping i).summary = false →
      Due S.cfg S.st i p → p.endLsn ≤ e.pos.endLsn → Settled S.cfg d.journal i p

variable {segs : List Seg} {why : Why}

theorem split_head (s : Seg) (segs : List Seg) (rest : List Pos) :
    (bodyOf (s :: segs)).map (·.pos) ++ rest =
      s.2.2.map (·.pos) ++ ((bodyOf segs).map (·.pos) ++ rest) := by
  rw [bodyOf_cons, map_append, append_assoc]

section

variable (hb : Batches S front pend d lane (s :: segs) rest)
include hb

/-- The first transaction as a batch of its own. -/
theorem Batches.head :
    Batch S front pend d lane s.2.2 s.2.1 ((bodyOf segs).map (·.pos) ++ rest) where
  pend := hb.pend.trans (split_head ..)
  increasing := split_head s .. ▸ hb.increasing
  offered := split_head s .. ▸ hb.offered
  last := (hb.each s mem_cons_self).1.last
  running := hb.running
  summaries := fun hs e he => hb.summaries hs e (mem_append_left _ he)

/-- The others, once it is produced. -/
theorem Batches.tail (hframe : Frame d d') : Batches S front (update pend lane
      ((bodyOf segs).map (·.pos) ++ rest)) d' lane segs rest where
  pend := update_self ..
  increasing := (pairwise_append.1 hb.head.increasing).2.1
  offered := fun q hq => hb.head.offered q (mem_append_right _ hq)
  each := fun t ht => hb.each t (.tail _ ht)
  running := (hframe.stopped lane).trans hb.running
  summaries := fun hs e he i p ht hdue hle =>
    (hb.summaries hs e (mem_append_right _ he) i p ht hdue hle).mono hframe.journal

/-- The lane may stop before the first transaction. -/
theorem Batches.stopOk (h : DInv S front pend d') (hrun : (d'.lanes lane).stopped = none) :
    StopOk S front d'.journal lane s.1 := by
  obtain ⟨hseg, hoff, hlt⟩ := hb.each s mem_cons_self
  refine h.stopOk hrun hoff ?_
  rw [hb.head.pend]
  exact hold_lt_pending hseg hlt hb.head.increasing

end

theorem retry_frame (cfg : Config n) (lane : Fin n) (failed : Option (Option ℕ)) (segs : List Seg) :
    Frame d (d.retry cfg w lane failed segs).1 := by
  induction segs generalizing d failed with
  | nil => exact ⟨fun _ => rfl, fun _ => rfl, fun _ => rfl, List.Subset.refl _, rfl⟩
  | cons s segs ih =>
    have hframe := produce_frame cfg w d lane s.2.2 s.2.1
    unfold retry
    dsimp only
    split
    · exact hframe.trans (ih none)
    · exact hframe

theorem attempt_frame (cfg : Config n) (lane : Fin n) (r : Run) :
    Frame d (d.attempt cfg w lane r).1 := by
  have hframe := produce_frame cfg w d lane r.body r.last
  unfold attempt
  dsimp only
  split
  · exact hframe
  · split_ifs
    · exact hframe.trans (retry_frame ..)
    · exact hframe
  · exact hframe

theorem retry_spec (failed : Option (Option ℕ)) (h : DInv S front pend d)
    (hb : Batches S front pend d lane segs rest) (hw : S.clean → ∀ i, (w i).Fine)
    (hfailed : segs = [] → failed = none) :
    Attempted S front pend lane rest (d.retry S.cfg w lane failed segs).1
      (d.retry S.cfg w lane failed segs).2 := by
  induction segs generalizing d pend failed with
  | nil =>
    obtain rfl := hfailed rfl
    show DInv S front _ d
    have hpend : update pend lane rest = pend := by
      have := hb.pend
      simp only [bodyOf_nil, map_nil, nil_append] at this
      rw [← this, update_eq_self]
    rw [hpend]
    exact h
  | cons s segs ih =>
    obtain ⟨hold, last, es⟩ := s
    have hframe := produce_frame S.cfg w d lane es last
    have hprod := produce_spec h hb.head hw
    unfold retry
    cases hres : (d.produce S.cfg w lane es last).2 with
    | none =>
      rw [hres] at hprod
      simp only [hres]
      have hrest := ih none hprod (hb.tail hframe) fun _ => rfl
      generalize (retry S.cfg w lane _ none segs).2 = res at hrest ⊢
      cases res with
      | none =>
        unfold Attempted at hrest ⊢
        rwa [update_idem] at hrest
      | some hold' =>
        obtain ⟨hnot, hd, hstop⟩ := hrest
        refine ⟨hnot, hd.weaken hnot (update_subset ?_), hstop⟩
        rw [hb.head.pend]
        exact subset_append_right _ _
    | some f =>
      rw [hres] at hprod
      simp only [hres]
      exact ⟨hprod.1, hprod.2, hb.stopOk hprod.2 ((hframe.stopped lane).trans hb.running)⟩

/-- A run, with its transactions ready to be produced. -/
theorem attempt_spec (h : DInv S front pend d) (hcut : r.CutInto segs)
    (hb : Batches S front pend d lane segs rest) (hw : S.clean → ∀ i, (w i).Fine) :
    Attempted S front pend lane rest (d.attempt S.cfg w lane r).1 (d.attempt S.cfg w lane r).2 := by
  cases segs with
  | nil => exact absurd rfl hcut.ne_nil
  | cons s segs =>
    have hwhole : Batch S front pend d lane r.body r.last rest := by
      have hlast := hcut.body_last
      rw [hcut.body] at hlast ⊢
      exact { hb with last := hlast }
    have hhold : s.1 = r.hold := by simpa using hcut.hold
    have hframe := produce_frame S.cfg w d lane r.body r.last
    have hprod := produce_spec h hwhole hw
    have hrun' := (hframe.stopped lane).trans hb.running
    unfold attempt
    cases hres : (d.produce S.cfg w lane r.body r.last).2 with
    | none =>
      rw [hres] at hprod
      simp only [hres]
      exact hprod
    | some f =>
      rw [hres] at hprod
      obtain ⟨hnot, hd⟩ := hprod
      have hstop := hb.stopOk hd hrun'
      rw [hhold] at hstop
      have hb' : Batches S front pend
          (d.produce S.cfg w lane r.body r.last).1 lane (s :: segs) rest :=
        { hb with
          running := hrun'
          summaries := fun hs e he i p ht hdue hle =>
            (hb.summaries hs e he i p ht hdue hle).mono hframe.journal }
      cases f with
      | render =>
        simp only [hres]
        split_ifs
        · rw [hcut.transactions_eq]
          exact retry_spec (some r.hold) hd hb' hw nofun
        · exact ⟨hnot, hd, hstop⟩
      | persist =>
        simp only [hres]
        exact ⟨hnot, hd, hstop⟩

-- ==== one flush

/-- Taking a run out of its lane leaves what is pending pending. -/
theorem DInv.setRun (h : DInv S front pend d) (run : Option Run) :
    DInv S front pend (d.setLane lane { d.lanes lane with run }) := by
  refine h.congr ?_ ?_ (fun _ _ => .inl) rfl
  · exact forall_setLane (P := fun i l => l.mapping = (d.lanes i).mapping ∧
      l.stopped = (d.lanes i).stopped) ⟨rfl, rfl⟩ fun _ _ => ⟨rfl, rfl⟩
  · exact forall_setLane (P := fun i l => ∀ q, l.delivered = some q →
      (d.lanes i).delivered = some q ∨ UpTo S d.journal i q) (fun _ => .inl) fun _ _ _ => .inl

theorem DInv.stop (h : DInv S front pend d)
    (hnot : ¬ S.clean) (hstop : StopOk S front d.journal lane hold) :
    DInv S front pend (d.stop lane hold why) :=
  { h with
    mapping := forall_setLane (P := fun i l => l.mapping = S.cfg.mapping i)
      (h.mapping lane) fun i _ => h.mapping i
    delivered := forall_setLane (P := fun i l => ∀ q, l.delivered = some q →
      UpTo S d.journal i q) (h.delivered lane) fun i _ => h.delivered i
    stopped := forall_setLane (P := fun i l => ∀ h why, l.stopped = some (h, why) →
      StopOk S front d.journal i h) (by rintro _ _ ⟨⟩; exact hstop) fun i _ => h.stopped i
    covers := forall_setLane (P := fun i l => l.stopped = none → ∀ p, Due S.cfg S.st i p →
      p ≤ front i → Settled S.cfg d.journal i p ∨ p ∈ pend i) nofun fun i _ => h.covers i
    running := fun hC => absurd hC hnot }

/-- What a flush leaves of the runs. -/
structure Flushed (d d' : Drain n) (lane : Fin n) : Prop where
  run : (d'.lanes lane).run = none
  others : ∀ i, i ≠ lane → (d'.lanes i).run = (d.lanes i).run ∧
    (d'.lanes i).stopped = (d.lanes i).stopped
  journal : d.journal ⊆ d'.journal
  buffered : d'.buffered = d.buffered - d.runBytes lane

theorem Flushed.stop (h : Flushed d d' lane) : Flushed d (d'.stop lane hold why) lane where
  run := by
    rw [Drain.stop, setLane_self]
    exact h.run
  others := fun i hi => by
    rw [Drain.stop, setLane_of_ne _ hi]
    exact h.others i hi
  journal := h.journal
  buffered := h.buffered

theorem Flushed.frame {d'' : Drain n} (h : Flushed d d' lane)
    (hframe : Frame d' d'') : Flushed d d'' lane where
  run := (hframe.run lane).trans h.run
  others := fun i hi => ⟨(hframe.run i).trans (h.others i hi).1,
    (hframe.stopped i).trans (h.others i hi).2⟩
  journal := fun _ he => hframe.journal (h.journal he)
  buffered := hframe.buffered.trans h.buffered

theorem takeRun_flushed (hrun : (d.lanes lane).run = some r) :
    Flushed d (d.takeRun lane r) lane where
  run := by simp [takeRun]
  others := fun i hi => by simp [takeRun, setLane_of_ne _ hi]
  journal := List.Subset.refl _
  buffered := by simp [takeRun, runBytes, hrun]

theorem flushRun_flushed (cfg : Config n) (lane : Fin n) (held : Option (Option ℕ × Why)) :
    Flushed d (d.flushRun cfg w lane held) lane := by
  unfold flushRun
  cases hrun : (d.lanes lane).run with
  | none =>
    exact ⟨hrun, fun _ _ => ⟨rfl, rfl⟩, List.Subset.refl _, by simp [runBytes, hrun]⟩
  | some run =>
    have htaken : Flushed d (d.takeRun lane run) lane := takeRun_flushed hrun
    dsimp only
    split
    · exact htaken.stop
    split_ifs
    · have hflushed := fun r => htaken.frame (attempt_frame (w := w) cfg lane r)
      split
      · exact (hflushed _).stop
      · exact (hflushed _).stop
      · exact hflushed _
    · exact htaken.stop

/-- After a flush the pending changes are those in the runs again. -/
theorem Inv.of_flushed (h : Inv S front d) (hf : Flushed d d' lane) (hd : DInv S front pend d')
    (hpend : ∀ i, i ≠ lane → pend i = pending (d.lanes i))
    (hlane : (d'.lanes lane).stopped = none → pend lane = []) : Inv S front d' := by
  have hpending : ∀ i, (d'.lanes i).stopped = none → pend i = pending (d'.lanes i) := by
    intro i hs
    rcases eq_or_ne i lane with rfl | hi
    · rw [hlane hs]
      simp [pending, hf.run]
    · rw [hpend i hi]
      simp [pending, (hf.others i hi).1]
  refine { hd with covers := ?_, fresh := ?_, runs := ?_, shapes := ?_ }
  · intro i hs
    rw [← hpending i hs]
    exact hd.covers i hs
  · intro hC e he
    rw [← hpending e.lane (hd.running hC e.lane)]
    exact hd.fresh hC e he
  · intro i r hr
    rcases eq_or_ne i lane with rfl | hi
    · simp [hf.run] at hr
    · rw [(hf.others i hi).1] at hr
      rw [(hf.others i hi).2]
      exact h.runs i r hr
  · intro hC i r hr
    rcases eq_or_ne i lane with rfl | hi
    · simp [hf.run] at hr
    · rw [(hf.others i hi).1] at hr
      exact h.shapes hC i r hr

/-- What `changes_first` has to find for a lane: a summary up to the
hold has its changes settled. -/
structure HeldOk (S : Setting n) (front : Fin n → Pos) (d : Drain n)
    (lane : Fin n) (held : Option (Option ℕ × Why)) : Prop where
  hold : ∀ h, held = some h → HoldOk S front h.1
  ready : (S.cfg.mapping lane).summary = true → ∀ q, Due S.cfg S.st lane q →
    q ≤ front lane →
    (∀ h, held = some h → ∃ x, h.1 = some x ∧ q.endLsn ≤ x) →
      ∀ i p, (S.cfg.mapping i).summary = false → Due S.cfg S.st i p →
        p.endLsn ≤ q.endLsn → Settled S.cfg d.journal i p
  clean : S.clean → held = none

variable {held : Option (Option ℕ × Why)}

/-- The part of a run that is up to the hold, and the rest. -/
theorem cut_cases {r' : Run} (hcut : r.CutInto segs)
    (h : (held.elim (some r) fun h => r.cut h.1) = some r') :
    ∃ A B, segs = A ++ B ∧ r'.CutInto A ∧ r'.cols = r.cols ∧
      r'.hold = r.hold ∧ (held = none → B = []) ∧
      ∀ h, held = some h → ∃ x, h.1 = some x ∧
        (∀ s ∈ A, s.2.1.endLsn ≤ x) ∧ ∀ s ∈ B, x < s.2.1.endLsn := by
  cases held with
  | none =>
    cases Option.some.inj h
    exact ⟨segs, [], (append_nil _).symm, hcut, rfl, rfl, fun _ => rfl, nofun⟩
  | some held =>
    obtain ⟨A, B, x, hx, hsegs, hA, hcols, hhold, hle, hgt⟩ := hcut.cut h
    refine ⟨A, B, hsegs, hA, hcols, hhold, nofun, ?_⟩
    intro h' hh
    cases hh
    exact ⟨x, hx, hle, hgt⟩

/-- The transactions of a run up to the hold are ready to be produced. -/
theorem RunOk.batches {A B : List Seg} (hr : RunOk S front lane r) (hcut : r.CutInto (A ++ B))
    (hsegs : ∀ s ∈ A ++ B, HoldOk S front s.1 ∧
      s.1.getD S.slot < s.2.1.endLsn) (hpend : pend lane = r.body.map (·.pos))
    (hrun : (d'.lanes lane).stopped = none) (hheld : HeldOk S front d lane held)
    (hjournal : d'.journal = d.journal) (hbound : ∀ h, held = some h → ∃ x, h.1 = some x ∧
      ∀ s ∈ A, s.2.1.endLsn ≤ x) : Batches S front pend d' lane A ((bodyOf B).map (·.pos)) := by
  have hsplit : r.body.map (·.pos) = (bodyOf A).map (·.pos) ++ (bodyOf B).map (·.pos) := by
    rw [hcut.body, bodyOf_append, map_append]
  exact {
    pend := hpend.trans hsplit
    increasing := hsplit ▸ hr.increasing
    offered := fun q hq => (hr.due q (hsplit ▸ hq)).2
    each := fun s hs => ⟨hcut.each s (mem_append_left _ hs),
      hsegs s (mem_append_left _ hs)⟩
    running := hrun
    summaries := fun hsum e he i p ht hdue hle => by
      obtain ⟨s, hs, hes⟩ := mem_flatMap.1 he
      obtain ⟨hdue', hfront⟩ := hr.due e.pos (hsplit ▸ mem_append_left _ (mem_map_of_mem he))
      have hsame := (hcut.each s (mem_append_left _ hs)).same e hes
      rw [hjournal]
      refine hheld.ready hsum e.pos hdue' hfront (fun h hh => ?_) i p ht hdue hle
      obtain ⟨x, hx, hA⟩ := hbound h hh
      exact ⟨x, hx, hsame ▸ hA s hs⟩ }

/-- A whole run's hold: the lane may stop before all of it. -/
theorem RunOk.stopOk (hr : RunOk S front lane r) (h : DInv S front pend d)
    (hpend : pend lane = r.body.map (·.pos)) (hrun : (d.lanes lane).stopped = none) :
    StopOk S front d.journal lane r.hold := by
  obtain ⟨segs, hcut, hsegs⟩ := hr.segs
  cases segs with
  | nil => exact absurd rfl hcut.ne_nil
  | cons s segs =>
    have hhold : s.1 = r.hold := by simpa using hcut.hold
    obtain ⟨hoff, hlt⟩ := hsegs s mem_cons_self
    rw [hhold] at hoff hlt
    refine h.stopOk hrun hoff ?_
    have hsplit : r.body.map (·.pos) = s.2.2.map (·.pos) ++ (bodyOf segs).map (·.pos) := by
      rw [hcut.body, bodyOf_cons, map_append]
    rw [hpend, hsplit]
    exact hold_lt_pending (hcut.each s mem_cons_self) hlt (hsplit ▸ hr.increasing)

/-- A lane that stops: the others are as they were. -/
theorem Inv.stop_flushed (h : Inv S front d) (hnot : ¬ S.clean) (hf : Flushed d d' lane)
    (hd : DInv S front (fun i => pending (d.lanes i)) d')
    (hok : StopOk S front d'.journal lane hold) :
    Inv S front (d'.stop lane hold why) := by
  refine h.of_flushed hf.stop (hd.stop hnot hok) (fun _ _ => rfl) fun hs => ?_
  simp [Drain.stop, setLane_self] at hs

theorem flushRun_spec (h : Inv S front d) (hheld : HeldOk S front d lane held)
    (hw : S.clean → ∀ i, (w i).Fine) : Inv S front (d.flushRun S.cfg w lane held) := by
  unfold flushRun
  cases hrun : (d.lanes lane).run with
  | none => exact h
  | some run =>
    obtain ⟨hstopped, hr⟩ := h.runs lane run hrun
    obtain ⟨segs, hsegs, heach⟩ := hr.segs
    have htaken := takeRun_flushed hrun
    have hdinv : DInv S front (fun i => pending (d.lanes i)) (d.takeRun lane run) :=
      { h.toDInv.setRun none with }
    have hpend : pending (d.lanes lane) = run.body.map (·.pos) := by
      simp [pending, hrun]
    have hrunning : ((d.takeRun lane run).lanes lane).stopped = none := by
      simpa [takeRun] using hstopped
    have hstopAt := hr.stopOk hdinv hpend hrunning
    dsimp only
    cases hcut : held.elim (some run) fun h => run.cut h.1 with
    | none =>
      have hnot : ¬ S.clean := fun hC => by
        simp [hheld.clean hC] at hcut
      exact h.stop_flushed hnot htaken hdinv hstopAt
    | some run' =>
      obtain ⟨A, B, rfl, hcutA, hcols, hhold, hnone, hbound⟩ := cut_cases hsegs hcut
      dsimp only
      split_ifs with hread
      · have hb : Batches S front (fun i => pending (d.lanes i))
            (d.takeRun lane run) lane A ((bodyOf B).map (·.pos)) :=
          hr.batches hsegs heach hpend hrunning hheld rfl fun h hh => by
            obtain ⟨x, hx, hA, -⟩ := hbound h hh
            exact ⟨x, hx, hA⟩
        have htried := attempt_spec hdinv hcutA hb hw
        have hframe := attempt_frame (d := d.takeRun lane run) (w := w) S.cfg lane run'
        have hflushed := htaken.frame hframe
        cases hres : ((d.takeRun lane run).attempt S.cfg w lane run').2 with
        | some hold =>
          rw [hres] at htried
          exact h.stop_flushed htried.1 hflushed htried.2.1 htried.2.2
        | none =>
          rw [hres] at htried
          cases held with
          | some hh =>
            -- what is left is past the hold
            obtain ⟨x, hx, -, hB⟩ := hbound hh rfl
            have hnot : ¬ S.clean := fun hC =>
              nomatch hheld.clean hC
            have hok := htried.stopOk ((hframe.stopped lane).trans hrunning)
              (hheld.hold hh rfl) fun q hq => by
                rw [update_self] at hq
                obtain ⟨e, he, rfl⟩ := mem_map.1 hq
                obtain ⟨s, hs, hes⟩ := mem_flatMap.1 he
                rw [hx, (hsegs.each s (mem_append_right _ hs)).same e hes]
                exact hB s hs
            refine h.stop_flushed hnot hflushed (htried.weaken hnot (update_subset ?_)) hok
            rw [hpend, hsegs.body, bodyOf_append, map_append]
            exact subset_append_right _ _
          | none =>
            obtain rfl := hnone rfl
            refine h.of_flushed hflushed htried (fun i hi => ?_) fun _ => ?_
            · rw [update_of_ne hi]
            · rw [update_self]
              rfl
      · have hnot : ¬ S.clean := fun hC => by
          rw [hcols] at hread
          exact hread (h.shapes hC lane run hrun)
        rw [hhold]
        exact h.stop_flushed hnot htaken hdinv hstopAt

end Kafgres.Cdc
