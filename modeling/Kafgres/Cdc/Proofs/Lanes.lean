/-
What holds of every lane while a drain runs. `front lane` is how far the
stream has been offered to a lane; `pend` is stated apart from the runs,
since a flush takes the run out of the lane before it produces it.
-/
import Kafgres.Cdc.Proofs.Render
import Kafgres.Cdc.Proofs.Runs

namespace Kafgres.Cdc

open Ledger List Function Drain

variable {n : ℕ}

/-- The drain a proof is about: its mappings, the stream, where the slot
is, and whether nothing fails. -/
structure Setting (n : ℕ) where
  cfg : Config n
  st : Stream
  slot : ℕ
  clean : Prop

variable (S : Setting n)

/-- All that the slot would be advanced past has been offered. -/
def HoldOk (front : Fin n → Pos) (hold : Option ℕ) : Prop :=
  ∀ i p, Due S.cfg S.st i p → p.endLsn ≤ hold.getD S.slot → p ≤ front i

/-- The slot may stay at a hold for a lane: all before it is settled. -/
structure StopOk (front : Fin n → Pos) (journal : List (Entry n))
    (lane : Fin n) (hold : Option ℕ) : Prop where
  offered : HoldOk S front hold
  settled : ∀ p, Due S.cfg S.st lane p → p.endLsn ≤ hold.getD S.slot →
    Settled S.cfg journal lane p

/-- A run in its lane: transactions in order, each with a hold before
it. -/
structure RunOk (front : Fin n → Pos) (lane : Fin n) (r : Run) : Prop where
  segs : ∃ segs, r.CutInto segs ∧ ∀ s ∈ segs, HoldOk S front s.1 ∧
    s.1.getD S.slot < s.2.1.endLsn
  increasing : (r.body.map (·.pos)).Pairwise (· < ·)
  due : ∀ p ∈ r.body.map (·.pos), Due S.cfg S.st lane p ∧ p ≤ front lane

def pending (l : Lane) : List Pos := l.run.elim [] fun r => r.body.map (·.pos)

structure DInv (front : Fin n → Pos) (pend : Fin n → List Pos)
    (d : Drain n) : Prop where
  mapping : ∀ i, (d.lanes i).mapping = S.cfg.mapping i
  justified : Justified (Ready S.cfg S.st) d.journal
  filtered : Filtered S.cfg d.journal
  base : ∀ i p, Due S.cfg S.st i p → p.endLsn ≤ S.slot →
    Settled S.cfg d.journal i p
  saved : ∀ i q, d.saved i = some q → ∀ p, Due S.cfg S.st i p → p ≤ q →
    Settled S.cfg d.journal i p
  delivered : ∀ i q, (d.lanes i).delivered = some q →
    ∀ p, Due S.cfg S.st i p → p ≤ q → Settled S.cfg d.journal i p
  stopped : ∀ i h why, (d.lanes i).stopped = some (h, why) →
    StopOk S front d.journal i h
  covers : ∀ i, (d.lanes i).stopped = none → ∀ p, Due S.cfg S.st i p →
    p ≤ front i → Settled S.cfg d.journal i p ∨ p ∈ pend i
  running : S.clean → ∀ i, (d.lanes i).stopped = none
  once : S.clean → (d.journal.map fun e => (e.lane, e.pos)).Nodup
  fresh : S.clean → ∀ e ∈ d.journal, (e.verdict = .produced ∨
    e.verdict = .passed) ∧ e.pos ≤ front e.lane ∧ e.pos ∉ pend e.lane

/-- Between two flushes: what is pending is in the runs. -/
structure Inv (front : Fin n → Pos) (d : Drain n) : Prop extends
    DInv S front (fun i => pending (d.lanes i)) d where
  runs : ∀ i r, (d.lanes i).run = some r →
    (d.lanes i).stopped = none ∧ RunOk S front i r
  shapes : S.clean → ∀ i r, (d.lanes i).run = some r →
    S.cfg.readable r.cols = true

/-- What a production changes of the lanes and of the journal. -/
structure Frame (d d' : Drain n) : Prop where
  run : ∀ i, (d'.lanes i).run = (d.lanes i).run
  stopped : ∀ i, (d'.lanes i).stopped = (d.lanes i).stopped
  mapping : ∀ i, (d'.lanes i).mapping = (d.lanes i).mapping
  journal : d.journal ⊆ d'.journal
  buffered : d'.buffered = d.buffered

variable {S} {front : Fin n → Pos} {pend : Fin n → List Pos} {d d' : Drain n}
  {w : World} {lane : Fin n} {es : List Element} {last : Pos}
  {rest : List Pos} {pend' : Fin n → List Pos} {p : Pos} {k : ℕ}

theorem Frame.trans {d'' : Drain n} (h : Frame d d') (h' : Frame d' d'') : Frame d d'' where
  run := fun i => (h'.run i).trans (h.run i)
  stopped := fun i => (h'.stopped i).trans (h.stopped i)
  mapping := fun i => (h'.mapping i).trans (h.mapping i)
  journal := fun _ he => h'.journal (h.journal he)
  buffered := h'.buffered.trans h.buffered

-- ==== from drain to drain

/-- All that is due on a lane up to a position is settled. -/
def UpTo (S : Setting n) (journal : List (Entry n)) (lane : Fin n) (q : Pos) : Prop :=
  ∀ p, Due S.cfg S.st lane p → p ≤ q → Settled S.cfg journal lane p

/-- A journal that has grown, with what is still pending. -/
theorem DInv.grow (h : DInv S front pend d)
    (hkeep : ∀ i, (d'.lanes i).mapping = (d.lanes i).mapping ∧
      (d'.lanes i).stopped = (d.lanes i).stopped) (hmono : d.journal ⊆ d'.journal)
    (hdelivered : ∀ i q, (d'.lanes i).delivered = some q →
      (d.lanes i).delivered = some q ∨ UpTo S d'.journal i q)
    (hsaved : ∀ i q, d'.saved i = some q → d.saved i = some q ∨ UpTo S d'.journal i q)
    (hjust : Justified (Ready S.cfg S.st) d'.journal) (hfiltered : Filtered S.cfg d'.journal)
    (hpend : ∀ i, ∀ p ∈ pend i, Settled S.cfg d'.journal i p ∨ p ∈ pend' i)
    (honce : S.clean → (d'.journal.map fun e => (e.lane, e.pos)).Nodup)
    (hfresh : S.clean → ∀ e ∈ d'.journal, (e.verdict = .produced ∨
      e.verdict = .passed) ∧ e.pos ≤ front e.lane ∧ e.pos ∉ pend' e.lane) :
    DInv S front pend' d' where
  mapping := fun i => (hkeep i).1.trans (h.mapping i)
  justified := hjust
  filtered := hfiltered
  base := fun i p hdue hle => (h.base i p hdue hle).mono hmono
  saved := fun i q hq p hdue hle => by
    rcases hsaved i q hq with hq | hq
    · exact (h.saved i q hq p hdue hle).mono hmono
    · exact hq p hdue hle
  delivered := fun i q hq p hdue hle => by
    rcases hdelivered i q hq with hq | hq
    · exact (h.delivered i q hq p hdue hle).mono hmono
    · exact hq p hdue hle
  stopped := fun i hold why hs => by
    have hok := h.stopped i hold why ((hkeep i).2.symm.trans hs)
    exact ⟨hok.offered, fun p hdue hle => (hok.settled p hdue hle).mono hmono⟩
  covers := fun i hs p hdue hle => by
    rcases h.covers i ((hkeep i).2.symm.trans hs) p hdue hle with hset | hp
    · exact .inl (hset.mono hmono)
    · exact hpend i p hp
  running := fun hC i => (hkeep i).2.trans (h.running hC i)
  once := honce
  fresh := hfresh

/-- With the same journal: only the positions delivered and recorded may
change. -/
theorem DInv.congr (h : DInv S front pend d)
    (hkeep : ∀ i, (d'.lanes i).mapping = (d.lanes i).mapping ∧
      (d'.lanes i).stopped = (d.lanes i).stopped)
    (hdelivered : ∀ i q, (d'.lanes i).delivered = some q →
      (d.lanes i).delivered = some q ∨ UpTo S d.journal i q)
    (hsaved : ∀ i q, d'.saved i = some q → d.saved i = some q ∨ UpTo S d.journal i q)
    (hjournal : d'.journal = d.journal) : DInv S front pend d' := by
  apply h.grow hkeep <;> rw [hjournal]
  · exact fun _ he => he
  · exact hdelivered
  · exact hsaved
  · exact h.justified
  · exact h.filtered
  · exact fun _ _ => .inr
  · exact h.once
  · exact h.fresh

/-- A hold before everything pending: the lane may stop there. -/
theorem DInv.stopOk (h : DInv S front pend d) {hold : Option ℕ}
    (hrun : (d.lanes lane).stopped = none) (hoff : HoldOk S front hold)
    (hpend : ∀ q ∈ pend lane, hold.getD S.slot < q.endLsn) :
    StopOk S front d.journal lane hold := by
  refine ⟨hoff, fun p hdue hle => ?_⟩
  rcases h.covers lane hrun p hdue (hoff lane p hdue hle) with hs | hp
  · exact hs
  · exact absurd (hpend p hp) (not_lt.2 hle)

-- ==== small steps

@[simp] theorem setLane_self (l : Lane) : (d.setLane lane l).lanes lane = l := by
  simp [setLane]

theorem setLane_of_ne {i : Fin n} (l : Lane) (hi : i ≠ lane) :
    (d.setLane lane l).lanes i = d.lanes i := by
  simp [setLane, hi]

/-- What holds of the new lane and of the others. -/
theorem forall_setLane {P : Fin n → Lane → Prop} {l : Lane} (hself : P lane l)
    (hother : ∀ i, i ≠ lane → P i (d.lanes i)) (i : Fin n) : P i ((d.setLane lane l).lanes i) := by
  rcases eq_or_ne i lane with rfl | hi
  · rwa [setLane_self]
  · rw [setLane_of_ne l hi]
    exact hother i hi

theorem deliver_frame (d : Drain n) (lane : Fin n) (last : Pos)
    (moved : Bool) : Frame d (d.deliver lane last moved) where
  run := forall_setLane (P := fun i l => l.run = (d.lanes i).run) rfl fun _ _ => rfl
  stopped := forall_setLane (P := fun i l => l.stopped = (d.lanes i).stopped) rfl fun _ _ => rfl
  mapping := forall_setLane (P := fun i l => l.mapping = (d.lanes i).mapping) rfl fun _ _ => rfl
  journal := fun _ he => he
  buffered := rfl

/-- A committed step moves the lane's delivered position. -/
theorem DInv.deliver (h : DInv S front pend d) (hlast : UpTo S d.journal lane last)
    (moved : Bool) : DInv S front pend (d.deliver lane last moved) := by
  have hframe := deliver_frame d lane last moved
  refine h.congr (fun i => ⟨hframe.mapping i, hframe.stopped i⟩) ?_ (fun _ _ => .inl) rfl
  refine forall_setLane (P := fun i l => ∀ q, l.delivered = some q →
    (d.lanes i).delivered = some q ∨ UpTo S d.journal i q) ?_ fun _ _ _ => .inl
  rintro _ ⟨⟩
  exact .inr hlast

/-- What a step that records a position changes. -/
structure Records (d d' : Drain n) (lane : Fin n) (last : Pos)
    (ok : Bool) : Prop where
  lanes : d'.lanes = d.lanes
  journal : d'.journal = d.journal
  buffered : d'.buffered = d.buffered
  saved : d'.saved =
    if ok then update d.saved lane (some last) else d.saved

theorem persist_records (w : World) (d : Drain n) (lane : Fin n) (last : Pos) (dirty : Bool) :
    Records d (d.persist w lane last dirty).1 lane last (d.persist w lane last dirty).2 := by
  unfold persist syncAll savePosition
  dsimp only
  split_ifs <;> exact ⟨rfl, rfl, rfl, by simp_all⟩

theorem persist_fine (hw : ∀ i, (w i).Fine) (d : Drain n) (lane : Fin n)
    (last : Pos) (dirty : Bool) : (d.persist w lane last dirty).2 = true := by
  unfold persist syncAll savePosition
  simp only [(hw _).ok, if_true]
  split_ifs <;> simp_all

theorem DInv.records {ok : Bool} (h : DInv S front pend d)
    (hlast : UpTo S d.journal lane last) (hr : Records d d' lane last ok) :
    DInv S front pend d' := by
  refine h.congr (fun i => by simp [hr.lanes]) (fun i q hq => .inl (hr.lanes ▸ hq))
    (fun i q hq => ?_) hr.journal
  rw [hr.saved] at hq
  split_ifs at hq
  · rcases eq_or_ne i lane with rfl | hi
    · rw [update_self] at hq
      cases hq
      exact .inr hlast
    · exact .inl (by rwa [update_of_ne hi] at hq)
  · exact .inl hq

-- ==== one production

/-- Whatever becomes of a production, no run changes. -/
theorem produce_frame (cfg : Config n) (w : World) (d : Drain n) (lane : Fin n)
    (es : List Element) (last : Pos) : Frame d (d.produce cfg w lane es last).1 := by
  have hrender : Frame d (d.render cfg w lane es).1 :=
    ⟨fun _ => rfl, fun _ => rfl, fun _ => rfl, subset_append_left _ _, rfl⟩
  unfold produce
  dsimp only
  split
  · exact hrender
  next k hk =>
    obtain ⟨hlanes, hjournal, hbuffered, -⟩ :=
      persist_records w (d.render cfg w lane es).1 lane last (decide (0 < k))
    have hpersist : Frame d ((d.render cfg w lane es).1.persist w lane last (decide (0 < k))).1 :=
      hrender.trans ⟨by simp [hlanes], by simp [hlanes], by simp [hlanes],
        hjournal ▸ List.Subset.refl _, hbuffered⟩
    split_ifs
    · exact hpersist.trans (deliver_frame _ _ _ _)
    · exact { hpersist with }
    · refine Frame.trans ?_ (deliver_frame _ _ _ _)
      exact { hrender with }

/-- Elements ready to be produced on a lane: the first of what is
pending there, and if they are summaries, their changes are settled. -/
structure Batch (S : Setting n) (front : Fin n → Pos)
    (pend : Fin n → List Pos) (d : Drain n) (lane : Fin n)
    (es : List Element) (last : Pos) (rest : List Pos) : Prop where
  pend : pend lane = es.map (·.pos) ++ rest
  increasing : (es.map (·.pos) ++ rest).Pairwise (· < ·)
  offered : ∀ q ∈ es.map (·.pos) ++ rest, q ≤ front lane
  last : es.getLast?.map (·.pos) = some last
  running : (d.lanes lane).stopped = none
  summaries : (S.cfg.mapping lane).summary = true → ∀ e ∈ es, ∀ i p,
    (S.cfg.mapping i).summary = false → Due S.cfg S.st i p →
      p.endLsn ≤ e.pos.endLsn → Settled S.cfg d.journal i p

section

variable (hb : Batch S front pend d lane es last rest)
include hb

theorem Batch.last_eq : ∃ es' e, es = es' ++ [e] ∧ e.pos = last := by
  obtain ⟨e, he, hpos⟩ := Option.map_eq_some_iff.1 hb.last
  obtain ⟨es', rfl⟩ := getLast?_eq_some_iff.1 he
  exact ⟨es', e, rfl, hpos⟩

/-- What is due up to the last element is settled or in the batch. -/
theorem Batch.covers (h : DInv S front pend d) (hdue : Due S.cfg S.st lane p) (hle : p ≤ last) :
    Settled S.cfg d.journal lane p ∨ p ∈ es.map (·.pos) := by
  obtain ⟨es', e, rfl, rfl⟩ := hb.last_eq
  have hfront := hb.offered e.pos (by simp)
  rcases h.covers lane hb.running p hdue (hle.trans hfront) with hs | hp
  · exact .inl hs
  rw [hb.pend] at hp
  rcases mem_append.1 hp with hp | hp
  · exact .inr hp
  -- what is left is past the last element
  have hlt := (pairwise_append.1 hb.increasing).2.2 e.pos (by simp) p hp
  exact absurd hle (not_le.2 hlt)

theorem Batch.lt_last {e : Element} (he : e ∈ es) : e.pos ≤ last := by
  obtain ⟨es', l, rfl, rfl⟩ := hb.last_eq
  rcases mem_append.1 he with he | he
  · have hinc := (pairwise_append.1 hb.increasing).1
    rw [map_append, pairwise_append] at hinc
    exact (hinc.2.2 e.pos (mem_map_of_mem he) l.pos (by simp)).le
  · cases mem_singleton.1 he
    exact le_rfl

/-- The journal after a render step, whether it fails or not. -/
theorem Batch.justified (h : DInv S front pend d) (onError : OnError) (o : Outcome) :
    Justified (Ready S.cfg S.st) (d.journal ++
      (renderAndProduce S.cfg.engine (S.cfg.keeps lane) onError o es).1.map
        fun v => ⟨lane, v.1, v.2⟩) := by
  refine render_justified h.justified ?_ (fun e he p hdue hlt => ?_) hb.summaries
  · exact (pairwise_append.1 hb.increasing).1.of_map _ fun _ _ h => h
  rcases hb.covers h hdue (hlt.le.trans (hb.lt_last he)) with hs | hp
  · exact .inl hs.seen
  · exact .inr (mem_map.1 hp)

theorem Batch.nodup : (es.map (·.pos) ++ rest).Nodup :=
  hb.increasing.imp ne_of_lt

end

/-- A render step that does not fail settles what it rendered. -/
theorem render_settled (hk : (d.render S.cfg w lane es).2 = some k)
    (hp : p ∈ es.map (·.pos)) : Settled S.cfg (d.render S.cfg w lane es).1.journal lane p := by
  obtain ⟨e, he, rfl⟩ := mem_map.1 hp
  obtain ⟨v, hv, hpos, hstands⟩ := renderAndProduce_settles hk e he
  refine ⟨_, mem_append_right _ (mem_map_of_mem hv), rfl, hpos, ?_⟩
  rw [← hpos]
  by_cases hdead : v.1 = .dead
  · exact .inr hdead
  · refine .inl (renderAndProduce_filtered hv ?_)
    cases hkind : v.1 <;> simp_all

theorem render_filtered (h : Filtered S.cfg d.journal) :
    Filtered S.cfg (d.render S.cfg w lane es).1.journal := by
  intro e he hkind
  rcases mem_append.1 he with he | he
  · exact h e he hkind
  · obtain ⟨v, hv, rfl⟩ := mem_map.1 he
    exact renderAndProduce_filtered hv hkind

/-- A render step that does not fail leaves nothing of the batch
pending. -/
theorem DInv.render_some (h : DInv S front pend d) (hb : Batch S front pend d lane es last rest)
    (hw : S.clean → ∀ i, (w i).Fine) (hk : (d.render S.cfg w lane es).2 = some k) :
    DInv S front (update pend lane rest) (d.render S.cfg w lane es).1 := by
  have hnodup := hb.nodup
  have hfine := fun hC => renderAndProduce_fine S.cfg.engine (S.cfg.keeps lane)
    (d.lanes lane).mapping.onError es (hw hC d.clock)
  have hin : S.clean → ∀ v ∈ (renderAndProduce S.cfg.engine (S.cfg.keeps lane)
      (d.lanes lane).mapping.onError (w d.clock) es).1, v.2 ∈ es.map (·.pos) :=
    fun hC v hv => (hfine hC).2.1.subset (mem_map_of_mem hv)
  refine h.grow (fun _ => ⟨rfl, rfl⟩) (subset_append_left _ _) (fun _ _ => .inl) (fun _ _ => .inl)
    (hb.justified h _ _) (render_filtered h.filtered) (fun i p hp => ?_) (fun hC => ?_)
    fun hC e he => ?_
  · rcases eq_or_ne i lane with rfl | hi
    · rw [hb.pend] at hp
      rw [update_self]
      exact (mem_append.1 hp).imp (render_settled hk) id
    · rw [update_of_ne hi]
      exact .inr hp
  · -- the new entries are of what was pending, one for each
    show ((d.journal ++ _).map _).Nodup
    rw [map_append, map_map, nodup_append]
    refine ⟨h.once hC, ?_, fun a ha b hb' hab => ?_⟩
    · have hnew := (hfine hC).2.1.nodup_iff.2 (nodup_append.1 hnodup).1
      rw [show (fun e : Entry n => (e.lane, e.pos)) ∘
          (fun v : Verdict × Pos => (⟨lane, v.1, v.2⟩ : Entry n)) =
        Prod.mk lane ∘ Prod.snd from rfl, ← map_map]
      exact hnew.map (Prod.mk_right_injective lane)
    · obtain ⟨e, he, rfl⟩ := mem_map.1 ha
      obtain ⟨v, hv, rfl⟩ := mem_map.1 hb'
      obtain ⟨hlane, hpos⟩ := Prod.mk.inj hab
      refine (h.fresh hC e he).2.2 ?_
      rw [hlane, hpos, hb.pend]
      exact mem_append_left _ (hin hC v hv)
  · rcases mem_append.1 he with he | he
    · obtain ⟨hv, hfront, hpend⟩ := h.fresh hC e he
      refine ⟨hv, hfront, ?_⟩
      by_cases hi : e.lane = lane
      · rw [hi, hb.pend] at hpend
        rw [hi, update_self]
        exact fun hrest => hpend (mem_append_right _ hrest)
      · rwa [update_of_ne hi]
    · obtain ⟨v, hv, rfl⟩ := mem_map.1 he
      refine ⟨(hfine hC).2.2 v hv, hb.offered _ (mem_append_left _ (hin hC v hv)), ?_⟩
      rw [update_self]
      exact fun hrest => (nodup_append.1 hnodup).2.2 _ (hin hC v hv) _ hrest rfl

/-- A step that fails leaves all pending, and it is not a clean drain. -/
theorem DInv.render_none (h : DInv S front pend d) (hb : Batch S front pend d lane es last rest)
    (hw : S.clean → ∀ i, (w i).Fine) (hk : (d.render S.cfg w lane es).2 = none) :
    ¬ S.clean ∧ DInv S front pend (d.render S.cfg w lane es).1 := by
  have hnot : ¬ S.clean := by
    intro hC
    obtain ⟨⟨k, hsome⟩, -, -⟩ := renderAndProduce_fine S.cfg.engine (S.cfg.keeps lane)
      (d.lanes lane).mapping.onError es (hw hC d.clock)
    exact nomatch hsome.symm.trans hk
  exact ⟨hnot, h.grow (fun _ => ⟨rfl, rfl⟩) (subset_append_left _ _) (fun _ _ => .inl)
    (fun _ _ => .inl) (hb.justified h _ _) (render_filtered h.filtered) (fun _ _ => .inr)
    (fun hC => absurd hC hnot) fun hC => absurd hC hnot⟩

theorem DInv.weaken (h : DInv S front pend d) (hnot : ¬ S.clean) (hsub : ∀ i, pend i ⊆ pend' i) :
    DInv S front pend' d :=
  { h with
    covers := fun i hs p hdue hle =>
      (h.covers i hs p hdue hle).imp id fun hp => hsub i hp
    fresh := fun hC => absurd hC hnot }

theorem update_subset {ps : List Pos} (h : ps ⊆ pend lane) (i : Fin n) :
    update pend lane ps i ⊆ pend i := by
  rcases eq_or_ne i lane with rfl | hi
  · rwa [update_self]
  · rw [update_of_ne hi]
    exact List.Subset.refl _

/-- What comes of a production. -/
def Produces (S : Setting n) (front : Fin n → Pos)
    (pend : Fin n → List Pos) (lane : Fin n) (rest : List Pos) (d' : Drain n) : Option Failed → Prop
  | none => DInv S front (update pend lane rest) d'
  | some _ => ¬ S.clean ∧ DInv S front pend d'

theorem produce_spec (h : DInv S front pend d) (hb : Batch S front pend d lane es last rest)
    (hw : S.clean → ∀ i, (w i).Fine) :
    Produces S front pend lane rest (d.produce S.cfg w lane es last).1
      (d.produce S.cfg w lane es last).2 := by
  unfold produce
  cases hk : (d.render S.cfg w lane es).2 with
  | none =>
    simp only [hk]
    exact h.render_none hb hw hk
  | some k =>
    have hd := h.render_some hb hw hk
    have hlast : UpTo S (d.render S.cfg w lane es).1.journal lane last := by
      intro p hdue hle
      rcases hb.covers h hdue hle with hs | hp
      · exact hs.mono (subset_append_left _ _)
      · exact render_settled hk hp
    have hrest : rest ⊆ pend lane := hb.pend ▸ subset_append_right _ _
    have hr := persist_records w (d.render S.cfg w lane es).1 lane last (decide (0 < k))
    simp only [hk]
    split_ifs with hstream hok
    · -- recorded at once
      refine (hd.records hlast hr).deliver ?_ _
      rw [hr.journal]
      exact hlast
    · have hnot : ¬ S.clean := fun hC => hok (persist_fine (hw hC) _ lane last _)
      exact ⟨hnot, { (hd.records hlast hr).weaken hnot (update_subset hrest) with }⟩
    · apply DInv.deliver
      · exact { hd with }
      · exact hlast

end Kafgres.Cdc
