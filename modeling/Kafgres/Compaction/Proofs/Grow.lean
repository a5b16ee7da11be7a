/-
What happens to a plan between passes.
-/
import Kafgres.Compaction.Proofs.Pass

namespace Kafgres.Compaction

open List Compaction.Partition

variable {B : Type} {p p' : Partition B} {keys : List B}

-- ==== growing

/-- What the operations between passes do, as far as a plan can see:
nothing below the last stable offset changes. -/
structure Grows (p p' : Partition B) : Prop where
  closed : ∃ more, p'.closed = p.closed ++ more ∧
    ∀ s ∈ more, p.active.base ≤ s.base ∧ ∀ b ∈ s.batches, p.active.base ≤ b.baseOffset
  active : p.active.base ≤ p'.active.base
  log : ∃ new, p'.log = p.log ++ new ∧
    ∀ b ∈ new, p.lastStable ≤ b.baseOffset
  stable : p.lastStable ≤ p'.lastStable
  live : ∀ b ∈ p.log, b.lastOffset < p.lastStable →
    (p'.txns.Live b ↔ p.txns.Live b)
  compactCursor : p'.compactCursor = p.compactCursor
  layoutGeneration : p'.layoutGeneration = p.layoutGeneration

namespace Grows

variable {b : Batch B} {m : OffsetMap B} {d : ℤ} {fp : B → BitVec 128}

theorem mem_log (h : Grows p p') (hb : b ∈ p.log) : b ∈ p'.log := by
  obtain ⟨new, hlog, -⟩ := h.log
  rw [hlog]
  exact mem_append_left _ hb

/-- A batch below the last stable offset was there before. -/
theorem mem_log_of_lt (h : Grows p p') (hb : b ∈ p'.log)
    (hlt : b.baseOffset < p.lastStable) : b ∈ p.log := by
  obtain ⟨new, hlog, hnew⟩ := h.log
  rw [hlog] at hb
  refine (mem_append.1 hb).resolve_right fun hin => ?_
  have := hnew b hin
  omega

/-- A segment closed since has nothing below the active one. -/
theorem mem_closed (h : Grows p p') {s : Segment B} (hs : s ∈ p'.closed) :
    s ∈ p.closed ∨ (p.active.base ≤ s.base ∧ ∀ b ∈ s.batches, p.active.base ≤ b.baseOffset) := by
  obtain ⟨more, hclosed, hmore⟩ := h.closed
  rw [hclosed] at hs
  exact (mem_append.1 hs).imp id (hmore s)

theorem knownOk {known : List (ℤ × ℕ)} (h : Grows p p')
    (hk : KnownOk p known) : KnownOk p' known := by
  intro id hid
  obtain ⟨b, hb, hbase, hfault, hlive, hlast⟩ := hk id hid
  exact ⟨b, h.mem_log hb, hbase, hfault, (h.live b hb hlast).2 hlive, hlast.trans_le h.stable⟩

theorem cleanBelow (hp : p.Shape) (hp' : p'.Shape) (h : Grows p p')
    (hc : CleanBelow p p.compactCursor) : CleanBelow p' p'.compactCursor := by
  have hle := hp.cursor_le
  -- an entry below the cursor is of a batch below the cursor
  have hold : ∀ b ∈ p'.log, p'.txns.Live b → ∀ e ∈ b.entries,
      e.offset < p.compactCursor → b ∈ p.log ∧ p.txns.Live b := by
    intro b hb hlive e he hlt
    have hin := (hp'.sound b hb).entry_mem he
    have hb := h.mem_log_of_lt hb (by omega)
    have := hp.boundary b hb (by omega)
    exact ⟨hb, (h.live b hb (by omega)).1 hlive⟩
  intro b hb hlive hk e he hkey hv ho
  rw [h.compactCursor] at ho
  obtain ⟨hb, hlive⟩ := hold b hb hlive e he ho
  obtain ⟨-, hmoot⟩ := hc b hb hlive hk e he hkey hv ho
  refine ⟨hv, fun e' he' hkey' hlt => ?_⟩
  obtain ⟨b', hb', hlive', hin⟩ := mem_table.1 he'
  obtain ⟨hb', hlive'⟩ := hold b' hb' hlive' e' hin (hlt.trans ho)
  exact hmoot e' (mem_table.2 ⟨b', hb', hlive', hin⟩) hkey' hlt

theorem mapping {pre : List (Batch B)} (h : Grows p p')
    (hpre : ∀ b ∈ pre, b ∈ p.log) (hm : Mapping p d pre fp m) : Mapping p' d pre fp m := by
  have hstable := hm.stable
  refine ⟨⟨hm.map.covered, hm.map.reached, fun b hb hd hlive => ?_,
    fun f o hf => ?_⟩, hstable.trans_le h.stable, hm.hashers⟩
  · have := hm.map.covered b hb
    exact hm.map.complete b hb hd ((h.live b (hpre b hb) (by omega)).1 hlive)
  · obtain ⟨b, hb, hd, hle, hlive, hrest⟩ := hm.map.sound f o hf
    exact ⟨b, hb, hd, hle, (h.live b (hpre b hb) (by omega)).2 hlive, hrest⟩

theorem mapsTo {at_ : ℤ × ℕ} (h : Grows p p')
    (hm : MapsTo p d fp m (some at_)) : MapsTo p' d fp m (some at_) := by
  obtain ⟨before, s, after, hsplit, hbase, hpos, hmap⟩ := hm
  obtain ⟨more, hclosed, -⟩ := h.closed
  refine ⟨before, s, after ++ more, ?_, hbase, hpos, h.mapping (fun b hb => ?_) hmap⟩
  · rw [hclosed, hsplit]
    simp
  have hmem : ∀ x ∈ before ++ [s], x ∈ p.closed := by
    intro x hx
    rw [hsplit]
    rcases mem_append.1 hx with hx | hx
    · exact mem_append_left _ hx
    · rw [mem_singleton.1 hx]
      exact mem_append_right _ mem_cons_self
  rcases mem_append.1 hb with hb | hb
  · obtain ⟨x, hx, hbx⟩ := mem_flatMap.1 hb
    exact mem_log_of_closed (hmem x (mem_append_left _ hx)) hbx
  · exact mem_log_of_closed (hmem s (mem_append_right _ mem_cons_self)) (mem_of_mem_take hb)

theorem fits (hp' : p'.Shape) (h : Grows p p') (hm : MapFits p d m)
    (hp : p.Shape) : MapFits p' d m := by
  have hstable := hm.stable
  have hold : ∀ b ∈ p'.log, b.baseOffset ≤ m.endOffset → b ∈ p.log :=
    fun b hb hle => h.mem_log_of_lt hb (by omega)
  have hlive : ∀ b ∈ p.log, b.baseOffset ≤ m.endOffset → (p'.txns.Live b ↔ p.txns.Live b) :=
    fun b hb hle => h.live b hb (hm.lt_stable hb hle)
  refine ⟨hstable.trans_le h.stable, hm.inactive.trans_le h.active, hm.dirty,
    fun b hb hle => hm.boundary b (hold b hb hle) hle, ?_, fun f o hf => ?_⟩
  · intro b hb hl hk e he k hkey hde hend
    have hin := (hp'.sound b hb).entry_mem he
    have hb := hold b hb (by omega)
    exact hm.complete b hb ((hlive b hb (by omega)).1 hl) hk e he k hkey hde hend
  · obtain ⟨hlo, hhi, e, he, hoff, hrest⟩ := hm.sound f o hf
    refine ⟨hlo, hhi, e, ?_, hoff, hrest⟩
    obtain ⟨b, hb, hl, hin⟩ := mem_table.1 he
    have hmem := (hp.sound b hb).entry_mem hin
    exact mem_table.2 ⟨b, h.mem_log hb, (hlive b hb (by omega)).2 hl, hin⟩

variable [Wire B] {q : CleanPlan B}

theorem sweptOr (hm : MapFits p d m) (h : Grows p p') (hb : b ∈ p.log)
    (hs : SweptOr p m b) : SweptOr p' m b := by
  intro hlive hle
  exact hs ((h.live b hb (hm.lt_stable hb hle)).1 hlive) hle

/-- What the copy holds of a batch stays judged: a batch the map has is
decided, one above it was copied as it is. -/
theorem judged {out : List (Batch B)} (hp : p.Shape) (hm : MapFits p d m)
    (h : Grows p p') (hb : b ∈ p.log) (hj : Judged p.txns m d b out) :
    Judged p'.txns m d b out := by
  rcases le_or_gt b.baseOffset m.endOffset with hle | hgt
  · have hiff := h.live b hb (hm.lt_stable hb hle)
    exact ⟨⟨hj.thin, hj.under, fun hl => hj.faulty (hiff.1 hl),
      fun hl => hj.dropped (hiff.1 hl)⟩, fun hl => hj.swept (hiff.1 hl)⟩
  · rw [hj.under.resolve_right (by omega)]
    exact Judged.kept (hp.sound b hb) fun _ hle => absurd hle (by omega)

/-- A rewrite left off can go on after the log grew. -/
theorem rewriteOk {rw : Rewrite B} (hp : p.Shape)
    (hm : MapFits p q.dirtyFrom q.map) (h : Grows p p')
    (hrw : RewriteOk p q rw) : RewriteOk p' q rw := by
  have hinactive := hm.inactive
  have hunder := hrw.under
  have hold : ∀ s ∈ p'.closed, s.base ≤ rw.info.base → s ∈ p.closed := by
    intro s hs hle
    refine (h.mem_closed hs).resolve_right fun hnew => ?_
    omega
  refine ⟨hunder, fun s hs hlt => hrw.next s (hold s hs hlt.le) hlt,
    fun s hs heq => hrw.pos_le s (hold s hs heq.le) heq, ?_, ?_⟩
  · intro hwr s hs heq b hb
    have hs := hold s hs heq.le
    exact h.sweptOr hm (mem_log_of_closed hs (mem_of_mem_take hb)) (hrw.scanned hwr s hs heq b hb)
  intro hwr s hs heq
  have hs := hold s hs heq.le
  refine (hrw.copied hwr s hs heq).mono fun b hb out hj => ?_
  exact h.judged hp hm (mem_log_of_closed hs (mem_of_mem_take hb)) hj

/-- A plan keeps its meaning while the log grows. -/
theorem planOk (hp : p.Shape) (hp' : p'.Shape) (h : Grows p p')
    (hq : PlanOk keys p q) : PlanOk keys p' q := by
  refine ⟨h.compactCursor ▸ hq.dirty_le, hq.hashers, fun at_ hat => ?_,
    fun hat => h.fits hp' (hq.fits hat) hp, fun hab s hs hlt b hb => ?_,
    fun rw hsome => ?_⟩
  · obtain ⟨hmaps, hrw, hfrom, hbound⟩ := hq.mapping at_ hat
    refine ⟨h.mapsTo hmaps, hrw, hfrom, fun b hb hlt => ?_⟩
    have := hq.dirty_le
    have := hp.cursor_le
    exact hbound b (h.mem_log_of_lt hb (by omega)) hlt
  · cases hat : q.mappingAt with
    | some at_ =>
      -- nothing is rewritten while mapping goes on
      have hfrom := (hq.mapping at_ hat).2.2.1
      have := (hp'.based s (mem_append_left _ hs)).1
      rw [hfrom, minOffset] at hlt
      omega
    | none =>
      have hm := hq.fits hat
      rcases h.mem_closed hs with hold | hnew
      · exact h.sweptOr hm (mem_log_of_closed hold hb) (hq.swept hab s hold hlt b hb)
      intro _ hle
      have := hnew.2 b hb
      have := hm.inactive
      omega
  · cases hat : q.mappingAt with
    | some at_ =>
      have hnone := (hq.mapping at_ hat).2.1
      simp [hnone] at hsome
    | none => exact h.rewriteOk hp (hq.fits hat) (hq.rewriting rw hsome)

theorem procOk {st : Statics B} (hp : p.Shape) (hp' : p'.Shape)
    (h : Grows p p') (hst : ProcOk keys p st) : ProcOk keys p' st := by
  refine ⟨h.knownOk hst.known, ?_, ?_⟩
  · rw [h.layoutGeneration]
    exact hst.behind
  · rw [h.layoutGeneration]
    exact fun q hq hgen => h.planOk hp hp' (hst.plan q hq hgen)

end Grows

-- ==== the steps that grow

variable {b : Batch B} {mtime : ℤ}

theorem shape_append (hp : p.Shape) (hb : Batch.Sound { b with baseOffset := p.nextOffset }) :
    (p.append b mtime).Shape := by
  have hlast := hb.base_le_last
  have hbase : ({ b with baseOffset := p.nextOffset } : Batch B).baseOffset = p.nextOffset := rfl
  have hcursor := hp.cursor_le
  have hstable := hp.stable_le
  refine ⟨hp.append hb.extent, fun x hx => ?_, hp.cursor_nonneg, hcursor, ?_,
    fun x hx hlt => ?_, fun x hx hlt => ?_⟩
  · rcases mem_log_append.1 hx with hx | rfl
    · exact hp.sound x hx
    · exact hb
  · change p.lastStable ≤ Batch.lastOffset _ + 1
    omega
  · rcases mem_log_append.1 hx with hx | rfl
    · exact hp.boundary x hx hlt
    · change p.nextOffset < p.compactCursor at hlt
      omega
  · rcases mem_log_append.1 hx with hx | rfl
    · exact hp.decided x hx hlt
    · change Batch.lastOffset _ < p.lastStable at hlt
      omega

theorem grows_append (hp : p.Shape) : Grows p (p.append b mtime) :=
  ⟨⟨[], (append_nil _).symm, nofun⟩, le_rfl, ⟨_, log_append p b mtime, fun x hx => by
      rw [mem_singleton.1 hx]
      exact hp.stable_le⟩,
    le_rfl, fun _ _ _ => Iff.rfl, rfl, rfl⟩

theorem shape_roll (hp : p.Shape) : (p.roll mtime).Shape := by
  have hlayout := hp.toLayout.roll mtime
  have hlog := log_roll p mtime
  unfold roll at hlog hlayout ⊢
  split
  · exact hp
  next hne =>
  rw [if_neg hne] at hlog hlayout
  exact ⟨hlayout, hlog ▸ hp.sound, hp.cursor_nonneg, hp.cursor_le, hp.stable_le,
    hlog ▸ hp.boundary, hlog ▸ hp.decided⟩

theorem grows_roll (hp : p.Shape) : Grows p (p.roll mtime) := by
  have hlog := log_roll p mtime
  unfold roll at hlog ⊢
  split
  · exact ⟨⟨[], (append_nil _).symm, fun _ hs => nomatch hs⟩, le_rfl,
      ⟨[], (append_nil _).symm, fun _ hx => nomatch hx⟩, le_rfl,
      fun _ _ _ => Iff.rfl, rfl, rfl⟩
  next hne =>
  rw [if_neg hne] at hlog
  refine ⟨⟨[p.active], rfl, fun s hs => ?_⟩, hp.active_le,
    ⟨[], by simpa using hlog, fun _ hx => nomatch hx⟩, le_rfl,
    fun _ _ _ => Iff.rfl, rfl, rfl⟩
  rw [mem_singleton.1 hs]
  exact ⟨le_rfl, (hp.based _ p.active_mem).2⟩

end Kafgres.Compaction
