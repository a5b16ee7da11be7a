/-
The rewriting loop over the segments and the end of a plan.
-/
import Kafgres.Compaction.Proofs.Plan

namespace Kafgres.Compaction

open List

variable {B : Type} [Wire B] [DecidableEq B] {p p' p₀ : Partition B}
variable {keys : List B} {o : ℤ}

-- ==== what a pass keeps

/-- What holds of a partition between operations. -/
structure PartOk (keys : List B) (p : Partition B) : Prop where
  shape : p.Shape
  keysIn : KeysIn keys p
  clean : CleanBelow p p.compactCursor

/-- What holds of what a process remembers. -/
structure ProcOk (keys : List B) (p : Partition B) (st : Statics B) :
    Prop where
  known : KnownOk p st.undecodable
  behind : ∀ q, st.plan = some q → q.generation ≤ p.layoutGeneration
  plan : ∀ q, st.plan = some q → q.generation = p.layoutGeneration →
    PlanOk keys p q

/-- `p` is `p₀` with some of its segments swapped. -/
structure Since (p₀ p : Partition B) : Prop where
  same : p = p₀ ∨ p₀.layoutGeneration < p.layoutGeneration
  compactCursor : p.compactCursor = p₀.compactCursor
  txns : p.txns = p₀.txns
  bases : ∀ s ∈ p.closed, ∃ s₀ ∈ p₀.closed, s₀.base = s.base
  known : ∀ known, KnownOk p₀ known → KnownOk p known
  view : p.view = p₀.view

omit [Wire B] in
theorem Since.refl : Since p p :=
  ⟨Or.inl rfl, rfl, rfl, fun s hs => ⟨s, hs, rfl⟩, fun _ h => h, rfl⟩

/-- What the rewriting loop carries. -/
structure LoopOk (keys : List B) (p₀ : Partition B) (r : RewriteWork B) :
    Prop where
  part : PartOk keys r.part
  disposable : Disposable r.part
  dirty_le : r.plan.dirtyFrom ≤ r.part.compactCursor
  hashers : Collisionless keys r.plan.map.fingerprint
  mapped : r.plan.mappingAt = none
  fits : MapFits r.part r.plan.dirtyFrom r.plan.map
  swept : SweepOk r.part r.plan
  generation : r.plan.generation = r.part.layoutGeneration
  known : KnownOk r.part r.work.known
  since : Since p₀ r.part

omit [Wire B] [DecidableEq B] in
theorem CleanBelow.mono {o' : ℤ} (h : CleanBelow p o') (hle : o ≤ o') : CleanBelow p o :=
  fun b hb hlive hk e he hkey hv ho =>
    h b hb hlive hk e he hkey hv (ho.trans_le hle)

variable {r r' : RewriteWork B} {st : Statics B} {c : Call B} {j : Judge} {rw : Rewrite B}
  {go : Bool} {q : CleanPlan B} {segs : List (Segment B)}

/-- A plan that stops in the middle of rewriting can be kept. -/
theorem LoopOk.planOk (h : LoopOk keys p₀ r)
    (hrw : ∀ rw, r.plan.rewriting = some rw → RewriteOk r.part r.plan rw) :
    PlanOk keys r.part r.plan := by
  refine ⟨h.dirty_le, h.hashers, fun at_ hat => ?_, fun _ => h.fits, h.swept, hrw⟩
  simp [h.mapped] at hat

/-- A swap keeps what the loop carries. -/
theorem LoopOk.swapped {plan' : CleanPlan B} {w' : CleanWork} {n : ℕ} (h : LoopOk keys p₀ r)
    (hsw : Swapped r.part p' r.plan.map r.plan.dirtyFrom)
    (hgen : p'.layoutGeneration = r.part.layoutGeneration + 1) (hmap : plan'.map = r.plan.map)
    (hdirty : plan'.dirtyFrom = r.plan.dirtyFrom) (hat : plan'.mappingAt = none)
    (hgen' : plan'.generation = p'.layoutGeneration) (hswept : SweepOk p' plan')
    (hbases : ∀ s ∈ p'.closed, ∃ s₀ ∈ r.part.closed, s₀.base = s.base)
    (hknown : KnownOk r.part w'.known) : LoopOk keys p₀ ⟨p', plan', w', n⟩ := by
  have hp := h.part.shape
  have hclean := h.part.clean.mono h.dirty_le
  have hthin : Thinned r.part p' := hsw.thinned hp h.fits h.part.keysIn h.hashers hclean
  refine ⟨⟨hthin.shape hp, hthin.keysIn hp h.part.keysIn, ?_⟩,
    hthin.disposable hp h.disposable, ?_, ?_, hat, ?_, hswept, hgen',
    hthin.knownOk hp hknown, ?_⟩
  · rw [hthin.compactCursor]
    exact hthin.cleanBelow hp h.part.clean
  · rw [hdirty, hthin.compactCursor]
    exact h.dirty_le
  · rw [hmap]
    exact h.hashers
  · rw [hmap, hdirty]
    exact hsw.fits hp h.fits h.part.keysIn h.hashers hclean
  · refine ⟨Or.inr ?_, ?_, ?_, fun s hs => ?_, fun known hk => ?_, ?_⟩
    · dsimp only
      rcases h.since.same with heq | hlt
      · rw [hgen, heq]
        omega
      · omega
    · exact hthin.compactCursor.trans h.since.compactCursor
    · exact hthin.txns.trans h.since.txns
    · obtain ⟨s₁, hs₁, hb₁⟩ := hbases s hs
      obtain ⟨s₀, hs₀, hb₀⟩ := h.since.bases s₁ hs₁
      exact ⟨s₀, hs₀, hb₀.trans hb₁⟩
    · exact hthin.knownOk hp (h.since.known known hk)
    · exact (hthin.view_eq hp).trans h.since.view

-- ==== the loop

/-- The plan the loop works on stays the same but for its progress. -/
structure SamePlan (q q' : CleanPlan B) : Prop where
  map : q'.map = q.map
  dirtyFrom : q'.dirtyFrom = q.dirtyFrom

omit [DecidableEq B] in
theorem sweepOk_next {p : Partition B} {q' : CleanPlan B}
    (h : SweepOk p q) (hrw : RewriteOk p q rw) (hmap : q'.map = q.map)
    (hab : q'.abandoned = q.abandoned) (hfrom : q'.rewriteFrom = rw.info.base + 1)
    (hseg : ∀ s ∈ p.closed, s.base = rw.info.base →
      ∀ b ∈ s.batches, SweptOr p q.map b) : SweepOk p q' := by
  intro hok s hs hlt b hb
  rw [hfrom] at hlt
  rw [hmap]
  rcases eq_or_ne s.base rw.info.base with heq | hne
  · exact hseg s hs heq b hb
  · exact h (hab ▸ hok) s hs (hrw.next s hs (by omega)) b hb

section

variable (h : LoopOk keys p₀ r) (hj : j.txns = p₀.txns) (hd : j.dirtyFrom = r.plan.dirtyFrom)
include h hj hd

/-- One turn of the loop. -/
theorem rewriteOne_ok (hrw : RewriteOk r.part r.plan rw)
    (hun : ∀ s ∈ p₀.closed, c.unlinkFails s.base = false) (hrun : rewriteOne c j rw r = (go, r')) :
    LoopOk keys p₀ r' ∧ SamePlan r.plan r'.plan ∧ (go = false → PlanOk keys r'.part r'.plan) ∧
      (go = true → r'.plan.rewriteFrom = rw.info.base + 1 ∧
        ∀ s ∈ r'.part.closed, ∃ s₁ ∈ r.part.closed, s₁.base = s.base) := by
  have hkeep : ∀ (w : CleanWork) (rw' : Rewrite B), KnownOk r.part w.known → LoopOk keys p₀
        { r with work := w, plan := { r.plan with rewriting := some rw' } } :=
    fun w rw' hk => { h with known := hk }
  unfold rewriteOne at hrun
  split at hrun
  · cases hrun
    have hloop := hkeep r.work rw h.known
    refine ⟨hloop, ⟨rfl, rfl⟩, fun _ => hloop.planOk ?_, nofun⟩
    intro rw' heq
    cases heq
    exact { hrw with }
  cases hstep : cleanStep c (j.forPlan r.plan) r.plan.map r.plan.generation r.part rw r.work with
  | mk w out =>
  rw [hstep] at hrun
  obtain ⟨hknown, hout⟩ := cleanStep_stepped (j := j.forPlan r.plan)
    h.part.shape h.fits (hj.trans h.since.txns.symm) hd h.known hrw
    (fun s hs => by
      obtain ⟨s₀, hs₀, hb⟩ := h.since.bases s hs
      exact hb ▸ hun s₀ hs₀) hstep
  cases out with
  | paused rw' =>
    cases hrun
    have hloop := hkeep w rw' hknown
    refine ⟨hloop, ⟨rfl, rfl⟩, fun _ => hloop.planOk ?_, nofun⟩
    intro rw₁ heq
    cases heq
    have hrw' := hout.2
    exact { hrw' with }
  | unchanged =>
    cases hrun
    refine ⟨{ h with swept := sweepOk_next h.swept hrw rfl rfl rfl hout, known
      := hknown }, ⟨rfl, rfl⟩, nofun, fun _ => ⟨rfl, ?_⟩⟩
    exact fun s hs => ⟨s, hs, rfl⟩
  | swapped n p' =>
    cases hrun
    obtain ⟨hsw, hgen, hsegs⟩ := hout
    have hbases : ∀ s ∈ p'.closed, ∃ s₁ ∈ r.part.closed, s₁.base = s.base := by
      intro s hs
      rcases hsegs s hs with ⟨hin, -⟩ | ⟨hb, -, s₁, hs₁, hb₁⟩
      · exact ⟨s, hin, rfl⟩
      · exact ⟨s₁, hs₁, hb₁.trans hb.symm⟩
    refine ⟨h.swapped hsw hgen rfl rfl h.mapped rfl ?_ hbases hknown,
      ⟨rfl, rfl⟩, nofun, fun _ => ⟨rfl, hbases⟩⟩
    intro hok s hs hlt b hb
    rcases hsegs s hs with ⟨hin, hne⟩ | ⟨-, hall, -⟩
    · have hlt : s.base < rw.info.base + 1 := hlt
      have := h.swept hok s hin (hrw.next s hin (by omega)) b hb
      unfold SweptOr at this ⊢
      rw [hsw.txns]
      exact this
    · exact hall b hb
  | abandoned | failed =>
    cases hrun
    refine ⟨{ h with swept := nofun, known := hknown }, ⟨rfl, rfl⟩, nofun, fun _ => ⟨rfl, ?_⟩⟩
    exact fun s hs => ⟨s, hs, rfl⟩

/-- The loop over a listing in base order that has every segment still
to be done. When it runs to the end, none is left. -/
theorem rewriteAll_ok (hun : ∀ s ∈ p₀.closed, c.unlinkFails s.base = false)
    (hord : segs.Pairwise (·.base < ·.base))
    (htodo : ∀ s ∈ r.part.closed, r.plan.rewriteFrom ≤ s.base →
      s.base ≤ r.plan.map.endOffset → ∃ x ∈ segs, x.base = s.base)
    (hrun : rewriteAll c j segs r = (go, r')) :
    LoopOk keys p₀ r' ∧ (go = false → PlanOk keys r'.part r'.plan) ∧
      (go = true → ∀ s ∈ r'.part.closed, s.base < r'.plan.rewriteFrom ∨
        r'.plan.map.endOffset < s.base) := by
  induction segs generalizing r with
  | nil =>
    cases hrun
    refine ⟨h, nofun, fun _ s hs => ?_⟩
    by_contra hno
    obtain ⟨x, hx, -⟩ := htodo s hs (by omega) (by omega)
    cases hx
  | cons s segs ih =>
    have hord' := (pairwise_cons.1 hord).2
    unfold rewriteAll at hrun
    split at hrun
    · next hguard =>
        -- everything before this segment is done
        have hrw : RewriteOk r.part r.plan (Rewrite.new s.info) := by
          refine ⟨hguard.2, fun x hx hlt => ?_, fun _ _ _ => Nat.zero_le _,
            fun _ _ _ _ b hb => ?_, nofun⟩
          · have hlt : x.base < s.base := hlt
            by_contra hno
            obtain ⟨y, hy, hyx⟩ := htodo x hx (by omega) (by omega)
            rcases mem_cons.1 hy with rfl | hy
            · omega
            · have := (pairwise_cons.1 hord).1 y hy
              omega
          · cases hb
        cases hone : rewriteOne c j (Rewrite.new s.info) r with
        | mk go₁ r₁ =>
        rw [hone] at hrun
        obtain ⟨h₁, hsame, hstop, hgo⟩ := rewriteOne_ok h hj hd hrw hun hone
        cases go₁ with
        | false =>
          cases hrun
          exact ⟨h₁, hstop, nofun⟩
        | true =>
          obtain ⟨hfrom, hbases⟩ := hgo rfl
          refine ih h₁ (hd.trans hsame.dirtyFrom.symm) hord' ?_ hrun
          intro x hx
          obtain ⟨x₁, hx₁, hxb⟩ := hbases x hx
          have hfrom : r₁.plan.rewriteFrom = s.base + 1 := hfrom
          rw [hfrom, hsame.map, ← hxb]
          intro hlo hhi
          obtain ⟨y, hy, hyx⟩ := htodo x₁ hx₁ (by omega) hhi
          rcases mem_cons.1 hy with rfl | hy
          · omega
          · exact ⟨y, hy, hyx⟩
    · next hguard =>
        refine ih h hd hord' (fun x hx hlo hhi => ?_) hrun
        obtain ⟨y, hy, hyx⟩ := htodo x hx hlo hhi
        rcases mem_cons.1 hy with rfl | hy
        · omega
        · exact ⟨y, hy, hyx⟩

/-- The rewriting half, from the rewrite the plan was left in. -/
theorem rewriteFrom_ok (hrw : ∀ rw, r.plan.rewriting = some rw → RewriteOk r.part r.plan rw)
    (hun : ∀ s ∈ p₀.closed, c.unlinkFails s.base = false) (hord : segs.Pairwise (·.base < ·.base))
    (hlist : ∀ s ∈ r.part.closed, s.base ≤ r.plan.map.endOffset → ∃ x ∈ segs, x.base = s.base)
    (hrun : rewriteFrom c j segs r = (go, r')) :
    LoopOk keys p₀ r' ∧ (go = false → PlanOk keys r'.part r'.plan) ∧
      (go = true → ∀ s ∈ r'.part.closed, s.base < r'.plan.rewriteFrom ∨
        r'.plan.map.endOffset < s.base) := by
  unfold rewriteFrom at hrun
  split at hrun
  · exact rewriteAll_ok h hj hd hun hord (fun s hs _ => hlist s hs) hrun
  next rw hsome =>
  cases hone : rewriteOne c j rw r with
  | mk go₁ r₁ =>
  rw [hone] at hrun
  obtain ⟨h₁, hsame, hstop, hgo⟩ := rewriteOne_ok h hj hd (hrw rw hsome) hun hone
  cases go₁ with
  | false =>
    cases hrun
    exact ⟨h₁, hstop, nofun⟩
  | true =>
    obtain ⟨-, hbases⟩ := hgo rfl
    refine rewriteAll_ok h₁ hj (hd.trans hsame.dirtyFrom.symm) hun hord (fun x hx _ => ?_) hrun
    obtain ⟨x₁, hx₁, hxb⟩ := hbases x hx
    rw [hsame.map, ← hxb]
    exact hlist x₁ hx₁

end

-- ==== the plan's end

omit [Wire B] [DecidableEq B] in
theorem Partition.Shape.setCursor (h : p.Shape) (ho : 0 ≤ o) (hle : o ≤ p.lastStable)
    (hb : ∀ b ∈ p.log, b.baseOffset < o → b.lastOffset < o) :
    Partition.Shape { p with compactCursor := o } :=
  { h with cursor_nonneg := ho, cursor_le := hle, boundary := hb }

omit [DecidableEq B] in
/-- A plan made for the layout outlives a move of the cursor. -/
theorem PlanOk.setCursor (h : PlanOk keys p q) (ho : p.compactCursor ≤ o) :
    PlanOk keys { p with compactCursor := o } q := by
  refine ⟨h.dirty_le.trans ho, h.hashers, fun at_ hat => ?_, fun hat => ?_,
    h.swept, fun rw hrw => ?_⟩
  · obtain ⟨hmaps, hrest⟩ := h.mapping at_ hat
    refine ⟨?_, hrest⟩
    obtain ⟨before, s, after, hsplit, hbase, hpos, hm⟩ := hmaps
    exact ⟨before, s, after, hsplit, hbase, hpos, hm.map, hm.stable, hm.hashers⟩
  · have hm := h.fits hat
    exact { hm with }
  · have := h.rewriting rw hrw
    exact { this with }

/-- With every segment under the map's end swept, tombstones under the
map's end hide nothing. -/
theorem LoopOk.cleanBelow (h : LoopOk keys p₀ r) (hab : r.plan.abandoned = false)
    (hall : ∀ s ∈ r.part.closed, s.base < r.plan.rewriteFrom ∨ r.plan.map.endOffset < s.base) :
    CleanBelow r.part (r.plan.map.endOffset + 1) := by
  intro b hb hlive hk e he hkey hv ho
  have hp := h.part.shape
  have hclean := h.part.clean.mono h.dirty_le
  rcases lt_or_ge e.offset r.plan.dirtyFrom with hlt | hge
  · exact hclean b hb hlive hk e he hkey hv hlt
  refine ⟨hv, fun e' he' hkey' hlt => ?_⟩
  obtain ⟨k, hek⟩ := Option.isSome_iff_exists.1 hkey
  have hsup : r.plan.map.superseded k e'.offset = true := superseded_of_reaches
      (h.fits.complete b hb hlive hk e he k hek hge (by omega)) hlt
  obtain ⟨b', hb', hlive', hin⟩ := Partition.mem_table.1 he'
  have hmem := (hp.sound b' hb').entry_mem hin
  have hinactive := h.fits.inactive
  -- the value lies in a sealed segment the loop is done with
  obtain ⟨s, hs, hbs⟩ := hp.closed_of_lt_active hb' (by omega)
  have hbase := (hp.based s (mem_append_left _ hs)).2 b' hbs
  have hdone := (hall s hs).resolve_right (by omega)
  rcases h.swept hab s hs hdone b' hbs hlive' (by omega) with hu | hswept
  · by_contra hsome
    refine h.disposable b' hb' hlive' hu e' hin (hkey' ▸ hkey)
      (Option.isSome_iff_ne_none.2 hsome) ?_
    exact ⟨b, hb, hlive, hk, e, he, hkey'.symm, hv, hlt⟩
  · have := hswept e' hin k (hkey'.trans hek) (by omega)
    simp [this] at hsup

/-- What a pass leaves behind. -/
structure PassOk (keys : List B) (p p' : Partition B) (st' : Statics B) :
    Prop where
  part : PartOk keys p'
  proc : ProcOk keys p' st'
  others : ∀ st, ProcOk keys p st → ProcOk keys p' st
  view : p'.view = p.view

theorem ProcOk.since (h : ProcOk keys p₀ st) (hs : Since p₀ p) : ProcOk keys p st := by
  have hle : p₀.layoutGeneration ≤ p.layoutGeneration := by
    rcases hs.same with rfl | hlt
    · exact le_rfl
    · exact hlt.le
  refine ⟨hs.known _ h.known, fun q hq => (h.behind q hq).trans hle, fun q hq hgen => ?_⟩
  have hold := h.behind q hq
  rcases hs.same with rfl | hlt
  · exact h.plan q hq hgen
  · omega

omit [DecidableEq B] in
theorem ProcOk.setCursor (h : ProcOk keys p st) (ho : p.compactCursor ≤ o) :
    ProcOk keys { p with compactCursor := o } st :=
  ⟨h.known, h.behind, fun q hq hgen => (h.plan q hq hgen).setCursor ho⟩

/-- A plan that ran to its end. -/
theorem finish_ok {st' : Statics B} (h : LoopOk keys p₀ r)
    (hall : ∀ s ∈ r.part.closed, s.base < r.plan.rewriteFrom ∨ r.plan.map.endOffset < s.base)
    (hst : st.plan = none) (hknown : KnownOk r.part st.undecodable)
    (hrun : finish c r.plan r.part st = (p', st')) : PassOk keys p₀ p' st' := by
  have hp := h.part.shape
  have hproc : ProcOk keys r.part st :=
    ⟨hknown, fun q hq => by simp [hst] at hq, fun q hq => by simp [hst] at hq⟩
  have hstay : PassOk keys p₀ r.part st :=
    ⟨h.part, hproc, fun st hst => hst.since h.since, h.since.view⟩
  unfold finish at hrun
  split at hrun
  · cases hrun
    exact hstay
  next hok =>
  split at hrun
  · next hcur =>
      cases hrun
      have hab : r.plan.abandoned = false := Bool.eq_false_iff.2 fun ha => hok (Or.inl ha)
      have hnext : ¬ r.part.compactCursor > r.part.nextOffset := by
        have := hp.cursor_le
        have := hp.stable_le
        omega
      have hgrow : r.part.compactCursor ≤ r.plan.map.endOffset + 1 := by
        rcases h.fits.dirty with hneg | hd <;> omega
      have hstable := h.fits.stable
      have hproc := hproc.setCursor hgrow
      refine ⟨⟨hp.setCursor (by omega) (by omega) fun b hb hlt => ?_,
        h.part.keysIn, h.cleanBelow hab hall⟩,
        { hproc with },
        fun st hst => (hst.since h.since).setCursor hgrow, h.since.view⟩
      have := h.fits.boundary b hb (by omega)
      omega
  · cases hrun
    exact hstay

end Kafgres.Compaction
