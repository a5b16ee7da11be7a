/-
A plan from pass to pass.
-/
import Kafgres.Compaction.Proofs.Rewrite

namespace Kafgres.Compaction

open Rewriting List

variable {B : Type} [Wire B] {p p' p₀ : Partition B} {keys : List B}

-- ==== the swap

variable {m : OffsetMap B} {d : ℤ} {c : Call B} {written : List (Batch B)}

/-- The swap puts the finished copy in the place of the segment it was
made from. -/
theorem swapSegment_swapped {info : SegInfo} {generation : ℕ} (hp : p.Shape)
    (hun : c.unlinkFails info.base = false)
    (hcopy : ∀ s ∈ p.closed, s.base = info.base → Rewrites (Judged p.txns m d) s.batches written)
    (h : swapSegment c p info written generation = .ok (some p')) :
    Swapped p p' m d ∧ p'.layoutGeneration = p.layoutGeneration + 1 ∧
      ∀ s ∈ p'.closed, (s ∈ p.closed ∧ s.base ≠ info.base) ∨
        (s.base = info.base ∧ s.batches = written ∧ ∃ s₀ ∈ p.closed, s₀.base = info.base) := by
  obtain ⟨hsw, hgen⟩ := swapSegment_replaced (R := Reduced p.txns m d)
    (fun b hb => Reduced.refl (hp.sound b hb))
    (fun s hs hbase => (hcopy s hs hbase).mono fun _ _ _ hj => hj.toReduced)
    h
  obtain ⟨-, hact, ⟨s, hopen⟩, ⟨-, hfail, -⟩ | ⟨new, hnew, rfl⟩⟩ := swapSegment_cases h
  · simp [hun] at hfail
  obtain ⟨hs, hbase⟩ := hp.openSegment_eq.1 hopen
  have hs : s ∈ p.closed := by
    refine (mem_append.1 hs).resolve_right fun hin => hact ?_
    rw [← mem_singleton.1 hin, hbase]
  refine ⟨⟨hsw.closed, rfl, rfl, rfl, rfl, rfl⟩, hgen, fun x hx => ?_⟩
  refine (mem_replaceSegment hx).imp id fun hin => ?_
  obtain rfl := hin
  exact ⟨hnew.1, hnew.2, s, hs, hbase⟩

-- ==== the plan kept

/-- A rewrite left off between two batches: what the scan went over
loses nothing, or what the copy wrote is judged. -/
structure RewriteOk (p : Partition B) (q : CleanPlan B) (rw : Rewrite B) :
    Prop where
  under : rw.info.base ≤ q.map.endOffset
  next : ∀ s ∈ p.closed, s.base < rw.info.base → s.base < q.rewriteFrom
  pos_le : ∀ s ∈ p.closed, s.base = rw.info.base →
    rw.pos ≤ s.batches.length
  scanned : rw.writing = false → ∀ s ∈ p.closed, s.base = rw.info.base →
    ∀ b ∈ s.batches.take rw.pos, SweptOr p q.map b
  copied : rw.writing = true → ∀ s ∈ p.closed, s.base = rw.info.base →
    Rewrites (Judged p.txns q.map q.dirtyFrom) (s.batches.take rw.pos) rw.written

/-- The segments the plan is done with are swept. -/
def SweepOk (p : Partition B) (q : CleanPlan B) : Prop :=
  q.abandoned = false → ∀ s ∈ p.closed, s.base < q.rewriteFrom → ∀ b ∈ s.batches, SweptOr p q.map b

/-- A plan made for the partition's layout. -/
structure PlanOk (keys : List B) (p : Partition B) (q : CleanPlan B) :
    Prop where
  dirty_le : q.dirtyFrom ≤ p.compactCursor
  hashers : Collisionless keys q.map.fingerprint
  mapping : ∀ at_, q.mappingAt = some at_ →
    MapsTo p q.dirtyFrom q.map.fingerprint q.map (some at_) ∧
      q.rewriting = none ∧ q.rewriteFrom = minOffset ∧
      ∀ b ∈ p.log, b.baseOffset < q.dirtyFrom → b.lastOffset < q.dirtyFrom
  fits : q.mappingAt = none → MapFits p q.dirtyFrom q.map
  swept : SweepOk p q
  rewriting : ∀ rw, q.rewriting = some rw → RewriteOk p q rw

-- ==== one clean step

/-- What one call of `clean_step` comes to. -/
def Stepped (p : Partition B) (q : CleanPlan B) (rw : Rewrite B) : Cleaned B → Prop
  | .paused rw' => rw'.info = rw.info ∧ RewriteOk p q rw'
  | .unchanged => ∀ s ∈ p.closed, s.base = rw.info.base → ∀ b ∈ s.batches, SweptOr p q.map b
  | .swapped _ p' => Swapped p p' q.map q.dirtyFrom ∧ p'.layoutGeneration = p.layoutGeneration + 1 ∧
      ∀ s ∈ p'.closed, (s ∈ p.closed ∧ s.base ≠ rw.info.base) ∨
        (s.base = rw.info.base ∧ (∀ b ∈ s.batches, SweptOr p' q.map b) ∧
          ∃ s₀ ∈ p.closed, s₀.base = rw.info.base)
  | .abandoned | .failed _ => True

variable {q : CleanPlan B} {rw : Rewrite B} {j : Judge} {w w' : CleanWork}
variable {out : Cleaned B} {s : Segment B}

omit [Wire B] in
theorem mem_log_of_closed {b : Batch B} (hs : s ∈ p.closed) (hb : b ∈ s.batches) : b ∈ p.log :=
  Partition.mem_log.2 ⟨s, mem_append_left _ hs, hb⟩

omit [Wire B] in
theorem Partition.Shape.only (hp : p.Shape) (hs : s ∈ p.closed) (hbase : s.base = rw.info.base) :
    ∀ x ∈ p.closed, x.base = rw.info.base → x = s :=
  fun _ hx hxb => hp.segment_eq (mem_append_left _ hx) (mem_append_left _ hs)
    (hxb.trans hbase.symm)

/-- What is written for a segment is swept as a whole. -/
theorem rewrites_sweptOr {bs : List (Batch B)} (hp : p.Shape)
    (hm : MapFits p d m) (hbs : ∀ b ∈ bs, b ∈ p.log)
    (h : Rewrites (Judged p.txns m d) bs written) {b' : Batch B}
    (hb' : b' ∈ written) : SweptOr p m b' := by
  intro hlive hle
  obtain ⟨b, hb, out, hj, hin⟩ := h.source hb'
  have hw := hj.thin.within b' hin
  have hdec := hp.decided b (hbs b hb) (hm.lt_stable (hbs b hb) (hw.1.trans hle))
  have hiff := hj.thin.live_iff (hp.sound b (hbs b hb)) (Or.inr hdec) hin
  exact hj.swept (hiff.1 hlive) b' hin hle

/-- The writing half of a step. -/
theorem copyStep_stepped (hp : p.Shape) (hm : MapFits p q.dirtyFrom q.map) (hj : j.txns = p.txns)
    (hd : j.dirtyFrom = q.dirtyFrom) (hknown : KnownOk p w.known)
    (hrw : RewriteOk p q rw) (hwr : rw.writing = true) (hs : s ∈ p.closed)
    (hbase : s.base = rw.info.base) (hun : c.unlinkFails rw.info.base = false)
    (h : copyStep c j q.map q.generation p s rw w = (w', out)) :
    KnownOk p w'.known ∧ Stepped p q rw out := by
  have hmem : ∀ b ∈ s.batches, b ∈ p.log := fun b hb => mem_log_of_closed hs hb
  have honly := hp.only hs hbase
  obtain ⟨hknown', hout⟩ := copyStep_cases (K := KnownOk p)
    (fun b hb _ _ _ hk => judgeBatch_ok hp hm hj hd hk (hmem b hb)) hknown
    (hrw.pos_le s hs hbase) (hrw.copied hwr s hs hbase) h
  refine ⟨hknown', ?_⟩
  cases out with
  | paused rw' =>
    obtain ⟨hinfo, hwr', hpos, hcopied⟩ := hout
    refine ⟨hinfo, hinfo ▸ hrw.under, hinfo ▸ hrw.next, fun x hx hxb => ?_, fun hf => ?_,
      fun _ x hx hxb => ?_⟩
    · rwa [honly x hx (hinfo ▸ hxb)]
    · simp [hwr', hwr] at hf
    · rwa [honly x hx (hinfo ▸ hxb)]
  | unchanged => exact hout.elim
  | swapped n p' =>
    obtain ⟨written, hcopied, hswap⟩ := hout
    obtain ⟨hsw, hgen, hsegs⟩ := swapSegment_swapped hp hun
      (fun x hx hxb => honly x hx hxb ▸ hcopied) hswap
    refine ⟨hsw, hgen, fun x hx => (hsegs x hx).imp id ?_⟩
    rintro ⟨hxb, hbs, hex⟩
    refine ⟨hxb, fun b hb => ?_, hex⟩
    have hswept := rewrites_sweptOr hp hm hmem hcopied (hbs ▸ hb)
    unfold SweptOr
    rw [hsw.txns]
    exact hswept
  | abandoned | failed => trivial

/-- A step of the rewrite, from where it was left. -/
theorem cleanStep_stepped (hp : p.Shape) (hm : MapFits p q.dirtyFrom q.map) (hj : j.txns = p.txns)
    (hd : j.dirtyFrom = q.dirtyFrom) (hknown : KnownOk p w.known) (hrw : RewriteOk p q rw)
    (hun : ∀ s ∈ p.closed, c.unlinkFails s.base = false)
    (h : cleanStep c j q.map q.generation p rw w = (w', out)) :
    KnownOk p w'.known ∧ Stepped p q rw out := by
  have hclosed : ∀ s, p.openSegment rw.info.base = some s →
      s ∈ p.closed ∧ s.base = rw.info.base := by
    intro s hs
    obtain ⟨hs, hbase⟩ := hp.openSegment_eq.1 hs
    refine ⟨(mem_append.1 hs).resolve_right fun hin => ?_, hbase⟩
    rw [mem_singleton.1 hin] at hbase
    have := hrw.under
    have := hm.inactive
    omega
  unfold cleanStep at h
  split at h
  · next hnone =>
      cases h
      refine ⟨hknown, fun s hs hbase => ?_⟩
      have := hp.openSegment_eq.2 ⟨mem_append_left _ hs, hbase⟩
      simp [hnone] at this
  next s hopen =>
  obtain ⟨hs, hbase⟩ := hclosed s hopen
  have hmem : ∀ b ∈ s.batches, b ∈ p.log := fun b hb => mem_log_of_closed hs hb
  have honly := hp.only hs hbase
  have hun' : c.unlinkFails rw.info.base = false := hbase ▸ hun s hs
  cases hwr : rw.writing with
  | true =>
    rw [hwr, if_pos rfl] at h
    exact copyStep_stepped hp hm hj hd hknown hrw hwr hs hbase hun' h
  | false =>
    rw [hwr, if_neg (by simp)] at h
    have hord : (s.batches.drop rw.pos).Pairwise (·.lastOffset < ·.baseOffset) := by
      have hsub : s.batches.Sublist p.log := by
        unfold Partition.log
        rw [flatMap_def]
        exact sublist_flatten_of_mem (mem_map_of_mem (mem_append_left _ hs))
      exact (hp.ordered.sublist hsub).drop
    cases hscan : scan c j q.map (s.batches.drop rw.pos) rw.pos w with
    | mk w₁ scanned =>
    rw [hscan] at h
    obtain ⟨hknown₁, hpause, hunch⟩ := scan_swept hp hm hj hd hknown
      (fun b hb => hmem b (mem_of_mem_drop hb)) hord hscan
    have hbefore := hrw.scanned hwr s hs hbase
    cases scanned with
    | paused pos =>
      cases h
      obtain ⟨n, hn, hpos, hall⟩ := hpause pos rfl
      have hple := hrw.pos_le s hs hbase
      rw [length_drop] at hn
      refine ⟨hknown₁, rfl, hrw.under, hrw.next, ?_, ?_, ?_⟩
      · intro x hx hxb
        rw [honly x hx hxb]
        dsimp only
        omega
      · intro _ x hx hxb b hb
        rw [honly x hx hxb] at hb
        rw [hpos, take_add] at hb
        rcases mem_append.1 hb with hb | hb
        · exact hbefore b hb
        · exact hall b hb
      · exact nofun
    | unchanged =>
      cases h
      refine ⟨hknown₁, fun x hx hxb b hb => ?_⟩
      rw [honly x hx hxb, ← take_append_drop rw.pos s.batches] at hb
      rcases mem_append.1 hb with hb | hb
      · exact hbefore b hb
      · exact hunch rfl b hb
    | failed e =>
      cases h
      exact ⟨hknown₁, trivial⟩
    | found =>
      have hnew : RewriteOk p q { rw with writing := true, pos := 0, written := [] } := by
        refine ⟨hrw.under, hrw.next, fun _ _ _ => Nat.zero_le _, nofun, fun _ x _ _ => ?_⟩
        rw [take_zero]
        exact Rewrites.nil
      have := copyStep_stepped hp hm hj hd hknown₁ hnew rfl hs hbase hun' h
      exact this

end Kafgres.Compaction
