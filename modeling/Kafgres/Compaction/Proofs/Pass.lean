/-
A whole pass: the listing of the segments past the lag, the plan made or
taken up, the mapping half and the rewriting loop.
-/
import Kafgres.Compaction.Proofs.Loop

namespace Kafgres.Compaction

open List

variable {B : Type} [Wire B] [DecidableEq B] {p p' : Partition B}
variable {keys : List B} {st : Statics B} {c : Call B} {j : Judge}

-- ==== the listing

section listing

omit [Wire B] [DecidableEq B]

theorem Partition.zip_fst (p : Partition B) :
    (p.closed.zip (p.segments.tail.map (·.base))).map (·.1) = p.closed := by
  refine map_fst_zip ?_
  simp [Partition.segments]

/-- The listing is the sealed segments up to the first one within the
lag. -/
theorem cleanable_split (p : Partition B) (cutoff : ℤ) :
    ∃ after, p.closed = (p.cleanable cutoff).map (·.1) ++ after ∧
      ∀ a ∈ after.head?, cutoff < a.mtime := by
  let zipped := p.closed.zip (p.segments.tail.map (·.base))
  let old : Segment B × ℤ → Bool := fun s => decide (s.1.mtime ≤ cutoff)
  refine ⟨(zipped.dropWhile old).map (·.1), ?_, ?_⟩
  · have hsplit := takeWhile_append_dropWhile (p := old) (l := zipped)
    calc p.closed = zipped.map (·.1) := p.zip_fst.symm
      _ = (zipped.takeWhile old ++ zipped.dropWhile old).map (·.1) := by
          rw [hsplit]
      _ = _ := map_append
  · intro a ha
    rw [head?_map] at ha
    obtain ⟨x, hx, rfl⟩ := Option.mem_map.1 ha
    have := head?_dropWhile_not old zipped
    rw [Option.mem_def.1 hx] at this
    simpa [old] using this

/-- The offset listed with a segment is above all its batches. -/
theorem cleanable_next (hp : p.Shape) {cutoff : ℤ} {s : Segment B} {n : ℤ}
    (h : (s, n) ∈ p.cleanable cutoff) : ∀ b ∈ s.batches, b.lastOffset < n := by
  have hmem := (takeWhile_sublist _).subset h
  obtain ⟨i, hi, heq⟩ := mem_iff_getElem.1 hmem
  have hlen : i + 1 < p.segments.length := by
    simp [Partition.segments] at hi ⊢
    omega
  have hclosed : i < p.closed.length := by
    simp [Partition.segments] at hi
    exact hi
  rw [getElem_zip, Prod.mk.injEq] at heq
  obtain ⟨hs, hn⟩ := heq
  rw [getElem_map, getElem_tail] at hn
  have hs : p.segments[i] = s := by
    rw [← hs]
    exact getElem_append_left hclosed
  have := (pairwise_iff_getElem.1 hp.placed i (i + 1) (by omega) hlen (by omega)).2
  rw [hs, hn] at this
  exact this

end listing

-- ==== the plan made

variable {q q' : CleanPlan B} {cutoff : ℤ}

omit [DecidableEq B] in
/-- A new plan starts at the first listed segment that reaches into the
dirty section. -/
theorem freshPlan_ok {s : Segment B × ℤ} (hp : p.Shape) (hfp : Collisionless keys c.hashers)
    (hfind : (p.cleanable cutoff).find? (fun s => decide (p.compactCursor < s.2)) = some s) :
    PlanOk keys p
      { map := OffsetMap.new c.hashers
        dirtyFrom := p.compactCursor
        mappingAt := some (s.1.base, 0)
        rewriteFrom := minOffset
        rewriting := none
        generation := p.layoutGeneration
        abandoned := false } := by
  have hneg : OffsetMap.endOffset (OffsetMap.new c.hashers) = -1 := rfl
  refine ⟨le_rfl, hfp, fun at_ hat => ?_, nofun,
    fun _ x hx hlt => ?_, nofun⟩
  · cases hat
    refine ⟨?_, rfl, rfl, hp.boundary⟩
    obtain ⟨-, before, after, hlist, hclean⟩ :=
      find?_eq_some_iff_append.1 hfind
    obtain ⟨rest, hclosed, -⟩ := cleanable_split p cutoff
    refine ⟨before.map (·.1), s.1, after.map (·.1) ++ rest, ?_, rfl,
      Nat.zero_le _, MapOf.new fun b hb => ?_, ?_, rfl⟩
    · rw [hclosed, hlist]
      simp
    · rw [take_zero, append_nil] at hb
      obtain ⟨x, hx, hbx⟩ := mem_flatMap.1 hb
      obtain ⟨y, hy, rfl⟩ := mem_map.1 hx
      have hyn := cleanable_next (s := y.1) (n := y.2) hp (hlist ▸ mem_append_left _ hy) b hbx
      have := hclean y hy
      simp only [Bool.not_eq_true', decide_eq_false_iff_not] at this
      exact lt_of_lt_of_le hyn (not_lt.1 this)
    · rw [hneg]
      have := hp.cursor_nonneg
      have := hp.cursor_le
      omega
  · have := (hp.based x (mem_append_left _ hx)).1
    have hlt : x.base < -2 ^ 63 := hlt
    omega

omit [DecidableEq B] in
/-- The plan a pass works on is one for the layout, and its map ends
within the listing. -/
theorem planFor_ok (hp : p.Shape) (hst : ProcOk keys p st) (hfp : Collisionless keys c.hashers)
    (hlag : ∀ q, st.plan = some q → q.generation = p.layoutGeneration →
      ∀ s ∈ p.closed, s.base ≤ q.map.endOffset → s.mtime ≤ cutoff)
    (h : planFor c p st (p.cleanable cutoff) = some q) :
    PlanOk keys p q ∧ q.generation = p.layoutGeneration ∧
      ∀ s ∈ p.closed, s.base ≤ q.map.endOffset → s.mtime ≤ cutoff := by
  have hcur : ¬ p.compactCursor > p.nextOffset := by
    have := hp.cursor_le
    have := hp.stable_le
    omega
  have hfresh : ∀ {clean dirty : ℕ}, dirty = (((p.cleanable cutoff).filter fun s =>
        decide (p.compactCursor < s.2)).map (·.1.bytes)).sum →
      (if dirty = 0 ∨ dirty < clean ∨ !c.budgetLeft ∨ !c.planSlot then none
        else some
          { map := OffsetMap.new c.hashers
            dirtyFrom := p.compactCursor
            mappingAt := ((p.cleanable cutoff).find? fun s =>
              decide (p.compactCursor < s.2)).map fun s => (s.1.base, 0)
            rewriteFrom := minOffset
            rewriting := none
            generation := p.layoutGeneration
            abandoned := false }) = some q →
      PlanOk keys p q ∧ q.generation = p.layoutGeneration ∧
        ∀ s ∈ p.closed, s.base ≤ q.map.endOffset → s.mtime ≤ cutoff := by
    intro clean dirty hdirty hq
    split at hq
    · cases hq
    next hgo =>
    cases hq
    cases hfind : (p.cleanable cutoff).find? fun s =>
        decide (p.compactCursor < s.2) with
    | none =>
      -- nothing reaches into the dirty section, so it has no bytes
      refine absurd (Or.inl ?_) hgo
      rw [hdirty, filter_eq_nil_iff.2 (find?_eq_none.1 hfind)]
      rfl
    | some s =>
      refine ⟨freshPlan_ok hp hfp hfind, rfl, fun x hx hle => ?_⟩
      have := (hp.based x (mem_append_left _ hx)).1
      have hle : x.base ≤ -1 := hle
      omega
  unfold planFor at h
  rw [if_neg hcur] at h
  split at h
  · next q₀ hq₀ =>
      split at h
      · next hgen =>
          cases h
          exact ⟨hst.plan q hq₀ hgen, hgen, hlag q hq₀ hgen⟩
      · exact hfresh rfl h
  · exact hfresh rfl h

omit [Wire B] [DecidableEq B] in
theorem MapsTo.hashers {m : OffsetMap B} {d : ℤ} {fp : B → BitVec 128}
    {resume : Option (ℤ × ℕ)} (h : MapsTo p d fp m resume) : m.fingerprint = fp := by
  cases resume with
  | none =>
    obtain ⟨pre, post, -, hm⟩ := h
    exact hm.hashers
  | some at_ =>
    obtain ⟨before, s, after, -, -, -, hm⟩ := h
    exact hm.hashers

omit [DecidableEq B] in
/-- The mapping half keeps the plan, and its map ends within the
listing. -/
theorem mapPlan_ok {w : CleanWork} {known : List (ℤ × ℕ)}
    {res : Except StoreError (CleanPlan B)} (hp : p.Shape)
    (hj : j.txns = p.txns) (hd : j.dirtyFrom = q.dirtyFrom)
    (hq : PlanOk keys p q) (hknown : KnownOk p known)
    (hlag : ∀ s ∈ p.closed, s.base ≤ q.map.endOffset → s.mtime ≤ cutoff)
    (h : mapPlan c j p ((p.cleanable cutoff).map (·.1)) q known = (w, res)) :
    KnownOk p w.known ∧ ∀ q', res = .ok q' → PlanOk keys p q' ∧ q'.generation = q.generation ∧
        q'.dirtyFrom = q.dirtyFrom ∧
        ∀ s ∈ p.closed, s.base ≤ q'.map.endOffset →
          ∃ x ∈ (p.cleanable cutoff).map (·.1), x.base = s.base := by
  obtain ⟨after, hclosed, hhead⟩ := cleanable_split p cutoff
  have hplaced := (pairwise_append.1 hp.placed).1
  rw [hclosed] at hplaced
  obtain ⟨-, hafter, hcross⟩ := pairwise_append.1 hplaced
  -- a segment the lag holds back lies after the whole listing
  have hlisted : ∀ s ∈ p.closed, s.base ≤ q.map.endOffset →
      ∃ x ∈ (p.cleanable cutoff).map (·.1), x.base = s.base := by
    intro s hs hle
    refine (mem_append.1 (hclosed ▸ hs)).elim (fun hin => ⟨s, hin, rfl⟩) fun hin => ?_
    cases after with
    | nil => cases hin
    | cons a after =>
      have hyoung : cutoff < a.mtime := hhead a rfl
      have hale : a.base ≤ s.base := by
        rcases mem_cons.1 hin with rfl | hin
        · exact le_rfl
        · exact ((pairwise_cons.1 hafter).1 s hin).1.le
      have hamem : a ∈ p.closed := by
        rw [hclosed]
        exact mem_append_right _ mem_cons_self
      have := hlag a hamem (hale.trans hle)
      omega
  unfold mapPlan at h
  split at h
  · cases h
    refine ⟨hknown, fun q' hq' => ?_⟩
    cases hq'
    exact ⟨hq, rfl, rfl, hlisted⟩
  next at_ hat =>
  obtain ⟨hmaps, hrw, hfrom, hbound⟩ := hq.mapping at_ hat
  cases hrun : mapSegments c j p.lastStable at_ (((p.cleanable cutoff).map (·.1)).filter fun s =>
        decide (at_.1 ≤ s.base))
      ⟨q.map, c.budget, known, q.abandoned⟩ with
  | mk w₁ res₁ =>
  rw [hrun] at h
  obtain ⟨⟨hknown₁, hresume⟩, hends⟩ :=
    mapSegments_resumed hp hj hclosed (hd.symm ▸ hmaps) hknown hrun
  rw [hd] at hresume
  cases res₁ with
  | error e =>
    cases h
    exact ⟨hknown₁, fun q' hq' => nomatch hq'⟩
  | ok resume =>
    cases h
    refine ⟨hknown₁, fun q' hq' => ?_⟩
    cases hq'
    have hto := hresume resume rfl
    have hfp := hto.hashers
    refine ⟨⟨hq.dirty_le, ?_, fun at' hat' => ?_, fun hdone => ?_,
      fun _ x hx hlt => ?_, fun rw hsome => ?_⟩, rfl, rfl,
      fun s hs hle => ?_⟩
    · rw [hfp]
      exact hq.hashers
    · have hat' : resume = some at' := hat'
      rw [hfp]
      exact ⟨hat' ▸ hto, hrw, hfrom, hbound⟩
    · have hdone : resume = none := hdone
      exact Mapping.fits hp hbound (hdone ▸ hto)
    · have := (hp.based x (mem_append_left _ hx)).1
      rw [hfrom, minOffset] at hlt
      omega
    · have hsome : q.rewriting = some rw := hsome
      simp [hrw] at hsome
    · rcases hends s.base (hp.based s (mem_append_left _ hs)).1 hle with hle | ⟨x, hx, b, hb, hle⟩
      · exact hlisted s hs hle
      refine (mem_append.1 (hclosed ▸ hs)).elim (fun hin => ⟨s, hin, rfl⟩) fun hin => ?_
      have := (hcross x (mem_of_mem_filter hx) s hin).2 b hb
      omega

-- ==== the pass

/-- One pass, by any process, at any moment: readers see the table they
saw, and all that passes rely on still holds. -/
theorem compactPass_ok {st' : Statics B} {res : Except StoreError ℕ}
    (hp : PartOk keys p) (hst : ProcOk keys p st)
    (hdisp : Disposable p) (hfp : Collisionless keys c.hashers)
    (hlag : ∀ q, st.plan = some q → q.generation = p.layoutGeneration →
      ∀ s ∈ p.closed, s.base ≤ q.map.endOffset → s.mtime ≤ c.now - c.minCompactionLag)
    (hun : ∀ s ∈ p.closed, c.unlinkFails s.base = false)
    (h : compactPass c p st = (p', st', res)) : PassOk keys p p' st' := by
  have hidle : ∀ (plan : Option (CleanPlan B)) (known : List (ℤ × ℕ)), KnownOk p known →
      (∀ q, plan = some q → q.generation = p.layoutGeneration ∧ PlanOk keys p q) →
      PassOk keys p p { st with plan, undecodable := known } :=
    fun plan known hk hplan => ⟨hp, ⟨hk, fun q hq => (hplan q hq).1.le,
      fun q hq _ => (hplan q hq).2⟩, fun _ h => h, rfl⟩
  unfold compactPass at h
  dsimp only at h
  split at h
  · cases h
    exact ⟨hp, hst, fun _ h => h, rfl⟩
  split at h
  · cases h
    exact hidle none st.undecodable hst.known nofun
  next q hplan =>
  obtain ⟨hq, hgen, hwithin⟩ := planFor_ok hp.shape hst hfp hlag hplan
  split at h
  · next w e hmap =>
      cases h
      have hmapped := mapPlan_ok (j := ⟨p.txns, q.dirtyFrom, _, _, _⟩)
        hp.shape rfl rfl hq hst.known hwithin hmap
      exact hidle none w.known hmapped.1 nofun
  next w q' hmap =>
  obtain ⟨hknown, hok⟩ := mapPlan_ok
    (j := ⟨p.txns, q.dirtyFrom, _, _, _⟩) hp.shape rfl rfl hq hst.known
    hwithin hmap
  obtain ⟨hq', hgen', hdirty, hlisted⟩ := hok q' rfl
  split at h
  · cases h
    refine hidle (some q') w.known hknown fun q₁ hq₁ => ?_
    cases hq₁
    exact ⟨hgen'.trans hgen, hq'⟩
  next hdone =>
  have hdone : q'.mappingAt = none := by simpa using hdone
  have hloop : LoopOk keys p ⟨p, q', w, 0⟩ :=
    ⟨hp, hdisp, hq'.dirty_le, hq'.hashers, hdone, hq'.fits hdone, hq'.swept,
      hgen'.trans hgen, hknown, Since.refl⟩
  obtain ⟨after, hclosed, -⟩ := cleanable_split p (c.now - c.minCompactionLag)
  have hord : ((p.cleanable (c.now - c.minCompactionLag)).map
      (·.1)).Pairwise (·.base < ·.base) := by
    have := (pairwise_append.1 hp.shape.placed).1
    rw [hclosed] at this
    exact (pairwise_append.1 this).1.imp fun hlt => hlt.1
  split at h
  · next r hrun =>
      cases h
      obtain ⟨hr, hstop, -⟩ := rewriteFrom_ok hloop rfl hdirty.symm
        hq'.rewriting hun hord hlisted hrun
      refine ⟨hr.part, ⟨hr.known, fun q₁ hq₁ => ?_, fun q₁ hq₁ _ => ?_⟩,
        fun _ hst => hst.since hr.since, hr.since.view⟩
      · cases hq₁
        exact hr.generation.le
      · cases hq₁
        exact hstop rfl
  · next r hrun =>
      obtain ⟨hr, -, hall⟩ := rewriteFrom_ok hloop rfl hdirty.symm
        hq'.rewriting hun hord hlisted hrun
      cases hfin : finish c r.plan r.part { st with plan := none, undecodable := r.work.known } with
      | mk p₁ st₁ =>
      rw [hfin] at h
      cases h
      exact finish_ok hr (hall rfl) rfl hr.known hfin

end Kafgres.Compaction
