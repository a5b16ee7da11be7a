/-
What runs leave of a log, whatever is judged: what is written is part of
what was read.
-/
import Kafgres.Compaction.Proofs.Thin
import Kafgres.Compaction.Proofs.Swap

namespace Kafgres.Compaction

open Rewriting List Function

variable {B : Type} {p p' p₀ : Partition B} {b b' : Batch B}

-- ==== one batch

/-- What is left of a batch lies within it, and is numbered as it was. -/
structure Shrunk (b : Batch B) (out : List (Batch B)) : Prop
    extends Within b out where
  numbered : ∀ b' ∈ out, b'.Numbered

theorem Shrunk.refl (hb : b.Numbered) : Shrunk b [b] :=
  ⟨⟨le_rfl, forall_mem_singleton.2 ⟨le_rfl, hb.base_le_last, le_rfl⟩⟩, forall_mem_singleton.2 hb⟩

theorem Shrunk.gone : Shrunk b [] :=
  ⟨⟨Nat.zero_le _, fun _ hb' => nomatch hb'⟩, fun _ hb' => nomatch hb'⟩

section

variable [Wire B]

/-- A rebuilt batch lies within the one it was. -/
theorem Shrunk.rebuilt {keep : Record B → Bool} (hb : b.Numbered) :
    Shrunk b (rebuildBatch b ((b.records.filter keep).map b.keep)).toList := by
  cases hr : rebuildBatch b ((b.records.filter keep).map b.keep) with
  | none => exact Shrunk.gone
  | some b' =>
    have hnum := rebuildBatch_numbered hr hb.kept_sorted
    obtain ⟨⟨k₁, hk₁, hbase⟩, k₂, hk₂, hlast⟩ := rebuildBatch_extent hr
    have h₁ := hb.kept_mem hk₁
    have h₂ := hb.kept_mem hk₂
    have hle := hnum.base_le_last
    exact ⟨⟨le_rfl, forall_mem_singleton.2 (by omega)⟩, forall_mem_singleton.2 hnum⟩

variable {c : Call B} {j : Judge} {m : OffsetMap B} {w w' : CleanWork}

/-- Whatever the judge says of a batch. -/
theorem judgeBatch_shrunk {known known' : List (ℤ × ℕ)}
    {kept : Option (List (KeptRecord B))} (hb : b.Numbered)
    (h : judgeBatch j m known b = (known', .ok kept)) : Shrunk b (b.replaced kept) := by
  unfold judgeBatch at h
  split at h
  · cases h
    exact Shrunk.refl hb
  split at h
  · cases h
  · cases h
    exact Shrunk.gone
  cases h
  unfold cleanOrKeep
  split
  · exact Shrunk.refl hb
  split
  · next kept hclean =>
      cases kept with
      | none => exact Shrunk.refl hb
      | some kept =>
        obtain ⟨-, -, rfl⟩ := cleanBatch_some hclean
        exact Shrunk.rebuilt hb
  · exact Shrunk.refl hb

end

-- ==== the partition

/-- The log is laid out in order, and its batches are numbered. -/
structure Partition.Regular (p : Partition B) : Prop where
  layout : p.Layout
  numbered : ∀ b ∈ p.log, b.Numbered

/-- Every batch of `p'` lies within one of `p`, or was appended to `p`
since. -/
structure Descends (p p' : Partition B) : Prop where
  nextOffset : p.nextOffset ≤ p'.nextOffset
  source : ∀ b' ∈ p'.log, p.nextOffset ≤ b'.baseOffset ∨
    ∃ b ∈ p.log, b.baseOffset ≤ b'.baseOffset ∧ b'.lastOffset ≤ b.lastOffset

theorem Descends.refl : Descends p p := ⟨le_rfl, fun b' hb' => Or.inr ⟨b', hb', le_rfl, le_rfl⟩⟩

theorem Descends.trans {p'' : Partition B} (h : Descends p p')
    (h' : Descends p' p'') : Descends p p'' := by
  refine ⟨h.nextOffset.trans h'.nextOffset, fun x hx => ?_⟩
  rcases h'.source x hx with hnew | ⟨y, hy, hlo, hhi⟩
  · exact Or.inl (h.nextOffset.trans hnew)
  rcases h.source y hy with hnew | ⟨z, hz, hlo', hhi'⟩
  · exact Or.inl (hnew.trans hlo)
  · exact Or.inr ⟨z, hz, hlo'.trans hlo, hhi.trans hhi'⟩

/-- Batches replaced by parts of themselves descend from the log. -/
theorem Replaced.shrunk (hp : p.Regular) (h : Replaced Shrunk p p') :
    p'.Regular ∧ Descends p p' := by
  have hrefl : ∀ b ∈ p.log, Shrunk b [b] := fun b hb =>
    Shrunk.refl (hp.numbered b hb)
  have hsource := fun b' hb' => (h.log hrefl).source (x := b') hb'
  refine ⟨⟨h.layout hp.layout hrefl fun b out hR => hR.toWithin,
    fun b' hb' => ?_⟩, h.nextOffset.ge, fun b' hb' => Or.inr ?_⟩
  · obtain ⟨b, -, out, hR, hin⟩ := hsource b' hb'
    exact hR.numbered b' hin
  · obtain ⟨b, hb, out, hR, hin⟩ := hsource b' hb'
    have hw := hR.within b' hin
    exact ⟨b, hb, hw.1, hw.2.2⟩

/-- A swap changes the layout's generation. -/
structure Swaps (p p' : Partition B) : Prop where
  replaced : Replaced Shrunk p p'
  generation : p'.layoutGeneration = p.layoutGeneration + 1

-- ==== a copy in progress

/-- What a copy has written so far is what is left of the segment's
batches before its position. -/
def Copying (p : Partition B) (rw : Rewrite B) : Prop :=
  rw.writing = true → ∃ s ∈ p.segments, s.base = rw.info.base ∧ rw.pos ≤ s.batches.length ∧
    Rewrites Shrunk (s.batches.take rw.pos) rw.written

/-- The plan a process keeps is of an older layout, or its copy can go
on. -/
def Resumable (p : Partition B) (st : Statics B) : Prop :=
  ∀ q, st.plan = some q → q.generation ≤ p.layoutGeneration ∧ (q.generation = p.layoutGeneration →
      ∀ rw, q.rewriting = some rw → Copying p rw)

variable {st : Statics B} {mtime : ℤ}

theorem Resumable.none (h : st.plan = none) : Resumable p st := by
  intro q hq
  simp [h] at hq

/-- A log that grew: every segment is still there, with what it had. -/
structure Extends (p p' : Partition B) : Prop where
  segments : ∀ s ∈ p.segments, ∃ s' ∈ p'.segments, s'.base = s.base ∧
    s.batches <+: s'.batches
  generation : p'.layoutGeneration = p.layoutGeneration

theorem Extends.copying {rw : Rewrite B} (h : Extends p p')
    (hrw : Copying p rw) : Copying p' rw := by
  intro hwr
  obtain ⟨s, hs, hbase, hpos, hdone⟩ := hrw hwr
  obtain ⟨s', hs', hbase', hpre⟩ := h.segments s hs
  obtain ⟨more, hmore⟩ := hpre
  refine ⟨s', hs', hbase'.trans hbase, ?_, ?_⟩
  · rw [← hmore, length_append]
    omega
  · rw [← hmore, take_append_of_le_length hpos]
    exact hdone

/-- A copy can go on after the log grew. -/
theorem Extends.resumable (h : Extends p p') (hst : Resumable p st) : Resumable p' st := by
  intro q hq
  obtain ⟨hle, hrw⟩ := hst q hq
  rw [h.generation]
  exact ⟨hle, fun hgen rw hsome => h.copying (hrw hgen rw hsome)⟩

theorem extends_append : Extends p (p.append b mtime) := by
  refine ⟨fun s hs => ?_, rfl⟩
  rcases mem_append.1 hs with hs | hs
  · exact ⟨s, mem_append_left _ hs, rfl, prefix_rfl⟩
  refine ⟨_, (p.append b mtime).active_mem, ?_, ?_⟩
  · rw [mem_singleton.1 hs]
    rfl
  · rw [mem_singleton.1 hs]
    exact prefix_append _ _

theorem extends_roll : Extends p (p.roll mtime) := by
  unfold Partition.roll
  split
  · exact ⟨fun s hs => ⟨s, hs, rfl, prefix_rfl⟩, rfl⟩
  · exact ⟨fun s hs => ⟨s, mem_append_left _ hs, rfl, prefix_rfl⟩, rfl⟩

-- ==== one pass

section

variable [Wire B] {c : Call B} {j : Judge} {m : OffsetMap B}
variable {w w' : CleanWork} {rw : Rewrite B} {out : Cleaned B}
variable {generation : ℕ}

/-- What one call of `clean_step` may leave. -/
def Turned (p : Partition B) : Cleaned B → Prop
  | .paused rw => Copying p rw
  | .swapped _ p' => Swaps p p'
  | .unchanged | .abandoned | .failed _ => True

theorem copyStep_turned {s : Segment B} (hp : p.Regular)
    (hs : s ∈ p.segments) (hbase : s.base = rw.info.base) (hpos : rw.pos ≤ s.batches.length)
    (hdone : Rewrites Shrunk (s.batches.take rw.pos) rw.written)
    (h : copyStep c j m generation p s rw w = (w', out)) : Turned p out := by
  obtain ⟨-, hout⟩ := copyStep_cases (R := Shrunk) (K := fun _ => True)
    (fun b hb _ _ _ _ hjb =>
      ⟨judgeBatch_shrunk (hp.numbered b (Partition.mem_log.2 ⟨s, hs, hb⟩)) hjb, trivial⟩)
    trivial hpos hdone h
  cases out with
  | paused rw' => exact fun _ => ⟨s, hs, hout.1 ▸ hbase, hout.2.2⟩
  | swapped n p' =>
    obtain ⟨written, hcopied, hswap⟩ := hout
    have hsw := swapSegment_replaced (fun b hb => Shrunk.refl (hp.numbered b hb))
      (fun x hx hxb => by
        obtain rfl := hp.layout.segment_eq (mem_append_left _ hx) hs (hxb.trans hbase.symm)
        exact hcopied) hswap
    exact ⟨hsw.1, hsw.2⟩
  | unchanged | abandoned | failed => trivial

/-- One call of `clean_step`, as far as it got. -/
theorem cleanStep_turned (hp : p.Regular) (hrw : Copying p rw)
    (h : cleanStep c j m generation p rw w = (w', out)) : Turned p out := by
  unfold cleanStep at h
  split at h
  · cases h
    trivial
  next s hopen =>
  obtain ⟨hs, hbase⟩ := hp.layout.openSegment_eq.1 hopen
  split at h
  · next hwr =>
      obtain ⟨s', hs', hbase', hpos, hdone⟩ := hrw hwr
      obtain rfl := hp.layout.segment_eq hs hs' (hbase.trans hbase'.symm)
      exact copyStep_turned hp hs hbase hpos hdone h
  next hwr =>
  split at h
  · cases h
    exact fun hf => absurd hf hwr
  · cases h
    trivial
  · cases h
    trivial
  apply copyStep_turned hp hs ?_ ?_ ?_ h
  · exact hbase
  · exact Nat.zero_le _
  · exact Rewrites.nil

/-- What the rewriting loop carries: what it makes of `p₀` descends from
it, and is `p₀` itself until the layout changes. -/
structure Looping (p₀ : Partition B) (r : RewriteWork B) : Prop where
  regular : r.part.Regular
  descends : Descends p₀ r.part
  same : r.part = p₀ ∨ p₀.layoutGeneration < r.part.layoutGeneration
  generation : r.plan.generation = r.part.layoutGeneration
  copying : ∀ rw, r.plan.rewriting = some rw → Copying r.part rw

variable {r r' : RewriteWork B} {go : Bool} {plan : CleanPlan B}

omit [Wire B] in
theorem Looping.swapped {n : ℕ} (h : Looping p₀ r) (hsw : Swaps r.part p')
    (hgen : plan.generation = p'.layoutGeneration)
    (hnone : plan.rewriting = none) : Looping p₀ ⟨p', plan, w', n⟩ := by
  obtain ⟨hreg, hdesc⟩ := hsw.replaced.shrunk h.regular
  refine ⟨hreg, h.descends.trans hdesc, Or.inr ?_, hgen, fun rw hrw => ?_⟩
  · have hnext := hsw.generation
    dsimp only
    rcases h.same with heq | hlt
    · rw [hnext, heq]
      omega
    · omega
  · simp [hnone] at hrw

theorem rewriteOne_looping (h : Looping p₀ r) (hrw : Copying r.part rw)
    (hrun : rewriteOne c j rw r = (go, r')) : Looping p₀ r' := by
  have hkeep : ∀ (w : CleanWork) (plan : CleanPlan B), plan.generation = r.plan.generation →
      (∀ rw, plan.rewriting = some rw → Copying r.part rw) →
      Looping p₀ { r with work := w, plan := plan } :=
    fun w plan hgen hcopy => ⟨h.regular, h.descends, h.same, hgen.trans h.generation, hcopy⟩
  unfold rewriteOne at hrun
  split at hrun
  · cases hrun
    refine hkeep r.work _ ?_ fun rw' heq => ?_
    · rfl
    · cases heq
      exact hrw
  cases hstep : cleanStep c (j.forPlan r.plan) r.plan.map r.plan.generation r.part rw r.work with
  | mk w out =>
  rw [hstep] at hrun
  have hout := cleanStep_turned h.regular hrw hstep
  cases out with
  | paused rw' =>
    cases hrun
    refine hkeep w _ ?_ fun rw₁ heq => ?_
    · rfl
    · cases heq
      exact hout
  | swapped n p' =>
    cases hrun
    exact h.swapped hout rfl rfl
  | unchanged | abandoned | failed =>
    cases hrun
    exact hkeep w _ rfl nofun

omit [Wire B] in
theorem copying_new {info : SegInfo} : Copying p (Rewrite.new info) :=
  nofun

variable {segs : List (Segment B)}

/-- The rewriting loop, by its turns. -/
theorem rewriteAll_looping (h : Looping p₀ r)
    (hrun : rewriteAll c j segs r = (go, r')) : Looping p₀ r' := by
  induction segs generalizing r with
  | nil =>
    cases hrun
    exact h
  | cons s segs ih =>
    unfold rewriteAll at hrun
    split at hrun
    · cases hone : rewriteOne c j (Rewrite.new s.info) r with
      | mk go₁ r₁ =>
      rw [hone] at hrun
      have h₁ := rewriteOne_looping h copying_new hone
      cases go₁ with
      | false =>
        cases hrun
        exact h₁
      | true => exact ih h₁ hrun
    · exact ih h hrun

theorem rewriteFrom_looping (h : Looping p₀ r)
    (hrun : rewriteFrom c j segs r = (go, r')) : Looping p₀ r' := by
  unfold rewriteFrom at hrun
  split at hrun
  · exact rewriteAll_looping h hrun
  next rw hsome =>
  cases hone : rewriteOne c j rw r with
  | mk go₁ r₁ =>
  rw [hone] at hrun
  have h₁ := rewriteOne_looping h (h.copying rw hsome) hone
  cases go₁ with
  | false =>
    cases hrun
    exact h₁
  | true => exact rewriteAll_looping h₁ hrun

/-- What a pass leaves behind. -/
structure Passed (p p' : Partition B) (st' : Statics B) : Prop where
  regular : p'.Regular
  descends : Descends p p'
  resumable : Resumable p' st'
  others : ∀ st, Resumable p st → Resumable p' st

variable {st' : Statics B}

omit [Wire B] in
theorem Looping.passed (h : Looping p₀ r) (hst : ∀ q, st'.plan = some q → q = r.plan) :
    Passed p₀ r.part st' := by
  refine ⟨h.regular, h.descends, fun q hq => ?_, fun st hold q hq => ?_⟩
  · rw [hst q hq]
    exact ⟨h.generation.le, fun _ => h.copying⟩
  · -- a plan of another process is as good as before, or outdated
    obtain ⟨hle, hrw⟩ := hold q hq
    rcases h.same with heq | hlt
    · rw [heq]
      exact ⟨hle, hrw⟩
    · exact ⟨hle.trans hlt.le, fun hgen => by omega⟩

omit [Wire B] in
/-- The cursor is of no matter to the log. -/
theorem Passed.setCursor {o : ℤ} (h : Passed p p' st') :
    Passed p { p' with compactCursor := o } st' :=
  ⟨⟨{ h.regular.layout with }, h.regular.numbered⟩, ⟨h.descends.nextOffset, h.descends.source⟩,
    h.resumable, h.others⟩

omit [Wire B] in
theorem finish_passed (h : Passed p₀ p st) (hst : st.plan = none)
    (hrun : finish c plan p st = (p', st')) : Passed p₀ p' st' := by
  unfold finish at hrun
  split at hrun
  · cases hrun
    exact h
  split at hrun
  · cases hrun
    have hcur := h.setCursor (o := plan.map.endOffset + 1)
    exact { hcur with resumable := Resumable.none hst }
  · cases hrun
    exact h

omit [Wire B] in
theorem planFor_resumable {cleanable : List (Segment B × ℤ)}
    (hst : Resumable p st) (h : planFor c p st cleanable = some plan) :
    plan.generation = p.layoutGeneration ∧ ∀ rw, plan.rewriting = some rw → Copying p rw := by
  unfold planFor at h
  generalize (if p.compactCursor > p.nextOffset then 0
    else p.compactCursor) = d at h
  dsimp only at h
  split at h
  · next q hq =>
      split at h
      · next hgen =>
          cases h
          exact ⟨hgen, (hst plan hq).2 hgen⟩
      split at h
      · cases h
      · cases h
        exact ⟨rfl, nofun⟩
  · split at h
    · cases h
    · cases h
      exact ⟨rfl, nofun⟩

omit [Wire B] in
/-- Mapping leaves the rewrite alone. -/
theorem mapPlan_same {plan' : CleanPlan B} {known : List (ℤ × ℕ)}
    (h : mapPlan c j p segs plan known = (w, .ok plan')) :
    plan'.generation = plan.generation ∧ plan'.rewriting = plan.rewriting := by
  unfold mapPlan at h
  split at h
  · cases h
    exact ⟨rfl, rfl⟩
  split at h
  · cases h
  · cases h
    exact ⟨rfl, rfl⟩

/-- A pass, however it ends. -/
theorem compactPass_passed {res : Except StoreError ℕ} (hp : p.Regular)
    (hst : Resumable p st) (hrun : compactPass c p st = (p', st', res)) : Passed p p' st' := by
  have hstay : ∀ st', st'.plan = none → Passed p p st' := fun st' hnone =>
    ⟨hp, Descends.refl, Resumable.none hnone, fun _ h => h⟩
  unfold compactPass at hrun
  dsimp only at hrun
  split at hrun
  · cases hrun
    exact ⟨hp, Descends.refl, hst, fun _ h => h⟩
  split at hrun
  · cases hrun
    exact hstay _ rfl
  next plan hplan =>
  obtain ⟨hgen, hcopy⟩ := planFor_resumable hst hplan
  split at hrun
  · cases hrun
    exact hstay _ rfl
  next w plan' hmap =>
  obtain ⟨hgen', hrw'⟩ := mapPlan_same hmap
  have hloop : Looping p ⟨p, plan', w, 0⟩ :=
    ⟨hp, Descends.refl, Or.inl rfl, hgen'.trans hgen, hrw' ▸ hcopy⟩
  split at hrun
  · cases hrun
    apply hloop.passed
    intro q hq
    cases hq
    rfl
  split at hrun
  · next r hfrom =>
      cases hrun
      apply (rewriteFrom_looping hloop hfrom).passed
      intro q hq
      cases hq
      rfl
  · next r hfrom =>
      cases hrun
      apply finish_passed ?_ ?_ rfl
      · exact (rewriteFrom_looping hloop hfrom).passed fun q hq =>
          nomatch hq
      · rfl

-- ==== every run

/-- An appended batch's records are numbered upwards within it. -/
def Op.Numbered : Op B → Prop
  | .append b _ => b.Numbered
  | _ => True

/-- What holds between operations. -/
structure System.Regular (s : System B) : Prop where
  part : s.part.Regular
  procs : ∀ i, Resumable s.part (s.procs i)

variable {s : System B}

omit [Wire B] in
theorem System.Regular.setProc {i : ℕ} (h : s.Regular)
    (hst : Resumable s.part st) : (s.setProc i st).Regular := by
  refine ⟨h.part, fun k => ?_⟩
  unfold System.setProc
  dsimp only
  rcases eq_or_ne k i with rfl | hne
  · rw [update_self]
    exact hst
  · rw [update_of_ne hne]
    exact h.procs k

/-- Every step keeps batches within those that were there. -/
theorem System.Regular.step {op : Op B} (h : s.Regular) (hop : op.Numbered) :
    (s.step op).Regular ∧ Descends s.part (s.step op).part := by
  cases op with
  | append b mtime =>
    have hnum : Batch.Numbered { b with baseOffset := s.part.nextOffset } := { hop with }
    refine ⟨⟨⟨h.part.layout.append hop.extent, fun x hx => ?_⟩,
      fun i => extends_append.resumable (h.procs i)⟩, ?_, fun x hx => ?_⟩
    · rcases mem_log_append.1 hx with hx | rfl
      · exact h.part.numbered x hx
      · exact hnum
    · have := hnum.base_le_last
      change s.part.nextOffset ≤ Batch.lastOffset _ + 1
      dsimp only at this
      omega
    · rcases mem_log_append.1 hx with hx | rfl
      · exact Or.inr ⟨x, hx, le_rfl, le_rfl⟩
      · exact Or.inl le_rfl
  | roll mtime =>
    have hlog := log_roll s.part mtime
    refine ⟨⟨⟨h.part.layout.roll mtime, fun x hx => ?_⟩,
      fun i => extends_roll.resumable (h.procs i)⟩, ?_, fun x hx => ?_⟩
    · exact h.part.numbered x (hlog ▸ hx)
    · change s.part.nextOffset ≤ (s.part.roll mtime).nextOffset
      unfold Partition.roll
      split <;> exact le_rfl
    · exact Or.inr ⟨x, hlog ▸ hx, le_rfl, le_rfl⟩
  | settle lastStable txns =>
    obtain ⟨hp, hn⟩ := h.part
    exact ⟨⟨⟨{ hp with }, hn⟩, h.procs⟩, le_rfl, fun x hx => Or.inr ⟨x, hx, le_rfl, le_rfl⟩⟩
  | evict | exit => exact ⟨h.setProc (Resumable.none rfl), Descends.refl⟩
  | restart =>
    obtain ⟨hp, hn⟩ := h.part
    exact ⟨⟨⟨{ hp with }, hn⟩, fun _ => Resumable.none rfl⟩,
      le_rfl, fun x hx => Or.inr ⟨x, hx, le_rfl, le_rfl⟩⟩
  | compact i c =>
    have hpass := compactPass_passed (c := c) h.part (h.procs i) rfl
    refine ⟨⟨hpass.regular, fun k => ?_⟩, hpass.descends⟩
    unfold System.step
    dsimp only
    rcases eq_or_ne k i with rfl | hne
    · rw [update_self]
      exact hpass.resumable
    · rw [update_of_ne hne]
      exact hpass.others _ (h.procs k)

theorem System.Regular.run (h : s.Regular) (ops : List (Op B)) (hops : ∀ op ∈ ops, op.Numbered) :
    (ops.foldl System.step s).Regular ∧ Descends s.part (ops.foldl System.step s).part := by
  induction ops generalizing s with
  | nil => exact ⟨h, Descends.refl⟩
  | cons op ops ih =>
    obtain ⟨hstep, hdesc⟩ := h.step (hops op mem_cons_self)
    obtain ⟨hrun, hrest⟩ := ih hstep fun x hx =>
      hops x (.tail _ hx)
    exact ⟨hrun, hdesc.trans hrest⟩

end

end Kafgres.Compaction
