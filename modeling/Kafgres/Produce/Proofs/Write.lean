/-
What writing one partition can do to the world, and what it has done
when it ended well.
-/
import Kafgres.Produce.Proofs.Plan
import Kafgres.Segment.Proofs.Reserve

namespace Kafgres.Produce

open Storage Producer Fallible List

-- ==== motions

/-- In some try of the request the store takes the batch. -/
def Env.Takes (env : Env) (pos : Pos) : Prop := ∃ n, env.append n pos = .ok

/-- The steps a partition's programs are made of are along `R`; `S` are
the batches they are about. -/
structure Allows (env : Env) (R : Motion World) (k : Key) (S : Pos → Prop) : Prop where
  reserve : ∀ s pid (idem : Idem),
    R.rel s (s.onWindow k pid fun rows => record rows (idem.row (-1)))
  stamp : ∀ s pid first pos off, S pos → s.landedAt pos = some off →
    R.rel s (s.onWindow k pid fun rows => stamp rows first off)
  release : ∀ s pid first,
    R.rel s (s.onWindow k pid fun rows => release rows first)
  land : ∀ s view pos, S pos → env.Takes pos → s.landedAt pos = none →
    R.rel s (s.land k view pos)

theorem Allows.mono {env : Env} {R : Motion World} {k : Key} {S S' : Pos → Prop}
    (h : Allows env R k S) (hS : ∀ pos, S' pos → S pos) : Allows env R k S' :=
  ⟨h.reserve, fun s pid first pos off hpos =>
    h.stamp s pid first pos off (hS pos hpos), h.release,
    fun s view pos hpos => h.land s view pos (hS pos hpos)⟩

/-- The batches of a pending partition that were planned for the store. -/
def Pending.Holds (p : Pending) (pos : Pos) : Prop :=
  pos.site = p.site ∧ ∃ b, p.plan[pos.batch]? = some b ∧ b.2.stores = true

theorem landedAt_land (w : World) (k : Key) (view : View) (pos q : Pos) :
    (w.land k view pos).landedAt q = if q = pos then some (w.next k) else w.landedAt q := by
  show lookup q ((pos, w.next k) :: w.landed) = _
  rw [lookup_cons]
  by_cases h : q = pos
  · rw [if_pos h, beq_iff_eq.2 h]
  · rw [if_neg h, beq_eq_false_iff_ne.2 h]
    rfl

variable {pos : Pos} {view : View}

/-- A stored batch is where the answer says, and no window has changed
for it. -/
theorem storeBatch_ok {env : Env} {n : Try} {k : Key} {s t : World} {off : ℤ}
    (h : storeBatch env n k pos view s = (t, .ok off)) :
    t.landedAt pos = some off ∧ t.windows = s.windows := by
  unfold storeBatch at h
  rw [Prog.bind_of_ok (show Prog.read (fun w => World.landedAt w pos) s
    = (s, .ok (s.landedAt pos)) from rfl)] at h
  cases hl : s.landedAt pos with
  | some offset =>
    rw [hl] at h
    cases h
    exact ⟨hl, rfl⟩
  | none =>
    rw [hl] at h
    obtain ⟨s₁, u, hcall, h₁⟩ := Prog.bind_eq_ok.1 h
    obtain ⟨-, rfl⟩ := Prog.call_eq_ok.1 hcall
    cases h₁
    exact ⟨(landedAt_land s₁ k view pos pos).trans (if_pos rfl), rfl⟩

/-- The calls to Postgres fail within `P`. -/
structure Env.Postgres (env : Env) (n : Try) (P : AppendError → Prop)
    (unwinds : Prop) : Prop where
  record : ∀ pos, (env.record n pos).Within .producerState P unwinds
  beginOrContinue : ∀ pos,
    (env.beginOrContinue n pos).Within .producerState P unwinds
  registerTxnPartition : ∀ pos,
    (env.registerTxnPartition n pos).Within .producerState P unwinds
  stamp : ∀ pos, (env.stamp n pos).Within .producerState P unwinds
  stampTxnPartition : ∀ pos,
    (env.stampTxnPartition n pos).Within .store P unwinds
  release : ∀ pos, (env.release n pos).Within .producerState P unwinds

theorem Env.Postgres.mono {env : Env} {n : Try} {P Q : AppendError → Prop} {r : Prop}
    (h : env.Postgres n P r) (hPQ : ∀ e, P e → Q e) : env.Postgres n Q r :=
  ⟨fun _ => (h.record _).mono hPQ, fun _ => (h.beginOrContinue _).mono hPQ,
    fun _ => (h.registerTxnPartition _).mono hPQ,
    fun _ => (h.stamp _).mono hPQ, fun _ => (h.stampTxnPartition _).mono hPQ,
    fun _ => (h.release _).mono hPQ⟩

/-- Any errors at all. -/
theorem Env.postgres_any (env : Env) (n : Try) : env.Postgres n (fun _ => True) True := by
  constructor <;> exact fun _ => .of_raise fun _ => trivial

section Goes

variable {R : Motion World} {S : Pos → Prop} {k : Key} {site : Site} {env : Env} {n : Try}
  {P : AppendError → Prop} {r : Prop} (h : env.Postgres n P r)

include h in
theorem registerTxn_goes (pos : Pos) (idem : Idem) (registered begun : List ℤ) (s : World) :
    Goes R P r (registerTxn env n pos idem registered begun) s := by
  unfold registerTxn
  split_ifs
  · exact .bind (.call (h.beginOrContinue _)) fun _ _ _ =>
      .bind (.call (h.registerTxnPartition _)) fun _ _ _ => .pure _
  · exact .bind (.call (h.registerTxnPartition _)) fun _ _ _ => .pure _
  · exact .pure _

variable (hR : Allows env R k S)

include h hR

theorem reserveLoop_goes (plan : Plan) (i : ℕ) (registered begun : List ℤ) (s : World) :
    Goes R P r (reserveLoop env n k site plan i registered begun) s := by
  induction plan generalizing i registered begun s with
  | nil => exact .pure _
  | cons b plan ih =>
    obtain ⟨v, d⟩ := b
    cases d with
    | append idem =>
      exact .bind (.call (h.record _)) fun t _ _ =>
        .bind (.update (hR.reserve t _ _)) fun _ _ _ =>
          .bind (registerTxn_goes h _ _ _ _ _) fun _ _ _ => ih _ _ _ _
    | plain | duplicate | duplicateOf => exact ih _ _ _ _

theorem releaseLoop_goes (plan : Plan) (i : ℕ) (s : World) :
    Goes R P r (releaseLoop env n k site plan i) s := by
  induction plan generalizing i s with
  | nil => exact .pure _
  | cons b plan ih =>
    obtain ⟨v, d⟩ := b
    cases d with
    | append idem =>
      exact .bind (.call (h.release _)) fun t _ _ =>
        .bind (.update (hR.release t _ _)) fun _ _ _ => ih _ _
    | plain | duplicate | duplicateOf => exact ih _ _

omit h in
theorem storeBatch_goes (hpos : S pos) (ha : (env.append n pos).Within .store P r) (view : View)
    (s : World) : Goes R P r (storeBatch env n k pos view) s := by
  refine .bind (.read _) fun t landed ht => ?_
  cases ht
  dsimp only
  cases hl : s.landedAt pos with
  | some offset => exact .pure _
  | none =>
    refine .bind (.call ha) fun t _ ht => ?_
    obtain ⟨htaken, rfl⟩ := Prog.call_eq_ok.1 ht
    refine .bind (.read _) fun u _ hu => ?_
    cases hu
    exact .bind (.update (hR.land t view pos hpos ⟨n, htaken⟩ hl)) fun _ _ _ => .pure _

/-- Only an offset a batch landed at is stamped. -/
theorem stampBatch_goes (hpos : S pos) (idem : Idem) {offset : ℤ} {s : World}
    (hland : s.landedAt pos = some offset) : Goes R P r (stampBatch env n k pos idem offset) s := by
  refine .bind (.call (h.stamp _)) fun t _ ht => ?_
  obtain ⟨-, rfl⟩ := Prog.call_eq_ok.1 ht
  refine .bind (.update (hR.stamp t _ _ pos offset hpos hland)) fun _ _ _ => ?_
  split_ifs
  · exact .call (h.stampTxnPartition _)
  · exact .pure _

omit hR

variable {p : Pending} (hp : Allows env R p.key S)

include hp

theorem writeBatch_goes {i : ℕ} (hi : S ⟨p.site, i⟩)
    (ha : (env.append n ⟨p.site, i⟩).Within .store P r) (view : View) (idem : Option Idem)
    (s : World) : Goes R P r (writeBatch env n p i view idem) s := by
  have hback : ∀ j e, P e → ∀ s, Goes R P r (do
      releaseReservations env n p j
      Prog.fail e : Action ℤ) s := fun j e he s =>
    .bind (releaseLoop_goes h hp _ _ s) fun _ _ _ => .fail he
  refine .attempt_bind (storeBatch_goes hp hi ha view s) (fun t e _ he => hback i e he t)
    fun t offset ht => ?_
  have hland := (storeBatch_ok ht).1
  cases idem with
  | none => exact .pure _
  | some idem =>
    exact .attempt_bind (stampBatch_goes h hp hi idem hland)
      (fun u e _ he => hback (i + 1) e he u) fun _ _ _ => .pure _

theorem writeLoop_goes (plan : Plan) (i : ℕ) (acc : Written)
    (hS : ∀ j b, plan[j]? = some b → b.2.stores = true →
      S ⟨p.site, i + j⟩ ∧ (env.append n ⟨p.site, i + j⟩).Within .store P r) (s : World) :
    Goes R P r (writeLoop env n p plan i acc) s := by
  induction plan generalizing i acc s with
  | nil => exact .pure _
  | cons b plan ih =>
    have hrest := fun acc => ih (i + 1) acc fun j b hj hb => by
      rw [Nat.add_right_comm]
      exact hS (j + 1) b hj hb
    obtain ⟨v, d⟩ := b
    cases d with
    | append | plain =>
      obtain ⟨hi, ha⟩ := hS 0 _ rfl rfl
      exact .bind (writeBatch_goes h hp hi ha v _ s) fun _ _ _ => hrest _ _
    | duplicate | duplicateOf => exact hrest _ _

theorem writePartition_goes (hS : ∀ j b, p.plan[j]? = some b → b.2.stores = true →
      S ⟨p.site, j⟩ ∧ (env.append n ⟨p.site, j⟩).Within .store P r)
    (hw : (env.highWatermark n p.site).Within .store P r) (s : World) :
    Goes R P r (writePartition env n p) s := by
  refine .bind (writeLoop_goes h hp _ _ _ (fun j b hj hb => by
    rw [Nat.zero_add]
    exact hS j b hj hb) s) fun t done _ => ?_
  cases done.base with
  | some base => exact .pure _
  | none =>
    exact .bind (.call hw) fun _ _ _ => .bind (.read _) fun _ _ _ => .pure _

end Goes

-- ==== ledger

/-- `LANDED` says of each batch where the log has it, and the log has no
batch twice. -/
structure Ledger (w : World) : Prop where
  nodup : (w.log.map LogEntry.pos).Nodup
  landed : ∀ pos off, w.landedAt pos = some off ↔
    ∃ k, ⟨k, off, pos⟩ ∈ w.log

theorem Ledger.land {w : World} (h : Ledger w) {k : Key} (hpos : w.landedAt pos = none) :
    Ledger (w.land k view pos) := by
  refine ⟨?_, fun q off => ?_⟩
  · show ((w.log ++ [LogEntry.mk k (w.next k) pos]).map LogEntry.pos).Nodup
    rw [map_append, map_singleton, nodup_append]
    refine ⟨h.nodup, nodup_singleton _, ?_⟩
    rintro q hq r hr rfl
    obtain ⟨x, hx, hxq⟩ := mem_map.1 hq
    have hat := (h.landed q x.base).2 ⟨x.key, hxq ▸ hx⟩
    simp [mem_singleton.1 hr, hpos] at hat
  · rw [landedAt_land]
    show _ ↔ ∃ k', LogEntry.mk k' off q ∈ w.log ++ [⟨k, w.next k, pos⟩]
    rcases eq_or_ne q pos with rfl | hq
    · rw [if_pos rfl, Option.some.injEq]
      constructor
      · rintro rfl
        exact ⟨k, mem_append_right _ (mem_singleton_self _)⟩
      rintro ⟨k', hin⟩
      rcases mem_append.1 hin with hin | hin
      · simp [(h.landed q off).2 ⟨k', hin⟩] at hpos
      · cases mem_singleton.1 hin
        rfl
    · rw [if_neg hq, h.landed]
      refine exists_congr fun k' => ?_
      rw [mem_append, mem_singleton]
      refine ⟨.inl, ?_⟩
      rintro (hin | hin)
      · exact hin
      · cases hin
        exact (hq rfl).elim

theorem Ledger.offsetOf {w : World} (h : Ledger w) (pos : Pos) :
    w.offsetOf pos = (w.landedAt pos).getD (-1) := by
  unfold World.offsetOf
  cases hf : w.log.find? fun x => x.pos = pos with
  | some x =>
    have hpos : x.pos = pos := by simpa using find?_some hf
    have hat := (h.landed pos x.base).2 ⟨x.key, hpos ▸ mem_of_find?_eq_some hf⟩
    rw [hat]
    rfl
  | none =>
    cases hl : w.landedAt pos with
    | none => rfl
    | some off =>
      obtain ⟨k, hin⟩ := (h.landed pos off).1 hl
      have := find?_eq_none.1 hf _ hin
      simp at this

/-- What the segment engine's append is here: an error leaves the log
end where it is, a success lands the batch there. -/
theorem segment_append_lands (crc : List UInt8 → ℕ) (defaultBytes : ℕ)
    (writer : Segment.Writer) (a : Segment.AppendArgs)
    (io : Segment.WriteIo) {w : World} {k : Key} {view : View} (pos : Pos)
    (hnext : writer.slot.nextOffset = w.next k)
    (hdelta : a.batch.lastOffsetDelta = view.lastOffsetDelta) :
    let r := Segment.append crc defaultBytes writer a io
    ((∃ e, r.2 = .error e) ∧ r.1.slot.nextOffset = w.next k) ∨ (r.2 = .ok (w.next k) ∧
        r.1.slot.nextOffset = (w.land k view pos).next k) := by
  intro r
  have hland : (w.land k view pos).next k
      = w.next k + view.lastOffsetDelta + 1 := Function.update_self ..
  rw [hland, ← hnext, ← hdelta]
  exact (Segment.append_frame crc defaultBytes writer a io).2

-- ==== moves

/-- How the world moves while windows of the partitions `K` are
rewritten and the batches `A` allows land. -/
structure Moved (K : Key → Prop) (A : Key → Pos → Prop) (s t : World) :
    Prop where
  windows : ∀ k, ¬ K k → t.windows k = s.windows k
  landed : ∀ pos, (∀ k, ¬ A k pos) → t.landedAt pos = s.landedAt pos
  grows : ∀ pos off, s.landedAt pos = some off →
    t.landedAt pos = some off
  log : ∀ x ∈ t.log, x ∈ s.log ∨ A x.key x.pos
  ledger : Ledger s → Ledger t

def moves (K : Key → Prop) (A : Key → Pos → Prop) : Motion World where
  rel := Moved K A
  refl _ := ⟨fun _ _ => rfl, fun _ _ => rfl, fun _ _ => id, fun _ => .inl, id⟩
  trans h h' := {
    windows := fun k hk => (h'.windows k hk).trans (h.windows k hk)
    landed := fun pos hpos => (h'.landed pos hpos).trans (h.landed pos hpos)
    grows := fun pos off hoff => h'.grows pos off (h.grows pos off hoff)
    log := fun x hx => (h'.log x hx).elim (h.log x) .inr
    ledger := h'.ledger ∘ h.ledger }

theorem moved_onWindow {K : Key → Prop} {A : Key → Pos → Prop} {k : Key}
    (hK : K k) (s : World) (pid : ℤ) (f : Window → Window) : Moved K A s (s.onWindow k pid f) where
  windows k' hk := by
    have hne : k' ≠ k := by
      rintro rfl
      exact hk hK
    exact Function.update_of_ne hne _ _
  landed _ _ := rfl
  grows _ _ := id
  log _ := .inl
  ledger h := ⟨h.nodup, h.landed⟩

theorem moves_allows {env : Env} {K : Key → Prop} {A : Key → Pos → Prop} {k : Key}
    {S : Pos → Prop} (hK : K k) (hA : ∀ pos, S pos → env.Takes pos → A k pos) :
    Allows env (moves K A) k S where
  reserve s pid _ := moved_onWindow hK s pid _
  stamp s pid _ _ _ _ _ := moved_onWindow hK s pid _
  release s pid _ := moved_onWindow hK s pid _
  land s view pos hS htaken hpos := {
    windows := fun _ _ => rfl
    landed := fun q hq => by
      have hne : q ≠ pos := by
        rintro rfl
        exact hq k (hA q hS htaken)
      rw [landedAt_land, if_neg hne]
    grows := fun q off hq => by
      have hne : q ≠ pos := by
        rintro rfl
        simp [hpos] at hq
      rw [landedAt_land, if_neg hne]
      exact hq
    log := fun x hx => by
      rcases mem_append.1 hx with hx | hx
      · exact .inl hx
      · rw [mem_singleton.1 hx]
        exact .inr (hA pos hS htaken)
    ledger := fun h => h.land hpos }

namespace Moved

variable {K K' : Key → Prop} {A A' : Key → Pos → Prop} {s t : World}

theorem mono (h : Moved K A s t) (hK : ∀ k, K k → K' k)
    (hA : ∀ k pos, A k pos → A' k pos) : Moved K' A' s t where
  windows k hk := h.windows k fun hk' => hk (hK k hk')
  landed pos hpos := h.landed pos fun k hk => hpos k (hA k pos hk)
  grows := h.grows
  log x hx := (h.log x hx).imp_right (hA _ _)
  ledger := h.ledger

/-- Putting the windows back is a move too. -/
theorem rollback (h : Moved K A s t) : Moved K A s (World.rollback s t) :=
  ⟨fun _ _ => rfl, h.landed, h.grows, h.log, fun hs =>
    ⟨(h.ledger hs).nodup, (h.ledger hs).landed⟩⟩

end Moved

/-- The moves of one partition of the request. -/
abbrev own (p : Pending) : Motion World :=
  moves (fun k => k = p.key) fun k pos => k = p.key ∧ pos.site = p.site

/-- The moves of the others. -/
abbrev others (p : Pending) : Motion World :=
  moves (fun k => k ≠ p.key) fun _ pos => pos.site ≠ p.site

theorem own_allows {env : Env} (p : Pending) :
    Allows env (own p) p.key fun pos => pos.site = p.site :=
  moves_allows rfl fun _ h _ => ⟨rfl, h⟩

end Kafgres.Produce
