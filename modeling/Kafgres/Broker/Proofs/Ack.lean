/-
When an acknowledgement means that the batch is on the platter.

What is held back is decided by what a request itself appended. A batch
answered from the window was appended by another request, whose sync may
be owed on another connection or not at all; and a connection closed over
authentication is flushed whatever it holds.
-/
import Kafgres.Broker.Ack
import Kafgres.Lib.Run
import Kafgres.Produce.Proofs.Bounds

namespace Kafgres.Broker

open Storage Produce Run List Function Server

/-- The offset a batch is answered with from the window. -/
def resent : View × Decision → Option ℤ
  | (_, .duplicate base) => some base
  | _ => none

/-- A partition that stores nothing is answered with offsets a sync has
covered, or on a connection already held for a partition already owed. -/
def Server.Resends (s : Server) (c : Conn) (cat : Catalog) (req : Request) : Prop :=
  req.acksNone = true ∨ ∀ p ∈ req.pendings cat s.world, (p.plan.any fun b => b.2.stores) = true ∨
    ∀ base ∈ p.plan.filterMap resent, base < s.durable p.key ∨
      (c.awaitingSync = true ∧ p.key ∈ s.unsynced)

instance (s : Server) (c : Conn) (cat : Catalog) (req : Request) :
    Decidable (s.Resends c cat req) := by
  unfold Server.Resends
  infer_instance

/-- The condition on a step, in the state it is taken in. -/
def Covered (s : Server) : Op → Prop
  | .produce id _ _ cat req | .retry id _ _ cat req =>
    ∀ c ∈ s.conns id, s.Resends c cat req
  | .sasl id _ fails => ∀ c ∈ s.conns id, fails = true →
      c.saslFailures + 1 ≥ maxSaslFailures → c.awaitingSync = false
  | .gate id _ => ∀ c ∈ s.conns id, c.awaitingSync = false
  | _ => True

instance (s : Server) (op : Op) : Decidable (Covered s op) := by
  cases op <;> dsimp only [Covered] <;> infer_instance

/-- Every success written to a socket is behind a sync of its partition
that began after the batch was in the log. -/
def Synced (s : Server) : Prop := ∀ a ∈ s.sent, a.offset < s.durable a.key

instance (s : Server) : Decidable (Synced s) := by
  unfold Synced
  infer_instance

-- ==== the state

/-- The acks of a connection that are not written yet. -/
def Conn.queued (c : Conn) : List Ack := (c.ready.map Prod.snd).flatten ++ c.outbuf.flatten

/-- The ack can be waited for: its batch is in the log, and behind a sync
or behind the barrier. -/
def Server.Holds (s : Server) (c : Conn) (a : Ack) : Prop :=
  a.offset < s.world.next a.key ∧ (a.offset < s.durable a.key ∨
    (c.awaitingSync = true ∧ a.key ∈ s.unsynced))

structure AckInv (s : Server) : Prop where
  sane : Sane s.world
  durable : ∀ k, s.durable k ≤ s.world.next k
  sent : Synced s
  queued : ∀ id c, s.conns id = some c → ∀ a ∈ c.queued, s.Holds c a
  failures : ∀ id c, s.conns id = some c →
    c.saslFailures < maxSaslFailures

variable {s : Server} {c c' : Conn} {id : ℕ}

-- ==== connections

variable {a : Ack} {b : Reply} {n : ℕ}

theorem mem_queued : a ∈ c.queued ↔ (∃ r ∈ c.ready, a ∈ r.2) ∨ ∃ b ∈ c.outbuf, a ∈ b := by
  simp only [Conn.queued, mem_append, mem_flatten, mem_map]
  constructor
  · rintro (⟨b, ⟨r, hr, rfl⟩, ha⟩ | ⟨b, hb, ha⟩)
    · exact .inl ⟨r, hr, ha⟩
    · exact .inr ⟨b, hb, ha⟩
  · rintro (⟨r, hr, ha⟩ | ⟨b, hb, ha⟩)
    · exact .inl ⟨r.2, ⟨r, hr, rfl⟩, ha⟩
    · exact .inr ⟨b, hb, ha⟩

/-- The same barrier, and no ack more. -/
structure Shrinks (c c' : Conn) : Prop where
  awaitingSync : c'.awaitingSync = c.awaitingSync
  saslFailures : c'.saslFailures = c.saslFailures
  queued : ∀ a ∈ c'.queued, a ∈ c.queued

theorem Shrinks.trans {c'' : Conn} (h : Shrinks c c') (h' : Shrinks c' c'') : Shrinks c c'' :=
  ⟨h'.awaitingSync.trans h.awaitingSync, h'.saslFailures.trans h.saslFailures,
    fun a ha => h.queued a (h'.queued a ha)⟩

/-- Ordering responses adds none. -/
theorem release_shrinks (n : ℕ) (c : Conn) : Shrinks c (c.release n) := by
  induction n generalizing c with
  | zero => exact ⟨rfl, rfl, fun _ => id⟩
  | succ n ih =>
    unfold Conn.release
    cases hl : c.ready.lookup c.flushSeq with
    | none => exact ⟨rfl, rfl, fun _ => id⟩
    | some b =>
      refine Shrinks.trans ⟨?_, ?_, fun a ha => ?_⟩ (ih _)
      · rfl
      · rfl
      rw [mem_queued] at ha ⊢
      rcases ha with ⟨r, hr, ha⟩ | ⟨x, hx, ha⟩
      · exact .inl ⟨r, mem_of_mem_filter hr, ha⟩
      rcases mem_append.1 hx with hx | hx
      · exact .inr ⟨x, hx, ha⟩
      · rw [mem_singleton.1 hx] at ha
        obtain ⟨l₁, l₂, hready, -⟩ := lookup_eq_some_iff.1 hl
        exact .inl ⟨(c.flushSeq, b), by simp [hready], ha⟩

theorem complete_fixes (c : Conn) (seq : ℕ) (b : Reply) :
    (c.complete seq b).awaitingSync = c.awaitingSync ∧
      (c.complete seq b).saslFailures = c.saslFailures :=
  ⟨(release_shrinks ..).awaitingSync, (release_shrinks ..).saslFailures⟩

theorem mem_complete {seq : ℕ} (h : a ∈ (c.complete seq b).queued) : a ∈ b ∨ a ∈ c.queued := by
  have ha := (release_shrinks ..).queued a h
  rw [mem_queued] at ha ⊢
  rcases ha with ⟨r, hr, ha⟩ | hout
  · rcases mem_cons.1 hr with rfl | hr
    · exact .inl ha
    · exact .inr (.inl ⟨r, mem_of_mem_filter hr, ha⟩)
  · exact .inr (.inr hout)

theorem flushUnlessHeld_shrinks (c : Conn) (n : ℕ) : Shrinks c (c.flushUnlessHeld n).1 := by
  unfold Conn.flushUnlessHeld
  split_ifs
  · refine ⟨rfl, rfl, fun a ha => ?_⟩
    rw [mem_queued] at ha ⊢
    exact ha.imp_right fun ⟨b, hb, _⟩ => absurd hb not_mem_nil
  · exact ⟨rfl, rfl, fun _ => id⟩
  · refine ⟨rfl, rfl, fun a ha => ?_⟩
    rw [mem_queued] at ha ⊢
    exact ha.imp_right fun ⟨b, hb, hab⟩ => ⟨b, mem_of_mem_drop hb, hab⟩

theorem mem_flush (h : a ∈ (c.flush n).2.flatten) : a ∈ c.queued := by
  obtain ⟨b, hb, ha⟩ := mem_flatten.1 h
  exact mem_queued.2 (.inr ⟨b, mem_of_mem_take hb, ha⟩)

/-- A flush writes acks only from a connection that is not held. -/
theorem mem_flushUnlessHeld (h : a ∈ (c.flushUnlessHeld n).2.flatten) :
    a ∈ c.queued ∧ c.awaitingSync = false := by
  unfold Conn.flushUnlessHeld at h
  split_ifs at h with hclosed hheld
  · cases h
  · cases h
  · exact ⟨mem_flush h, by simpa using hheld⟩

-- ==== steps

/-- Log ends, syncs and barriers that only move forward. -/
theorem Server.Holds.mono {s' : Server} (h : s.Holds c a)
    (hw : ∀ k, s.world.next k ≤ s'.world.next k) (hd : ∀ k, s.durable k ≤ s'.durable k)
    (hu : s.unsynced ⊆ s'.unsynced) (hc : c.awaitingSync = true → c'.awaitingSync = true) :
    s'.Holds c' a := by
  refine ⟨h.1.trans_le (hw _), ?_⟩
  rcases h.2 with hsync | ⟨hheld, howed⟩
  · exact .inl (hsync.trans_le (hd _))
  · exact .inr ⟨hc hheld, hu howed⟩

theorem Server.Holds.congr (h : s.Holds c a)
    (hc : c'.awaitingSync = c.awaitingSync) : s.Holds c' a :=
  h.mono (fun _ => le_rfl) (fun _ => le_rfl) (Finset.Subset.refl _) fun hheld => hc.trans hheld

/-- What the invariant says of a connection. -/
def Server.Fine (s : Server) (c : Conn) : Prop :=
  (∀ a ∈ c.queued, s.Holds c a) ∧ c.saslFailures < maxSaslFailures

theorem AckInv.fine (h : AckInv s) (hc : s.conns id = some c) : s.Fine c :=
  ⟨h.queued id c hc, h.failures id c hc⟩

/-- The connections of the invariant may be given in one. -/
theorem AckInv.withConns (h : AckInv s) {conns : ℕ → Option Conn} {sent : List Ack}
    (hsent : ∀ a ∈ sent, a.offset < s.durable a.key)
    (hc : ∀ id c, conns id = some c → s.Fine c) : AckInv { s with conns := conns, sent := sent } :=
  ⟨h.sane, h.durable, hsent, fun id c hid => (hc id c hid).1, fun id c hid => (hc id c hid).2⟩

theorem fine_update (h : AckInv s) (hc : s.Fine c) {id' : ℕ}
    (hid : update s.conns id (some c) id' = some c') : s.Fine c' := by
  rcases eq_or_ne id' id with rfl | hne
  · rw [update_self, Option.some.injEq] at hid
    exact hid ▸ hc
  · rw [update_of_ne hne] at hid
    exact h.fine hid

theorem ackInv_setConn (h : AckInv s) (hc : s.Fine c) : AckInv (s.setConn id c) :=
  h.withConns h.sent fun _ _ => fine_update h hc

theorem ackInv_dropConn (h : AckInv s) (id : ℕ) : AckInv (s.dropConn id) := by
  have hold : ∀ id' c', (s.dropConn id).conns id' = some c' → s.conns id' = some c' := by
    intro id' c' hc
    replace hc : update s.conns id none id' = some c' := hc
    by_cases hid : id' = id
    · simp [hid, update_self] at hc
    · rwa [update_of_ne hid] at hc
  exact h.withConns h.sent fun id' c' hc => h.fine (hold id' c' hc)

/-- Writing acks that are behind a sync. -/
theorem ackInv_wrote {r : Conn × List Reply} (h : AckInv s) (hc : s.Fine r.1)
    (hsent : ∀ a ∈ r.2.flatten, a.offset < s.durable a.key) : AckInv (s.wrote id r) :=
  h.withConns (forall_mem_append.2 ⟨h.sent, hsent⟩) fun _ _ => fine_update h hc

theorem Shrinks.fine (hs : Shrinks c c') (hc : s.Fine c) : s.Fine c' :=
  ⟨fun a ha => (hc.1 a (hs.queued a ha)).congr hs.awaitingSync, hs.saslFailures ▸ hc.2⟩

/-- An ack of a connection that is not held is behind a sync. -/
theorem Server.Holds.synced (h : s.Holds c a)
    (hc : c.awaitingSync = false) : a.offset < s.durable a.key := by
  rcases h.2 with h | ⟨hheld, -⟩
  · exact h
  · simp [hc] at hheld

theorem ackInv_flush (h : AckInv s) (hc : s.conns id = some c) (n : ℕ) :
    AckInv (s.wrote id (c.flushUnlessHeld n)) := by
  refine ackInv_wrote h ((flushUnlessHeld_shrinks c n).fine (h.fine hc)) fun a ha => ?_
  obtain ⟨hin, hheld⟩ := mem_flushUnlessHeld ha
  exact (h.queued id c hc a hin).synced hheld

/-- A reply whose acks can be waited for. -/
theorem ackInv_complete (h : AckInv s) (hc : s.Fine c)
    (hb : ∀ a ∈ b, s.Holds c a) (seq : ℕ) : AckInv (s.setConn id (c.complete seq b)) := by
  obtain ⟨hheld, hfail⟩ := complete_fixes c seq b
  refine ackInv_setConn h ⟨fun a ha => ?_, hfail ▸ hc.2⟩
  rcases mem_complete ha with ha | ha
  · exact (hb a ha).congr hheld
  · exact (hc.1 a ha).congr hheld

theorem ackInv_replied (h : AckInv s) (hc : s.Fine c)
    (hb : ∀ a ∈ b, s.Holds c a) (seq n : ℕ) : AckInv (s.replied id c seq b n) := by
  unfold replied
  dsimp only
  rw [(complete_fixes c seq b).2, if_neg (not_le.2 hc.2)]
  exact ackInv_complete h hc hb seq

-- ==== produce

variable {req : Request} {cat : Catalog} {env : Env} {unsynced : Finset Key} {out : Outcome}
  {p : Pending} {responses : Site → Response} {w w' : World}

/-- What a success acknowledges is in the log, and the partition is
reported as appended to if the request stored anything of it. -/
theorem handle_acked (hsane : Sane w) (hrun : handle env cat req w = (w', .ok out))
    (hresp : out.response = some responses) (hp : p ∈ req.pendings cat w)
    (hnone : (responses p.site).errorCode = none) :
    (∀ i v d, p.plan[i]? = some (v, d) → batchOffset w' p i d < w'.next p.key) ∧
    ((p.plan.any fun b => b.2.stores) = true → p.key ∈ out.appended) := by
  obtain ⟨hmoved, u, isolation, hu, hbuild⟩ := handle_ok hrun
  obtain ⟨resp, hecho, -, hsettled⟩ := build_settled hbuild
  have hp' : p ∈ req.pendings cat u := pendings_congr hu ▸ hp
  rw [hresp] at hecho
  split_ifs at hecho
  cases hecho
  rw [echoed_pending hp] at hnone
  obtain ⟨done, hset, -, hwrote⟩ := hsettled p hp' hnone
  have hbelow := handle_below hsane hrun
  have hledger := hmoved.ledger (cleared_ledger w)
  -- A stored batch is below the log end of its partition.
  have hstored : ∀ j v d, p.plan[j]? = some (v, d) → d.stores = true →
      w'.offsetOf ⟨p.site, j⟩ < w'.next p.key := by
    intro j v d hj hd
    obtain ⟨off, hoff⟩ := hset.stored j v d hj hd
    rw [hledger.offsetOf, hoff]
    exact hbelow.landed _ off p.key hoff (keyAt_pending hp)
  have hdec := pending_decided hp
  refine ⟨fun i v d hi => ?_, fun hany => hwrote (by rw [hset.wrote, hany])⟩
  cases d with
  | plain | append => exact hstored i v _ hi rfl
  | duplicate base =>
    have hrow := (decideBatch_duplicate (hdec i v _ hi)).1
    have hnext := (handle_sane env cat req hsane).2 p.key
    rw [hrun] at hnext
    exact (hsane.rows _ _ _ hrow).trans_le hnext
  | duplicateOf j =>
    obtain ⟨x, idem, hj⟩ := decideBatch_duplicateOf (hdec i v _ hi)
    rw [getElem?_take] at hj
    split_ifs at hj
    exact hstored j x _ hj rfl

theorem mem_acked (h : a ∈ acked w p) :
    ∃ i v d, p.plan[i]? = some (v, d) ∧ a = ⟨p.key, batchOffset w p i d⟩ := by
  obtain ⟨⟨⟨v, d⟩, i⟩, hb, rfl⟩ := mem_map.1 h
  exact ⟨i, v, d, mk_mem_zipIdx_iff_getElem?.1 hb, rfl⟩

/-- Serving a Produce request: the log moves on, the barrier goes up if
it has to, and what is to be answered can be waited for. -/
structure Served (r : Server × Conn × Disposition) : Prop where
  inv : AckInv r.1
  queued : ∀ a ∈ r.2.1.queued, r.1.Holds r.2.1 a
  failures : r.2.1.saslFailures < maxSaslFailures
  reply : ∀ b, r.2.2 = .reply b → ∀ a ∈ b, r.1.Holds r.2.1 a

theorem Served.fine {r : Server × Conn × Disposition} (h : Served r) : r.1.Fine r.2.1 :=
  ⟨h.queued, h.failures⟩

section

variable (h : AckInv s)
include h

/-- The log and the barrier move on, and no sync or write happens. -/
theorem AckInv.advance (hsane : Sane w) (hnext : ∀ k, s.world.next k ≤ w.next k)
    (hu : s.unsynced ⊆ unsynced) : AckInv { s with world := w, unsynced := unsynced } where
  sane := hsane
  durable k := (h.durable k).trans (hnext k)
  sent := h.sent
  queued i c hc a ha := (h.queued i c hc a ha).mono hnext (fun _ => le_rfl) hu id
  failures := h.failures

/-- The acks of a response can be waited for once the barrier is up. -/
theorem reported_holds (hres : s.Resends c cat req)
    (hrun : handle env cat req s.world = (w', .ok out)) (hresp : out.response = some responses)
    (hu : s.unsynced ⊆ unsynced) (howed : ∀ k ∈ out.appended, k ∈ unsynced ∧ c'.awaitingSync = true)
    (hc : c.awaitingSync = true → c'.awaitingSync = true) :
    ∀ a ∈ reported cat req s.world w' responses,
      Holds { s with world := w', unsynced := unsynced } c' a := by
  intro a ha
  obtain ⟨p, hp, ha⟩ := mem_flatMap.1 ha
  split_ifs at ha with hnone
  · obtain ⟨i, v, d, hi, rfl⟩ := mem_acked ha
    obtain ⟨hlog, happ⟩ := handle_acked h.sane hrun hresp hp hnone
    refine ⟨hlog i v d hi, ?_⟩
    by_cases hany : (p.plan.any fun b => b.2.stores) = true
    · obtain ⟨hin, hheld⟩ := howed _ (happ hany)
      exact .inr ⟨hheld, hin⟩
    -- Answered only from the window.
    have hno : ∀ (j : ℕ) (u : View) (e : Decision),
        p.plan[j]? = some (u, e) → e.stores = false := by
      intro j u e hj
      by_contra hst
      exact hany (any_eq_true.2 ⟨(u, e), mem_of_getElem? hj, by simpa using hst⟩)
    have hreply : req.acksNone = false := by
      by_contra hacks
      obtain ⟨-, u, isolation, -, hbuild⟩ := handle_ok hrun
      obtain ⟨resp, hecho, -⟩ := build_settled hbuild
      simp [hresp, if_pos (by simpa using hacks)] at hecho
    rcases hres with hacks | hres
    · simp [hreply] at hacks
    cases d with
    | plain | append => cases hno i v _ hi
    | duplicateOf j =>
      obtain ⟨x, idem, hj⟩ := decideBatch_duplicateOf (pending_decided hp i v _ hi)
      rw [getElem?_take] at hj
      split_ifs at hj
      cases hno j x _ hj
    | duplicate base =>
      have hbase : base ∈ p.plan.filterMap resent := mem_filterMap.2 ⟨_, mem_of_getElem? hi, rfl⟩
      rcases (hres p hp).resolve_left hany base hbase with hsync | hheld
      · exact .inl hsync
      · exact .inr ⟨hc hheld.1, hu hheld.2⟩
  · cases ha

theorem serveProduce_served (hc : s.Fine c) (hres : s.Resends c cat req) (env : Env) :
    Served (s.serveProduce c env cat req) := by
  obtain ⟨hsane, hnext⟩ := handle_sane env cat req h.sane
  -- A failed request leaves its bytes and takes its rows back.
  have hfailed : ∀ w, w = World.rollback s.world (handle env cat req s.world).1 →
      Served ({ s with world := w }, c, .failed) := by
    rintro w rfl
    refine ⟨h.advance ⟨hsane.nonneg, fun k pid r hr =>
      (h.sane.rows k pid r hr).trans_le (hnext k)⟩ hnext
      (Finset.Subset.refl _), fun a ha => ?_, hc.2, nofun⟩
    exact (hc.1 a ha).mono hnext (fun _ => le_rfl) (Finset.Subset.refl _) id
  unfold serveProduce
  rcases hrun : handle env cat req s.world with ⟨w', res⟩
  rw [hrun] at hsane hnext hfailed
  cases res with
  | err | raised => exact hfailed _ rfl
  | ok out =>
    have hu : s.unsynced ⊆ if out.appended ≠ [] then
        s.unsynced ∪ out.appended.toFinset else s.unsynced := by
      split_ifs
      · exact Finset.subset_union_left
      · exact Finset.Subset.refl _
    have hheld : c.awaitingSync = true → (if out.appended ≠ [] then
        { c with awaitingSync := true } else c).awaitingSync = true := by
      intro hheld
      split_ifs
      · rfl
      · exact hheld
    have howed : ∀ k ∈ out.appended, (k ∈ if out.appended ≠ [] then
          s.unsynced ∪ out.appended.toFinset else s.unsynced) ∧
        (if out.appended ≠ [] then { c with awaitingSync := true }
          else c).awaitingSync = true := by
      intro k hk
      rw [if_pos (ne_nil_of_mem hk), if_pos (ne_nil_of_mem hk)]
      exact ⟨Finset.mem_union_right _ (mem_toFinset.2 hk), rfl⟩
    refine ⟨h.advance hsane hnext hu, fun a ha => ?_, ?_, fun b hb => ?_⟩
    · refine Holds.mono (hc.1 a ?_) hnext (fun _ => le_rfl) hu hheld
      dsimp only at ha
      split_ifs at ha <;> exact ha
    · dsimp only
      split_ifs <;> exact hc.2
    cases hresp : out.response with
    | none =>
      simp only [hresp] at hb
      cases hb
    | some responses =>
      simp only [hresp] at hb
      cases hb
      exact reported_holds h hres hrun hresp hu howed hheld

-- ==== sync

/-- A pass of syncs: what was waited for is behind one, or is waited for
still. -/
theorem ackInv_sync (ok : Key → Bool) : AckInv (s.syncBeforeAck ok) := by
  let durable : Key → ℤ := fun k =>
    if k ∈ s.unsynced ∧ ok k = true then s.world.next k else s.durable k
  have hge : ∀ k, s.durable k ≤ durable k := by
    intro k
    show s.durable k ≤ if _ then _ else _
    split_ifs
    · exact h.durable k
    · exact le_rfl
  have hle : ∀ k, durable k ≤ s.world.next k := by
    intro k
    show (if _ then _ else _) ≤ _
    split_ifs
    · exact le_rfl
    · exact h.durable k
  -- A queued ack is behind a sync now unless its partition failed to.
  have hdone : ∀ id c a, s.conns id = some c → a ∈ c.queued →
      ok a.key = true ∨ a.key ∉ s.unsynced → a.offset < durable a.key := by
    intro id c a hc ha hok
    obtain ⟨hlog, hsync | ⟨-, howed⟩⟩ := h.queued id c hc a ha
    · exact hsync.trans_le (hge _)
    · show a.offset < if _ then _ else _
      rw [if_pos ⟨howed, hok.resolve_right fun hno => hno howed⟩]
      exact hlog
  have hsent : ∀ a ∈ s.sent, a.offset < durable a.key := fun a ha => (h.sent a ha).trans_le (hge _)
  unfold syncBeforeAck
  dsimp only
  split_ifs with hleft
  · -- Everything owed has synced: the barrier comes down.
    have hok : ∀ k, ok k = true ∨ k ∉ s.unsynced := by
      intro k
      by_cases hk : k ∈ s.unsynced
      · have := Finset.filter_eq_empty_iff.1 hleft hk
        exact .inl (by simpa using this)
      · exact .inr hk
    refine ⟨h.sane, hle, hsent, fun id c hc a ha => ?_, fun id c hc => ?_⟩
    · obtain ⟨c₀, hc₀, rfl⟩ := Option.map_eq_some_iff.1 hc
      exact ⟨(h.queued id c₀ hc₀ a ha).1, .inl (hdone id c₀ a hc₀ ha (hok _))⟩
    · obtain ⟨c₀, hc₀, rfl⟩ := Option.map_eq_some_iff.1 hc
      exact h.failures id c₀ hc₀
  · refine ⟨h.sane, hle, hsent, fun id c hc a ha => ?_, h.failures⟩
    obtain ⟨hlog, hwait⟩ := h.queued id c hc a ha
    refine ⟨hlog, ?_⟩
    rcases hwait with hsync | ⟨hheld, howed⟩
    · exact .inl (hsync.trans_le (hge _))
    · by_cases hok : ok a.key = true
      · exact .inl (hdone id c a hc ha (.inl hok))
      · exact .inr ⟨hheld, Finset.mem_filter.2 ⟨howed, by simpa using hok⟩⟩

-- ==== runs

/-- A connection closed with a flush had nothing held back. -/
theorem ackInv_closed (hq : ∀ a ∈ c.queued, s.Holds c a) (hheld : c.awaitingSync = false) (n : ℕ) :
    AckInv ((s.wrote id (c.flush n)).dropConn id) := by
  refine h.withConns (forall_mem_append.2 ⟨h.sent, fun a ha => ?_⟩) fun i c' hc => ?_
  · exact (hq a (mem_flush ha)).synced hheld
  · exact (ackInv_dropConn h id).fine ((congrFun (update_idem ..) i).symm.trans hc)

theorem ackInv_sasl (hc : s.conns id = some c) (n : ℕ) (fails : Bool) (hok : fails = true →
      c.saslFailures + 1 ≥ maxSaslFailures → c.awaitingSync = false) :
    AckInv (s.serveSasl id n c fails) := by
  have hf := h.failures id c hc
  let c' : Conn := { c with
    nextSeq := c.nextSeq + 1
    saslFailures := if fails then c.saslFailures + 1 else c.saslFailures }
  have hq : ∀ a ∈ c'.queued, s.Holds c' a := fun a ha =>
    (h.queued id c hc a ha).congr rfl
  show AckInv (s.replied id c' c.nextSeq [] n)
  by_cases hlimit : c'.saslFailures < maxSaslFailures
  · exact ackInv_replied h ⟨hq, hlimit⟩ (forall_mem_nil _) _ n
  -- The failure that closes: nothing is held then.
  have hfails : fails = true := by
    by_contra hno
    exact hlimit (by simpa [c', hno] using hf)
  have hheld : c.awaitingSync = false := by
    refine hok hfails ?_
    have : c'.saslFailures = c.saslFailures + 1 := if_pos hfails
    omega
  obtain ⟨hawait, hfail⟩ := complete_fixes c' c.nextSeq []
  unfold replied
  dsimp only
  rw [hfail, if_pos (not_lt.1 hlimit)]
  refine ackInv_closed h (fun a ha => ?_) (hawait.trans hheld) n
  exact (hq a ((mem_complete ha).resolve_left not_mem_nil)).congr hawait

theorem ackInv_newProduce (hc : s.conns id = some c)
    (hres : s.Resends c cat req) (n : ℕ) (env : Env) :
    AckInv (s.newProduce id n c env cat req) := by
  have hserved :=
    serveProduce_served (c := { c with nextSeq := c.nextSeq + 1 }) h (h.fine hc :) hres
    env
  unfold newProduce
  split
  · next s' c' b heq =>
      rw [heq] at hserved
      exact ackInv_replied hserved.inv hserved.fine (hserved.reply b rfl) _ n
  · next s' c' heq =>
      rw [heq] at hserved
      exact ackInv_complete hserved.inv hserved.fine (forall_mem_nil _) _
  · next s' c' heq =>
      rw [heq] at hserved
      exact ackInv_dropConn hserved.inv id

theorem ackInv_retryProduce (hc : s.conns id = some c)
    (hres : s.Resends c cat req) (seq : ℕ) (env : Env) :
    AckInv (s.retryProduce id seq c env cat req) := by
  have hserved := serveProduce_served h (h.fine hc) hres env
  unfold retryProduce
  split
  · next s' c' b heq =>
      rw [heq] at hserved
      exact ackInv_complete hserved.inv hserved.fine (hserved.reply b rfl) seq
  · next s' c' heq =>
      rw [heq] at hserved
      exact ackInv_complete hserved.inv hserved.fine (forall_mem_nil _) seq
  · next s' c' heq =>
      rw [heq] at hserved
      exact ackInv_dropConn hserved.inv id

theorem ackInv_onConn {f : Conn → Server} (hf : ∀ c, s.conns id = some c → AckInv (f c)) :
    AckInv (s.onConn id f) := by
  unfold onConn
  cases hc : s.conns id with
  | some c => exact hf c hc
  | none => exact h

theorem ackInv_step (op : Op) (hok : Covered s op) : AckInv (s.step op) := by
  cases op with
  | accept =>
    have hset : AckInv (s.setConn s.nextId {}) := ackInv_setConn h ⟨nofun, by decide⟩
    exact { hset with }
  | sync ok => exact ackInv_sync h ok
  | drop id => exact ackInv_dropConn h id
  | append k records =>
    have hnext : ∀ k', s.world.next k' ≤ update s.world.next k (s.world.next k + records) k' := by
      intro k'
      rcases eq_or_ne k' k with rfl | hk
      · rw [update_self]
        omega
      · rw [update_of_ne hk]
    exact h.advance ⟨fun k' => (h.sane.nonneg k').trans (hnext k'),
      fun k' pid r hr => (h.sane.rows k' pid r hr).trans_le (hnext k')⟩
      hnext (Finset.Subset.refl _)
  | flush id n => exact ackInv_onConn h fun c hc => ackInv_flush h hc n
  | produce id n env cat req =>
    refine ackInv_onConn h fun c hc => ?_
    exact ackInv_newProduce h hc (hok c hc) n env
  | retry id seq env cat req =>
    refine ackInv_onConn h fun c hc => ?_
    exact ackInv_retryProduce h hc (hok c hc) seq env
  | serve id n parks =>
    refine ackInv_onConn h fun c hc => ?_
    unfold serveOther
    split_ifs
    · exact ackInv_setConn h (h.fine hc :)
    · exact ackInv_replied (c := { c with nextSeq := c.nextSeq + 1 }) h (h.fine hc :)
        (forall_mem_nil _) _ n
  | unpark id seq =>
    exact ackInv_onConn h fun c hc => ackInv_complete h (h.fine hc) (forall_mem_nil _) seq
  | sasl id n fails =>
    exact ackInv_onConn h fun c hc => ackInv_sasl h hc n fails (hok c hc)
  | gate id n =>
    exact ackInv_onConn h fun c hc => ackInv_closed h (h.queued id c hc) (hok c hc) n
  | peerClosed id =>
    exact ackInv_onConn h fun c hc => ackInv_setConn h (h.fine hc :)

end

/-- What the worker starts with: windows and log ends as they are, some
of the log synced, no connection. -/
structure Boot where
  world : World
  durable : Key → ℤ
  sane : Sane world
  durable_le : ∀ k, durable k ≤ world.next k

def Server.start (b : Boot) : Server where
  conns _ := none
  nextId := 0
  unsynced := ∅
  world := b.world
  durable := b.durable
  sent := []

theorem ackInv_start (b : Boot) : AckInv (start b) :=
  ⟨b.sane, b.durable_le, nofun, nofun, nofun⟩

/-- In a run whose steps are all covered, every success is written to its
socket after a sync of its partition that began when the batch was in
the log. -/
theorem acks_after_sync (b : Boot) (ops : List Op)
    (h : EachStep Server.step (Server.start b) ops Covered) :
    Always Server.step (Server.start b) ops Synced := by
  have hinv : Always step (start b) ops AckInv :=
    Always.of_eachStep (fun s op hs hok => ackInv_step hs op hok) (ackInv_start b) h
  exact fun pre hpre => (hinv pre hpre).sent

-- ==== cases

/-- A partition without records. -/
def emptyBoot : Boot where
  world := ⟨fun _ _ => [], fun _ => 0, [], []⟩
  durable _ := 0
  sane := ⟨fun _ => le_rfl, fun _ _ _ hr => absurd hr List.not_mem_nil⟩
  durable_le _ := le_rfl

/-- The first batch of a producer, sent on a connection. -/
def firstBatch (id : ℕ) : Op := .produce id 0 allWell oneTopic (oneBatch (-1))

/-- Held, synced, then written; its resend on another connection is
behind the sync. -/
def syncedRun : List Op := [.accept, .accept, firstBatch 0, .flush 0 1, .sync fun _ => true,
    .flush 0 1, firstBatch 1, .flush 1 1]

theorem acks_after_sync_syncedRun :
    Always Server.step (Server.start emptyBoot) syncedRun Synced ∧
    (syncedRun.foldl Server.step (Server.start emptyBoot)).sent = [⟨oneKey, 0⟩, ⟨oneKey, 0⟩] :=
  ⟨acks_after_sync emptyBoot syncedRun (by decide +kernel), by decide +kernel⟩

/-- The resend reaches the worker before the sync: its connection is not
held, and is flushed between two of its requests. -/
def resendRun : List Op := [.accept, .accept, firstBatch 0, firstBatch 1, .flush 1 1]

/-- A batch resent on another connection is acked before its sync. -/
theorem resend_acked_unsynced :
    (resendRun.foldl Server.step (Server.start emptyBoot)).sent = [⟨oneKey, 0⟩] ∧
      (resendRun.foldl Server.step (Server.start emptyBoot)).durable oneKey = 0 ∧
      ¬ Synced (resendRun.foldl Server.step (Server.start emptyBoot)) := by
  decide +kernel

/-- Two batches of which the store takes the first: the partition failed,
so no sync is owed, however many passes go by. The resend of the first
batch is acknowledged. -/
example :
    let two : Request := { oneBatch (-1) with topics := [⟨"t",
      some ⟨1, by decide⟩, [⟨0, none, 122, [.ok (nextBatch (-1)), .ok (nextBatch 0)]⟩]⟩] }
    let env := { allWell with append := fun _ pos =>
      if pos.batch = 1 then .err (.io "No space left on device") else .ok }
    let run := [.accept, .produce 0 0 env oneTopic two, .flush 0 1,
      .sync fun _ => true, firstBatch 0, .flush 0 1]
    ¬ Synced (run.foldl Server.step (Server.start emptyBoot)) := by
  decide +kernel

/-- Three failed SASL steps behind a Produce request: the connection is
flushed and closed with its ack held back. -/
example :
    let run := [.accept, firstBatch 0, .sasl 0 9 true, .sasl 0 9 true, .sasl 0 9 true]
    ¬ Synced (run.foldl Server.step (Server.start emptyBoot)) := by
  decide +kernel

end Kafgres.Broker
