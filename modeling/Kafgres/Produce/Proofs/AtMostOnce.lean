/-
A Produce request appends each of its batches at most once, and a
success is true. `LANDED` agrees with the log whatever failed, so a batch
that landed is found again and only recorded.
-/
import Kafgres.Produce.Proofs.Pass

namespace Kafgres.Produce

open Storage Producer Fallible List Prog

variable {env : Env} {cat : Catalog} {req : Request} {p : Pending} {s t : World}

-- ==== every run

section Stays

variable {R : Motion World} {ps : List Pending} {r : Prop} {Q : Abandon → Prop}

theorem reserveAll_goes {P : AppendError → Prop} {S : Pending → Pos → Prop}
    (h : env.Postgres .shared P r) (hQ : ∀ e, P e → Q .partitionFailed)
    (hR : ∀ p ∈ ps, Allows env R p.key (S p)) (begun : List ℤ) (s : World) :
    Goes R Q r (reserveAll env ps begun) s := by
  induction ps generalizing begun s with
  | nil => exact .pure _
  | cons p rest ih =>
    exact .attempt_bind (reserveLoop_goes h (hR p (.head _)) _ _ _ _ s)
      (fun _ e _ he => .fail (hQ e he)) fun _ _ _ => ih (fun q hq => hR q (.tail _ hq)) _ _

variable (hR : ∀ p ∈ ps, Allows env R p.key p.Holds)

include hR in
theorem writeAll_goes (cat : Catalog) (h : env.Postgres .shared (fun _ => True) r)
    (happ : ∀ pos, env.append .shared pos = .raise → r)
    (hwm : ∀ site, env.highWatermark .shared site = .raise → r)
    (hls : ∀ site, env.logStartOffset .shared site = .raise → r) (ans : Answers) (s : World) :
    Goes R Q r (writeAll env cat ps ans) s := by
  induction ps generalizing ans s with
  | nil => exact .pure _
  | cons p rest ih =>
    have hrest : ∀ outcome t, Goes R Q r (do
        let ans ← finish env cat .shared p outcome ans
        writeAll env cat rest ans) t := fun outcome t =>
      .bind (finish_goes (hls _) outcome ans t) fun _ _ _ =>
        ih (fun q hq => hR q (.tail _ hq)) _ _
    exact .attempt_bind (writePartition_goes h (hR p (.head _))
        (fun j b hj hb => ⟨⟨rfl, b, hj, hb⟩, .of_raise (happ _)⟩) (.of_raise (hwm _)) s)
      (fun _ _ _ _ => hrest _ _) fun _ _ _ => hrest _ _

variable (hback : ∀ s t, R.rel s t → R.rel s (World.rollback s t))

include hR hback in
theorem tryAll_stays (ans : Answers) : Stays R (tryAll env cat ps ans) := by
  induction ps generalizing ans with
  | nil => exact .pure _
  | cons p rest ih =>
    exact .bind (tryPartition_stays (hR p (.head _))
        (fun _ b hj hb => ⟨rfl, b, hj, hb⟩) hback) fun _ => .bind (finish_stays R _ _) fun _ =>
        ih (fun q hq => hR q (.tail _ hq)) _

variable (hpend : ∀ p ∈ req.pendings cat s, Allows env R p.key p.Holds)

include hpend hback in
/-- A pass moves along what the partitions pending at its start allow. -/
theorem build_moves (isolation : Isolation) : R.rel s (build env cat req isolation s).1 := by
  unfold build
  rw [bind_of_ok (show read id s = (s, .ok s) from rfl)]
  cases isolation with
  | shared =>
    have any {α : Type} (fault : α → Prop) : ∀ a, fault a → True := fun _ _ => trivial
    exact (Stays.bind (fun s => (reserveAll_goes (env.postgres_any _) (Q := fun _ => True) (any _)
        hpend [] s).moves) fun _ =>
      .bind (fun s => (writeAll_goes hpend cat (Q := fun _ => True) (env.postgres_any _)
        (any _) (any _) (any _) _ s).moves) fun _ => .pure _ : Stays R _) s
  | perPartition =>
    exact (Stays.bind (tryAll_stays hpend hback _) fun _ => .pure _ : Stays R _) s

include hpend hback in
/-- So does the request: the savepoint put the windows back before the
second pass, which plans as the first did. -/
theorem passes_moves : R.rel s (passes env cat req s).1 := by
  refine (Goes.attempt_bind (.of_moves (Motion.atomically (build_moves hback hpend .shared)
    (hback s))) (fun t e herr _ => ?_) fun _ _ _ => .pure _ :
    Goes R (fun _ => True) True (passes env cat req) s).moves
  cases e with
  | fatal message => exact .fail trivial
  | partitionFailed =>
    have hsame : req.pendings cat t = req.pendings cat s :=
      pendings_congr (by rw [atomically_eq_err herr]; rfl)
    refine .attempt_bind (.of_moves (build_moves hback (hsame ▸ hpend) .perPartition))
      (fun _ e _ _ => ?_) fun _ _ _ => .pure _
    cases e with
    | fatal | partitionFailed => exact .fail trivial

end Stays

/-- What a request may do to the world: land batches it planned for the
store and the store takes, on their partitions. -/
abbrev requested (env : Env) (cat : Catalog) (req : Request) (w : World) : Motion World :=
  moves (fun _ => True) fun k pos =>
    ∃ p ∈ req.pendings cat w, p.key = k ∧ p.Holds pos ∧ env.Takes pos

variable {w : World} {done : Appended} {out : Outcome} {responses : Site → Response}

theorem requested_allows (hp : p ∈ req.pendings cat w) :
    Allows env (requested env cat req w) p.key p.Holds :=
  moves_allows trivial fun _ hpos htaken => ⟨p, hp, rfl, hpos, htaken⟩

theorem passes_requested (w : World) :
    (requested env cat req w).rel w.cleared (passes env cat req w.cleared).1 :=
  passes_moves (fun _ _ h => h.rollback) fun _ => requested_allows

theorem cleared_ledger (w : World) : Ledger w.cleared :=
  ⟨nodup_nil, fun pos off => ⟨fun h => (by cases h), fun ⟨k, h⟩ => (by cases h)⟩⟩

theorem handle_of_prelude (h : env.prelude = .ok) (w : World) :
    handle env cat req w = passes env cat req w.cleared := by
  have hpre : (call env.prelude id : Prog World String Unit) w = (w, .ok ()) := by rw [h]; rfl
  rw [handle, bind_of_ok hpre]
  rfl

/-- Whatever fails: the request has done nothing, or it moved the world
from where it was cleared. -/
theorem handle_moved (env : Env) (cat : Catalog) (req : Request)
    (w : World) :
    (handle env cat req w).1 = w ∨
      (requested env cat req w).rel w.cleared (handle env cat req w).1 := by
  cases hc : env.prelude with
  | ok =>
    rw [handle_of_prelude hc]
    exact .inr (passes_requested w)
  | err | raise =>
    left
    rw [handle, hc]
    rfl

-- ==== success

theorem Settled.after {u : World} (h : Settled p s u done) (hm : (others p).rel u t) :
    Settled p s t done := by
  have hland : ∀ i, t.landedAt ⟨p.site, i⟩ = u.landedAt ⟨p.site, i⟩ :=
    fun i => hm.landed _ fun _ hne => hne rfl
  have hat : t.at p.site = u.at p.site := by
    funext i
    rw [World.at, World.at, hland]
  refine ⟨⟨fun j v d hj hd => ?_, h.wrote, fun v d rest hp => ?_⟩, fun pid => ?_⟩
  · rw [hland]
    exact h.stored j v d hj hd
  · rw [hland]
    exact h.first v d rest hp
  · rw [hm.windows p.key fun hne => hne rfl, hat]
    exact h.windows pid

theorem Settled.before {u : World}
    (h : Settled p u t done) (hw : u.windows p.key = s.windows p.key) : Settled p s t done :=
  ⟨h.toReported, fun pid => by rw [h.windows, hw]⟩

/-- Reserving for a list of partitions is reserving for each. -/
theorem reserveAll_ok {ps : List Pending} {begun : List ℤ} {u : Unit}
    (hps : ps.Pairwise Pending.Apart) (h : reserveAll env ps begun s = (t, .ok u)) :
    (∀ p, (∀ q ∈ ps, q.Apart p) → (others p).rel s t) ∧
    ∀ p ∈ ps, ∀ pid, t.windows p.key pid = (planRows (fun _ => -1) pid p.plan 0).foldl record
        (s.windows p.key pid) := by
  induction ps generalizing begun s with
  | nil =>
    cases h
    exact ⟨fun p _ => (others p).refl _, fun p hp => absurd hp not_mem_nil⟩
  | cons q rest ih =>
    rw [pairwise_cons] at hps
    obtain ⟨s₁, a, hres, h₁⟩ := bind_eq_ok.1 h
    cases a with
    | error e => cases h₁
    | ok begun =>
      have hq := attempt_eq_ok.1 hres
      have hown : (own q).rel s s₁ := (reservePartition_stays (own_allows q) _).run hq
      obtain ⟨hframe, hwin⟩ := ih hps.2 h₁
      refine ⟨fun p hp => ?_, fun p hp pid => ?_⟩
      · exact (others p).trans (own_others (hp q (.head _)) hown)
          (hframe p fun x hx => hp x (.tail _ hx))
      rcases mem_cons.1 hp with rfl | hp
      · have hrest := hframe p fun x hx =>
          ⟨(hps.1 x hx).1.symm, (hps.1 x hx).2.symm⟩
        rw [hrest.windows p.key fun hne => hne rfl]
        exact reserveLoop_ok hq pid
      · rw [hwin p hp, hown.windows p.key (hps.1 p hp).2.symm]

/-- What an entry is answered before anything is written. -/
def Request.planned (cat : Catalog) (req : Request) (w : World) (site : Site) : Response :=
  match (req.entries cat).find? fun e => e.site = site with
  | some e => e.planned cat w
  | none => {}

/-- A pass that ended well. Only the responses of what it wrote are its
own, and a success among them is settled. -/
theorem build_settled {isolation : Isolation} (h : build env cat req isolation s = (t, .ok out)) :
    ∃ responses : Site → Response, (out.response = if req.acksNone then none
        else some (echoed (req.entries cat) responses)) ∧
      (∀ site, (∀ p ∈ req.pendings cat s, p.site ≠ site) →
        responses site = req.planned cat s site) ∧
      ∀ p ∈ req.pendings cat s, (responses p.site).errorCode = none → ∃ done, Settled p s t done ∧
          (responses p.site).baseOffset = done.baseOffset ∧
          (done.wrote = true → p.key ∈ out.appended) := by
  have hapart := pendings_apart cat req s
  obtain ⟨w, w', hread, h₁⟩ := bind_eq_ok.1 h
  cases hread
  cases isolation with
  | shared =>
    obtain ⟨s₁, u, hres, h₂⟩ := bind_eq_ok.1 h₁
    obtain ⟨s₂, ans, hwrite, h₃⟩ := bind_eq_ok.1 h₂
    cases h₃
    obtain ⟨-, hrows⟩ := reserveAll_ok hapart hres
    obtain ⟨hsites, -, -, hvisits⟩ := visit_all (F := writeAll env cat)
      (f := fun p => attempt (writePartition env .shared p))
      (fun _ => rfl) (fun _ _ _ => rfl)
      (fun p => .attempt (writePartition_stays (own_allows p) fun _ _ _ _ => rfl)) hapart hwrite
    refine ⟨ans.responses, rfl, hsites, fun p hp hnone => ?_⟩
    obtain ⟨u₁, u₂, outcome, hv⟩ := hvisits p hp
    obtain ⟨done, rfl, hbase⟩ := hv.success hnone
    refine ⟨done, (settled_of_reserved (fun pid => ?_)
      (attempt_eq_ok.1 hv.run)).after hv.after, hbase,
      hv.wrote done rfl⟩
    rw [hv.before.windows p.key fun hne => hne rfl]
    exact hrows p hp pid
  | perPartition =>
    obtain ⟨s₁, ans, htry, h₂⟩ := bind_eq_ok.1 h₁
    cases h₂
    obtain ⟨hsites, -, -, hvisits⟩ := visit_all (F := tryAll env cat) (f := tryPartition env)
      (fun _ => rfl) (fun _ _ _ => rfl)
      (fun p => tryPartition_stays (own_allows p) (fun _ _ _ _ => rfl)
        fun _ _ hm => hm.rollback) hapart htry
    refine ⟨ans.responses, rfl, hsites, fun p hp hnone => ?_⟩
    obtain ⟨u₁, u₂, outcome, hv⟩ := hvisits p hp
    obtain ⟨done, rfl, hbase⟩ := hv.success hnone
    exact ⟨done, ((tryPartition_ok hv.run).before
      (hv.before.windows p.key fun hne => hne rfl)).after hv.after, hbase,
      hv.wrote done rfl⟩

/-- The outcome of a request is that of a pass from the windows it was
sent against. -/
theorem handle_ok {w' : World} (h : handle env cat req w = (w', .ok out)) :
    (requested env cat req w).rel w.cleared w' ∧
    ∃ u isolation, u.windows = w.windows ∧ build env cat req isolation u = (w', .ok out) := by
  obtain ⟨w₁, u, hpre, h₁⟩ := bind_eq_ok.1 h
  obtain ⟨hpre, -⟩ := call_eq_ok.1 hpre
  rw [handle_of_prelude hpre] at h
  have hmoved : (requested env cat req w).rel w.cleared (passes env cat req w.cleared).1 :=
    passes_requested w
  rw [h] at hmoved
  refine ⟨hmoved, ?_⟩
  obtain ⟨w₂, a, hshared, h₂⟩ := bind_eq_ok.1 h
  cases a with
  | ok outcome =>
    cases h₂
    exact ⟨w.cleared, .shared, rfl, atomically_eq_ok.1 (attempt_eq_ok.1 hshared)⟩
  | error abandon =>
    cases abandon with
    | fatal message => cases h₂
    | partitionFailed =>
      -- The savepoint put the windows back.
      have hback := atomically_eq_err (attempt_eq_error.1 hshared)
      obtain ⟨w₃, a, heach, h₃⟩ := bind_eq_ok.1 h₂
      cases a with
      | ok outcome =>
        cases h₃
        exact ⟨w₂, .perPartition, by rw [hback]; rfl, attempt_eq_ok.1 heach⟩
      | error abandon =>
        cases abandon <;> cases h₃

/-- An entry answered with success is answered for a partition that was
written. -/
theorem echoed_success (hplanned : ∀ site, (∀ p ∈ req.pendings cat w, p.site ≠ site) →
      responses site = req.planned cat w site) {e : Entry} (he : e ∈ req.entries cat)
    (hnone : (echoed (req.entries cat) responses e.site).errorCode = none) :
    ∃ p ∈ req.pendings cat w, ∃ d ∈ req.entries cat, e.repeats d = true ∧ p.site = d.site ∧
      echoed (req.entries cat) responses e.site = responses p.site := by
  obtain ⟨d, hd, hdec, hself, hrep⟩ := decider_spec he
  have hecho : echoed (req.entries cat) responses e.site = responses d.site := by
    rw [echoed, find_entry he]
    exact congrArg responses hdec
  rw [hecho] at hnone
  by_cases hpend : ∃ p ∈ req.pendings cat w, p.site = d.site
  · obtain ⟨p, hp, hsite⟩ := hpend
    exact ⟨p, hp, d, hd, hrep, hsite, by rw [hecho, hsite]⟩
  -- Not written: then a check or planning refused it.
  exfalso
  rw [hplanned d.site fun p hp hs => hpend ⟨p, hp, hs⟩, Request.planned, find_entry hd] at hnone
  cases hgate : d.data.gate with
  | some code => simp [Entry.planned, hgate, failed] at hnone
  | none =>
    cases hkey : d.key with
    | none => simp [Entry.planned, hgate, hkey, failed] at hnone
    | some k =>
      cases hplan : d.plan cat w k with
      | ok plan =>
        exact hpend ⟨_, mem_pendings.2 ⟨d, hd, pending_of hgate hkey hplan hself⟩, rfl⟩
      | error err =>
        cases err <;>
          simp [Entry.planned, hgate, hkey, hplan, failed] at hnone

theorem echoed_pending (hp : p ∈ req.pendings cat w) :
    echoed (req.entries cat) responses p.site = responses p.site := by
  obtain ⟨e, he, hpe⟩ := mem_pendings.1 hp
  obtain ⟨hsite, -, -, -, -, hdec⟩ := pending_spec hpe
  rw [echoed, hsite, find_entry he]
  exact congrArg responses hdec

/-- Where a batch lies: in the log if the request stored it, where its
window has it if it is a resend of a retained batch. -/
def LiesAt (w w' : World) (p : Pending) (i : ℕ) (b : View × Decision) (off : ℤ) : Prop :=
  match b.2 with
  | .plain | .append _ => ⟨p.key, off, ⟨p.site, i⟩⟩ ∈ w'.log
  | .duplicate _ =>
    ⟨b.1.producerEpoch, b.1.baseSequence,
      incrementSequence b.1.baseSequence b.1.lastOffsetDelta, off⟩ ∈ w.windows p.key b.1.producerId
  | .duplicateOf _ => False

/-- A success holds: the windows, the log and the answer agree. -/
structure Truthful (w w' : World) (p : Pending) (base : ℤ) : Prop where
  /-- Every stored batch is in the log of its partition. -/
  stored : ∀ i v d, p.plan[i]? = some (v, d) → d.stores = true →
    ⟨p.key, w'.offsetOf ⟨p.site, i⟩, ⟨p.site, i⟩⟩ ∈ w'.log
  /-- The windows are the old ones with each append recorded where its
  bytes lie. -/
  windows : ∀ pid, w'.windows p.key pid
    = (planRows (fun i => w'.offsetOf ⟨p.site, i⟩) pid p.plan 0).foldl record (w.windows p.key pid)
  /-- A row of an append has the offset of its bytes. -/
  rows : ∀ i v idem, p.plan[i]? = some (v, .append idem) →
    ∀ row ∈ w'.windows p.key idem.producerId, row.epoch = idem.epoch →
      row.firstSeq = idem.firstSeq → row.lastSeq = idem.lastSeq →
      row.baseOffset = w'.offsetOf ⟨p.site, i⟩
  /-- The base offset is where the first batch lies. -/
  first : ∀ b rest, p.plan = b :: rest → LiesAt w w' p 0 b base

/-- The log has a batch under the key of its entry. -/
theorem log_of_landed (hp : p ∈ req.pendings cat w) (hledger : Ledger t)
    (hlog : ∀ x ∈ t.log, ∃ e ∈ req.entries cat,
      e.key = some x.key ∧ e.site = x.pos.site) {i : ℕ} {off : ℤ}
    (h : t.landedAt ⟨p.site, i⟩ = some off) : ⟨p.key, off, ⟨p.site, i⟩⟩ ∈ t.log := by
  obtain ⟨k, hin⟩ := (hledger.landed _ _).1 h
  obtain ⟨e, he, hkey, hsite⟩ := hlog _ hin
  obtain ⟨d, hd, hpd⟩ := mem_pendings.1 hp
  obtain ⟨hps, hpk, -⟩ := pending_spec hpd
  have heq : e = d := entries_site_inj he hd (by rw [hsite, ← hps])
  subst heq
  rw [hpk] at hkey
  cases hkey
  exact hin

theorem Settled.truthful (hp : p ∈ req.pendings cat w)
    (hledger : Ledger t) (hlog : ∀ x ∈ t.log, ∃ e ∈ req.entries cat,
      e.key = some x.key ∧ e.site = x.pos.site) (h : Settled p w t done) :
    Truthful w t p done.baseOffset := by
  have hdec := pending_decided hp
  have hoff : (fun i => t.offsetOf ⟨p.site, i⟩) = t.at p.site :=
    funext fun i => hledger.offsetOf _
  have hwin : ∀ pid, t.windows p.key pid
      = (planRows (fun i => t.offsetOf ⟨p.site, i⟩) pid p.plan 0).foldl
        record (w.windows p.key pid) := by
    intro pid
    rw [hoff]
    exact h.windows pid
  refine ⟨fun i v d hi hd => ?_, hwin, fun i v idem hi row hrow he hf hl => ?_, fun b rest hb => ?_⟩
  · obtain ⟨off, hoff⟩ := h.stored i v d hi hd
    rw [hledger.offsetOf, hoff]
    exact log_of_landed hp hledger hlog hoff
  · -- The append was put under its first sequence, so the row was put.
    rw [hwin] at hrow
    have hput : idem.row (t.offsetOf ⟨p.site, i⟩) ∈
        planRows (fun i => t.offsetOf ⟨p.site, i⟩) idem.producerId
          p.plan 0 := mem_planRows.2 ⟨i, v, idem, hi, rfl, rfl⟩
    rcases Recency.mem_puts hrow with hrow | ⟨-, hno⟩
    · obtain ⟨j, u, q, hj, hq, rfl⟩ := mem_planRows.1 hrow
      cases hdec.same_iff hj hi hq ⟨he, hf, hl⟩
      rfl
    · exact (hno (hf ▸ mem_map_of_mem hput)).elim
  · obtain ⟨v, d⟩ := b
    rw [hb] at hdec
    obtain ⟨hstored, hdup⟩ := h.first v d rest hb
    cases d with
    | plain | append => exact log_of_landed hp hledger hlog (hstored rfl)
    | duplicate base =>
      rw [hdup base rfl]
      exact (decideBatch_duplicate hdec.head).1
    | duplicateOf j => exact decideBatch_nil hdec.head

/-- For any request and any pattern of errors: no batch of the request is
in the log twice, and every entry answered with success is answered
truly. -/
theorem produce_at_most_once (env : Env) (cat : Catalog) (req : Request) (w : World) :
    let start : World := { w with log := [] }
    let w' := (handle env cat req start).1
    (w'.log.map LogEntry.pos).Nodup ∧
    ∀ out responses, (handle env cat req start).2 = .ok out → out.response = some responses →
      ∀ e ∈ req.entries cat, (responses e.site).errorCode = none →
        ∃ p ∈ req.pendings cat start, ∃ d ∈ req.entries cat, e.repeats d = true ∧ p.site = d.site ∧
          Truthful start w' p (responses e.site).baseOffset := by
  intro start w'
  have hlog : (requested env cat req start).rel start.cleared w' → ∀ x ∈ w'.log,
      ∃ e ∈ req.entries cat, e.key = some x.key ∧ e.site = x.pos.site := by
    intro hmoved x hx
    obtain ⟨q, hq, hkey, hpos, -⟩ := (hmoved.log x hx).resolve_left not_mem_nil
    obtain ⟨e, he, hqe⟩ := mem_pendings.1 hq
    obtain ⟨hsite, hekey, -⟩ := pending_spec hqe
    exact ⟨e, he, hkey ▸ hekey, hsite.symm.trans hpos.1.symm⟩
  refine ⟨?_, fun out responses hout hresp e he hnone => ?_⟩
  · rcases handle_moved env cat req start with heq | hmoved
    · rw [show w' = start from heq]
      exact nodup_nil
    · exact (hmoved.ledger (cleared_ledger start)).nodup
  obtain ⟨hmoved, u, isolation, hu, hbuild⟩ :=
    handle_ok (show handle env cat req start = (w', .ok out) from Prod.ext rfl hout)
  obtain ⟨resp, hecho, hplanned, hsettled⟩ := build_settled hbuild
  rw [hresp] at hecho
  split_ifs at hecho
  cases hecho
  obtain ⟨p, hp, d, hd, hrep, hsite, heq⟩ := echoed_success hplanned he hnone
  rw [heq] at hnone ⊢
  obtain ⟨done, hset, hbase, -⟩ := hsettled p hp hnone
  have hp' : p ∈ req.pendings cat start := pendings_congr hu ▸ hp
  refine ⟨p, hp', d, hd, hrep, hsite, ?_⟩
  rw [hbase]
  exact (hset.before (by rw [hu])).truthful hp' (hmoved.ledger (cleared_ledger start)) (hlog hmoved)

-- ==== a case

/-- One partition, one producer, one batch after sequence `seq`. -/
def nextBatch (seq : ℤ) : View := ⟨7, 0, seq + 1, 0, false, false, le_rfl⟩

def oneTopic : Catalog where
  nameOf _ := "t"
  epochStart _ := 0
  verify _ _ _ := .added
  logStart _ := 0

def oneKey : Key := ⟨1, 0, Key.one_ne_zero⟩

def oneBatch (seq : ℤ) : Request where
  topics := [⟨"t", some ⟨1, oneKey.topic_ne_zero⟩, [⟨0, none, 61, [.ok (nextBatch seq)]⟩]⟩]
  acksNone := false

/-- The producer has sent sequences 0 to `seq`, one to a batch, and the
window has the last rows of them. -/
def sentUpTo (seq : ℕ) : World where
  windows _ pid := if pid = 7 then ((List.range (seq + 1)).map fun i =>
    (⟨0, i, i, i⟩ : Retained)).foldl record [] else []
  next _ := seq + 1
  log := []
  landed := []

def allWell : Env where
  prelude := .ok
  record _ _ := .ok
  beginOrContinue _ _ := .ok
  registerTxnPartition _ _ := .ok
  append _ _ := .ok
  stamp _ _ := .ok
  stampTxnPartition _ _ := .ok
  release _ _ := .ok
  highWatermark _ _ := .ok
  logStartOffset _ _ := .ok

/-- A stamp that unwinds after the bytes are down: the second pass finds
them and appends nothing. -/
example :
    let env := { allWell with
      stamp := fun n _ => if n = .shared then .raise else .ok }
    let w' := (handle env oneTopic (oneBatch 2) (sentUpTo 2)).1
    w'.log = [⟨oneKey, 3, ⟨(0, 0), 0⟩⟩] ∧ (w'.windows oneKey 7).getLast? = some ⟨0, 3, 3, 3⟩ := by
  decide +kernel

end Kafgres.Produce
