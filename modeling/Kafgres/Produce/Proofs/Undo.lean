/-
What a failed append leaves in the producer's window. Reserving is lossy:
it prunes the oldest rows and overwrites a row with the same first
sequence, and a release only deletes.
-/
import Kafgres.Produce.Proofs.AtMostOnce

namespace Kafgres.Produce

open Storage Producer Fallible List Prog

variable {env : Env} {cat : Catalog} {req : Request} {n : Try}
  {p : Pending} {s t : World} {e : StoreError} {i : ℕ}

/-- No Postgres error: every statement succeeds and nothing unwinds. The
store may still answer with errors. -/
structure Env.Calm (env : Env) : Prop where
  prelude : env.prelude = .ok
  postgres : env.Postgres .shared (fun _ => False) False
  append : ∀ pos, env.append .shared pos ≠ .raise
  highWatermark : ∀ site, env.highWatermark .shared site ≠ .raise
  logStartOffset : ∀ site, env.logStartOffset .shared site ≠ .raise

/-- The store refuses batch `i`, the first one it refuses. -/
structure FailsAt (env : Env) (p : Pending) (i : ℕ) (e : StoreError) :
    Prop where
  stored : ∃ v d, p.plan[i]? = some (v, d) ∧ d.stores = true
  before : ∀ j < i, env.append .shared ⟨p.site, j⟩ = .ok
  fails : env.append .shared ⟨p.site, i⟩ = .err e

/-- The batches from `i` on left no trace: none of them shares a first
sequence with the rows they were reserved after, and the window had room
for all of them, or held nothing. -/
def Undoable (w : Window) (plan : Plan) (i : ℕ) (pid : ℤ) : Prop :=
  let kept := (planRows (fun _ => -1) pid (plan.take i) 0).foldl record w
  let lost := planRows (fun _ => -1) pid (plan.drop i) i
  (∀ b ∈ lost, b.firstSeq ∉ kept.map Retained.firstSeq) ∧
    (kept = [] ∨ kept.length + (lost.map Retained.firstSeq).toFinset.card ≤ retainedBatches)

instance (w : Window) (plan : Plan) (i : ℕ) (pid : ℤ) : Decidable (Undoable w plan i pid) := by
  unfold Undoable
  infer_instance

-- ==== one partition

theorem writeLoop_append (pre post : Plan) (i : ℕ) (acc : Written) :
    writeLoop env n p (pre ++ post) i acc = (do
      let acc ← writeLoop env n p pre i acc
      writeLoop env n p post (i + pre.length) acc) := by
  induction pre generalizing i acc with
  | nil => rfl
  | cons b pre ih =>
    have hlen : i + (b :: pre).length = i + 1 + pre.length := by
      rw [length_cons]
      omega
    obtain ⟨v, d⟩ := b
    rw [cons_append, hlen]
    cases hd : d.stores with
    | true =>
      rw [writeLoop_cons_stored hd, writeLoop_cons_stored hd, bind_assoc]
      congr 1
      funext off
      exact ih _ _
    | false =>
      cases d with
      | append | plain => cases hd
      | duplicate | duplicateOf => exact ih _ _

/-- A batch the store refuses: its rows and those after it are
released. -/
theorem writeBatch_fails (hdb : env.Postgres n (fun _ => False) False)
    (hnew : s.landedAt ⟨p.site, i⟩ = none) (hfail : env.append n ⟨p.site, i⟩ = .err e) (v : View)
    (idem : Option Idem) :
    ∃ t, writeBatch env n p i v idem s = (t, .err (.store e)) ∧
    releaseReservations env n p i s = (t, .ok ()) := by
  obtain ⟨t, u, hrel⟩ : ∃ t u, releaseReservations env n p i s = (t, .ok u) :=
    (releaseLoop_goes hdb (own_allows p) (p.plan.drop i) i s).exists_ok
  refine ⟨t, ?_, hrel⟩
  have hstore : storeBatch env n p.key ⟨p.site, i⟩ v s = (s, .err (.store e)) := by
    unfold storeBatch
    rw [bind_of_ok (show read _ s = (s, .ok _) from rfl), hnew]
    exact bind_of_err (by rw [hfail]; rfl)
  unfold writeBatch
  rw [bind_of_ok (attempt_eq_error.2 hstore)]
  exact bind_of_ok hrel

/-- A partition whose batch `i` the store refuses. -/
theorem writePartition_fails (off : ℕ → ℤ) (hdb : env.Postgres .shared (fun _ => False) False)
    (hfail : FailsAt env p i e) (hnew : ∀ j, s.landedAt ⟨p.site, j⟩ = none) :
    ∃ t, writePartition env .shared p s = (t, .err (.store e)) ∧
      ∀ pid, t.windows p.key pid = releaseAll (stampAll (s.windows p.key pid)
            (planRows (t.at p.site) pid (p.plan.take i) 0))
          (planRows off pid (p.plan.drop i) i) := by
  obtain ⟨v, d, hi, hd⟩ := hfail.stored
  obtain ⟨hlt, hget⟩ := List.getElem?_eq_some_iff.1 hi
  have hlen : (p.plan.take i).length = i := by
    rw [List.length_take]
    omega
  -- The batches before it are written.
  have hgoes := writeLoop_goes hdb (p := p) (moves_allows (K := fun _ => True)
      (A := fun _ pos => pos.batch < i) (S := fun pos => pos.batch < i) trivial fun _ h _ => h)
    (p.plan.take i) 0 {} (fun j _ hj _ => by
      have hlt := (List.getElem?_eq_some_iff.1 hj).1
      rw [Nat.zero_add]
      exact ⟨show j < i by omega, by rw [hfail.before j (by omega)]; trivial⟩) s
  obtain ⟨u, r, hpre⟩ := hgoes.exists_ok
  have hwrote := writeLoop_ok hpre
  have hnone : u.landedAt ⟨p.site, i⟩ = none := by
    rw [(hgoes.run hpre).landed _ fun _ h => absurd h (lt_irrefl i), hnew]
  -- Batch `i` is refused, and everything from it on released.
  obtain ⟨t, hbatch, hrel⟩ := writeBatch_fails hdb hnone hfail.fails v d.idem
  refine ⟨t, bind_of_err ?_, fun pid => ?_⟩
  · have hsplit : p.plan = p.plan.take i ++ (v, d) :: p.plan.drop (i + 1) := by
      rw [← hget, List.getElem_cons_drop, List.take_append_drop]
    rw [hsplit, writeLoop_append, bind_of_ok hpre, hlen, Nat.zero_add,
      writeLoop_cons_stored hd]
    exact bind_of_err hbatch
  · -- Releasing lands nothing.
    have hmoved := (releaseLoop_goes hdb (moves_allows (K := fun _ => True) (A := fun _ _ => False)
      (S := fun _ => False) trivial fun _ h _ => h) (p.plan.drop i) i u).run hrel
    have hat : t.at p.site = u.at p.site := by
      funext j
      rw [World.at, World.at, hmoved.landed _ fun _ h => h]
    rw [releaseLoop_ok off hrel, hwrote.windows, hat]

/-- Batches on the two sides of `i` are different batches. -/
theorem planRows_distinct {input : PlanInput} {plan : Plan}
    (h : Decided input plan) (off off' : ℕ → ℤ) (i : ℕ) (pid : ℤ) :
    ∀ a ∈ planRows off pid (plan.take i) 0, ∀ b ∈ planRows off' pid (plan.drop i) i,
        ¬ (a.epoch = b.epoch ∧ a.firstSeq = b.firstSeq ∧ a.lastSeq = b.lastSeq) := by
  intro a ha b hb hsame
  have hidem : ∀ (off : ℕ → ℤ) (l : Plan) (j : ℕ) (r : Retained),
      r ∈ planRows off pid l j → ∃ q ∈ idems l pid, q.row (-1) = r.unstamped := by
    intro off l j r hr
    have hun := mem_map_of_mem (f := Retained.unstamped) hr
    rw [planRows_unstamped, planRows_const] at hun
    exact mem_map.1 hun
  obtain ⟨q, hq, hqa⟩ := hidem _ _ _ _ ha
  obtain ⟨q', hq', hqb⟩ := hidem _ _ _ _ hb
  have hpair := h.older pid
  rw [← take_append_drop i plan, idems, filterMap_append] at hpair
  refine ((pairwise_append.1 hpair).2.2 q hq q' hq').2 ?_
  cases a
  cases b
  cases hqa
  cases hqb
  exact hsame

-- ==== the request

/-- Reserving lands nothing. -/
theorem reserveAll_landed {ps : List Pending} {begun : List ℤ} {u : Unit}
    (h : reserveAll env ps begun s = (t, .ok u)) : t.landed = s.landed := by
  have hR : ∀ p ∈ ps, Allows env (.leaves World.landed) p.key fun _ => False := fun _ _ =>
    ⟨fun _ _ _ => rfl, fun _ _ _ _ _ _ _ => rfl, fun _ _ _ => rfl, fun _ _ _ hS _ _ => hS.elim⟩
  exact (reserveAll_goes (env.postgres_any _) (Q := fun _ => True) (fun _ => id) hR begun s).run h

/-- Without Postgres errors the shared pass is the request. -/
theorem handle_calm (cat : Catalog) (req : Request) (hcalm : env.Calm) (w : World) :
    ∃ s₁ s₂ ans ans', reserveAll env (req.pendings cat w) [] w.cleared = (s₁, .ok ()) ∧
      writeAll env cat (req.pendings cat w) ans s₁ = (s₂, .ok ans') ∧
      (handle env cat req w).1 = s₂ := by
  have hR : ∀ p ∈ req.pendings cat w, Allows env (requested env cat req w) p.key p.Holds :=
    fun _ => requested_allows
  obtain ⟨s₁, u, hres⟩ := (reserveAll_goes hcalm.postgres (fun _ => id) hR [] w.cleared).exists_ok
  obtain ⟨s₂, ans', hwrite⟩ := (writeAll_goes hR cat (hcalm.postgres.mono fun _ h => h.elim)
    hcalm.append hcalm.highWatermark hcalm.logStartOffset
    { responses := req.planned cat w } s₁).exists_ok
  refine ⟨s₁, s₂, _, ans', hres, hwrite, ?_⟩
  obtain ⟨out, hbuild⟩ : ∃ out, build env cat req .shared w.cleared = (s₂, .ok out) :=
    ⟨_, (bind_of_ok (show read id w.cleared = (_, .ok _)
      from rfl)).trans ((bind_of_ok hres).trans (bind_of_ok hwrite))⟩
  rw [handle_of_prelude hcalm.prelude, passes, bind_of_ok
    (attempt_eq_ok.2 (atomically_eq_ok.2 hbuild))]
  rfl

/-- The store refuses batch `i` of a partition: the producer's window is
the one with only the batches before `i` recorded if and only if the
others left no trace. -/
theorem failed_append_window_iff {i : ℕ} {e : StoreError} {w : World}
    (hp : p ∈ req.pendings cat w) (hcalm : env.Calm) (hfail : FailsAt env p i e) (pid : ℤ)
    (hnodup : ((w.windows p.key pid).map Retained.firstSeq).Nodup)
    (hlen : (w.windows p.key pid).length ≤ retainedBatches) :
    let w' := (handle env cat req w).1
    w'.windows p.key pid = (planRows (fun j => w'.offsetOf ⟨p.site, j⟩) pid
            (p.plan.take i) 0).foldl record (w.windows p.key pid) ↔
      Undoable (w.windows p.key pid) p.plan i pid := by
  intro w'
  have hapart := pendings_apart cat req w
  obtain ⟨s₁, s₂, ans, ans', hres, hwrite, hw'⟩ := handle_calm cat req hcalm w
  obtain ⟨-, hrows⟩ := reserveAll_ok hapart hres
  obtain ⟨-, -, -, hvisits⟩ := visit_all (F := writeAll env cat)
    (f := fun p => attempt (writePartition env .shared p))
    (fun _ => rfl) (fun _ _ _ => rfl)
    (fun p => .attempt (writePartition_stays (own_allows p) fun _ _ _ _ => rfl)) hapart hwrite
  obtain ⟨u₁, u₂, outcome, hv⟩ := hvisits p hp
  -- Nothing of the entry has landed when it is visited.
  have hnew : ∀ j, u₁.landedAt ⟨p.site, j⟩ = none := by
    intro j
    rw [hv.before.landed _ fun _ h => h rfl, World.landedAt, reserveAll_landed hres]
    rfl
  obtain ⟨t, hrun, hwin⟩ := writePartition_fails (fun _ => -1) hcalm.postgres hfail hnew
  obtain ⟨rfl, -⟩ := Prod.mk.inj (hv.run.symm.trans (attempt_eq_error.2 hrun))
  -- The window is the one with the landed batches stamped and the lost
  -- ones released.
  have hledger : Ledger w' := by
    rw [show w' = _ from congrArg Prod.fst (handle_of_prelude hcalm.prelude w)]
    exact (passes_requested w).ledger (cleared_ledger w)
  have hoff : (fun j => w'.offsetOf ⟨p.site, j⟩) = u₂.at p.site := by
    funext j
    rw [hledger.offsetOf, World.at, show w' = s₂ from hw', hv.after.landed _ fun _ h => h rfl]
  have hundone : w'.windows p.key pid = undone (w.windows p.key pid)
      (planRows (u₂.at p.site) pid (p.plan.take i) 0)
      (planRows (fun _ => -1) pid (p.plan.drop i) i) := by
    rw [show w' = s₂ from hw', hv.after.windows p.key fun h => h rfl, hwin,
      hv.before.windows p.key fun h => h rfl, hrows p hp, undone,
      map_append, planRows_unstamped, planRows_unstamped]
    obtain ⟨v, d, hi, -⟩ := hfail.stored
    rw [planRows_take_drop _ _ (List.getElem?_eq_some_iff.1 hi).1.le]
    rfl
  rw [hoff, hundone, undone_iff hnodup hlen (planRows_distinct (pending_decided hp) _ _ i pid)]
  unfold Undoable keptFrom
  rw [planRows_unstamped]

-- ==== a case

def diskFull : Env :=
  { allWell with append := fun _ _ => .err (.io "No space left on device") }

theorem diskFull_calm : diskFull.Calm :=
  ⟨rfl, ⟨fun _ => trivial, fun _ => trivial, fun _ => trivial,
    fun _ => trivial, fun _ => trivial, fun _ => trivial⟩,
    fun _ h => (by cases h), fun _ h => (by cases h),
    fun _ h => (by cases h)⟩

/-- The partition of `oneBatch`, planned. -/
def onePending (seq : ℤ) : Pending where
  site := (0, 0)
  key := oneKey
  index := 0
  size := 61
  plan := [(nextBatch seq, .append (idemOf (nextBatch seq) false))]

theorem diskFull_failsAt (seq : ℤ) :
    FailsAt diskFull (onePending seq) 0 (.io "No space left on device") :=
  ⟨⟨_, _, rfl, rfl⟩, fun j hj => absurd hj (Nat.not_lt_zero j), rfl⟩

/-- A window with room is as it was. -/
theorem failed_append_after_three :
    (handle diskFull oneTopic (oneBatch 2) (sentUpTo 2)).1.windows oneKey 7
      = (sentUpTo 2).windows oneKey 7 :=
  (failed_append_window_iff (p := onePending 2) (by decide) diskFull_calm
    (diskFull_failsAt 2) 7 (by decide) (by decide)).2 (by decide)

/-- A full window has lost its oldest batch: its resend is no longer
recognised. -/
theorem failed_append_forgets :
    onePending 4 ∈ (oneBatch 4).pendings oneTopic (sentUpTo 4) ∧
    (sentUpTo 4).windows oneKey 7
      = [⟨0, 0, 0, 0⟩, ⟨0, 1, 1, 1⟩, ⟨0, 2, 2, 2⟩, ⟨0, 3, 3, 3⟩, ⟨0, 4, 4, 4⟩] ∧
    (handle diskFull oneTopic (oneBatch 4) (sentUpTo 4)).1.windows oneKey 7
      = [⟨0, 1, 1, 1⟩, ⟨0, 2, 2, 2⟩, ⟨0, 3, 3, 3⟩, ⟨0, 4, 4, 4⟩] ∧
    check ((sentUpTo 4).windows oneKey 7) 0 0 0 0 = .duplicate 0 ∧
    check ((handle diskFull oneTopic (oneBatch 4)
      (sentUpTo 4)).1.windows oneKey 7) 0 0 0 0 = .outOfOrder 5 0 := by
  decide +kernel

end Kafgres.Produce
