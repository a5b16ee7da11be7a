/-
The windows a partition's programs leave when they ended well.
-/
import Kafgres.Produce.Proofs.Write

namespace Kafgres.Produce

open Storage Producer Fallible List Function Prog

variable {env : Env} {n : Try} {k : Key} {site : Site} {p : Pending} {s t : World}

/-- Where a batch of the entry landed. -/
def World.at (w : World) (site : Site) (i : ℕ) : ℤ := (w.landedAt ⟨site, i⟩).getD (-1)

/-- The window identity a stored batch is written with. -/
def Decision.idem : Decision → Option Idem
  | .append idem => some idem
  | _ => none

theorem onWindow_windows (w : World) (k : Key) (q pid : ℤ) (f : Window → Window) :
    (w.onWindow k q f).windows k pid
      = if q = pid then f (w.windows k pid) else w.windows k pid := by
  show update w.windows k _ k pid = _
  rw [update_self]
  rcases eq_or_ne q pid with rfl | h
  · rw [if_pos rfl, update_self]
  · rw [if_neg h, update_of_ne (Ne.symm h)]

/-- Rewriting one append's row, seen from any producer. -/
theorem onWindow_row (op : Window → Retained → Window) (w : World) (k : Key) (v : View)
    (idem : Idem) (off pid : ℤ) :
    (w.onWindow k idem.producerId fun rows => op rows (idem.row off)).windows k pid
      = ((idemFor pid (v, .append idem)).map fun p => p.row off).toList.foldl op
        (w.windows k pid) := by
  rw [onWindow_windows]
  by_cases h : idem.producerId = pid <;> simp [idemFor, h]

-- ==== reserve

theorem registerTxn_ok {pos : Pos} {idem : Idem} {registered begun : List ℤ} {r : List ℤ × List ℤ}
    (h : registerTxn env n pos idem registered begun s = (t, .ok r)) : t = s :=
  (registerTxn_goes (R := .leaves id) (env.postgres_any n) pos idem registered begun s).run h

/-- Reserving records each append without an offset. -/
theorem reserveLoop_ok {plan : Plan} {i : ℕ} {registered begun b : List ℤ}
    (h : reserveLoop env n k site plan i registered begun s = (t, .ok b)) (pid : ℤ) :
    t.windows k pid = (planRows (fun _ => -1) pid plan i).foldl record (s.windows k pid) := by
  induction plan generalizing i registered begun s with
  | nil =>
    cases h
    rfl
  | cons x plan ih =>
    obtain ⟨v, d⟩ := x
    rw [planRows_cons, foldl_append]
    cases d with
    | append idem =>
      obtain ⟨s₁, u, hcall, h₁⟩ := bind_eq_ok.1 h
      obtain ⟨s₂, u, hrec, h₂⟩ := bind_eq_ok.1 h₁
      obtain ⟨s₃, r, hreg, h₃⟩ := bind_eq_ok.1 h₂
      obtain ⟨-, rfl⟩ := call_eq_ok.1 hcall
      cases hrec
      rw [ih h₃, registerTxn_ok hreg, onWindow_row record _ _ v]
    | plain | duplicate | duplicateOf => exact ih h

-- ==== release

theorem releaseLoop_ok {plan : Plan} {i : ℕ} {u : Unit} (off : ℕ → ℤ)
    (h : releaseLoop env n k site plan i s = (t, .ok u)) (pid : ℤ) :
    t.windows k pid = releaseAll (s.windows k pid) (planRows off pid plan i) := by
  induction plan generalizing i s with
  | nil =>
    cases h
    rfl
  | cons x plan ih =>
    obtain ⟨v, d⟩ := x
    rw [planRows_cons, releaseAll, foldl_append]
    cases d with
    | append idem =>
      obtain ⟨s₁, u, hcall, h₁⟩ := bind_eq_ok.1 h
      obtain ⟨s₂, u, hrel, h₂⟩ := bind_eq_ok.1 h₁
      obtain ⟨-, rfl⟩ := call_eq_ok.1 hcall
      cases hrel
      rw [ih h₂, ← onWindow_row _ _ _ v _ (off i)]
      rfl
    | plain | duplicate | duplicateOf => exact ih h

-- ==== write

theorem stampBatch_ok {pos : Pos} {idem : Idem} {off : ℤ} {u : Unit}
    (h : stampBatch env n k pos idem off s = (t, .ok u)) :
    t = s.onWindow k idem.producerId fun rows =>
      stamp rows idem.firstSeq off := by
  obtain ⟨s₁, u, hcall, h₁⟩ := bind_eq_ok.1 h
  obtain ⟨s₂, u, hstamp, h₂⟩ := bind_eq_ok.1 h₁
  obtain ⟨-, rfl⟩ := call_eq_ok.1 hcall
  cases hstamp
  split_ifs at h₂
  · exact (call_eq_ok.1 h₂).2
  · cases h₂
    rfl

/-- A batch written: where it landed is where its row says. -/
theorem writeBatch_ok {i : ℕ} {v : View} {d : Decision} {off : ℤ}
    (h : writeBatch env n p i v d.idem s = (t, .ok off)) :
    t.landedAt ⟨p.site, i⟩ = some off ∧ ∀ pid, t.windows p.key pid = stampAll (s.windows p.key pid)
        ((idemFor pid (v, d)).map fun q => q.row off).toList := by
  obtain ⟨s₁, a, hstore, h₁⟩ := bind_eq_ok.1 h
  cases a with
  | error e =>
    obtain ⟨s₂, u, -, h₂⟩ := bind_eq_ok.1 h₁
    cases h₂
  | ok offset =>
    obtain ⟨hland, hwin⟩ := storeBatch_ok (attempt_eq_ok.1 hstore)
    cases d with
    | append idem =>
      obtain ⟨s₂, a, hstamp, h₂⟩ := bind_eq_ok.1 h₁
      cases a with
      | error e =>
        obtain ⟨s₃, u, -, h₃⟩ := bind_eq_ok.1 h₂
        cases h₃
      | ok u =>
        cases h₂
        rw [stampBatch_ok (attempt_eq_ok.1 hstamp)]
        refine ⟨hland, fun pid => ?_⟩
        rw [stampAll, ← hwin, ← onWindow_row _ _ _ v]
        rfl
    | plain | duplicate | duplicateOf =>
      cases h₁
      exact ⟨hland, fun pid => by rw [hwin]; rfl⟩

theorem writeLoop_cons_stored {v : View} {d : Decision}
    (hd : d.stores = true) (rest : Plan) (i : ℕ) (acc : Written) :
    writeLoop env n p ((v, d) :: rest) i acc = (do
      let off ← writeBatch env n p i v d.idem
      writeLoop env n p rest (i + 1) (acc.stored off)) := by
  cases d with
  | append | plain => rfl
  | duplicate | duplicateOf => cases hd

/-- One batch of the loop: stored where it landed, or answered from its
window. -/
theorem writeLoop_cons_ok {v : View} {d : Decision} {rest : Plan} {i : ℕ} {acc r : Written}
    (h : writeLoop env n p ((v, d) :: rest) i acc s = (t, .ok r)) :
    ∃ s₁ off acc', writeLoop env n p rest (i + 1) acc' s₁ = (t, .ok r) ∧
      (∀ pid, s₁.windows p.key pid = stampAll (s.windows p.key pid)
        ((idemFor pid (v, d)).map fun q => q.row off).toList) ∧
      acc'.wrote = (acc.wrote || d.stores) ∧ acc'.base = acc.base.or (some off) ∧
      (d.stores = true → s₁.landedAt ⟨p.site, i⟩ = some off) ∧
      ∀ base, d = .duplicate base → off = base := by
  cases hd : d.stores with
  | true =>
    rw [writeLoop_cons_stored hd] at h
    obtain ⟨s₁, off, hbatch, hrest⟩ := bind_eq_ok.1 h
    obtain ⟨hland, hwin⟩ := writeBatch_ok hbatch
    refine ⟨s₁, off, _, hrest, hwin, (Bool.or_true _).symm, rfl, fun _ => hland, ?_⟩
    rintro base rfl
    cases hd
  | false =>
    cases d with
    | append | plain => cases hd
    | duplicate base =>
      refine ⟨s, base, _, h, fun _ => rfl, (Bool.or_false _).symm, rfl, nofun, ?_⟩
      rintro _ ⟨⟩
      rfl
    | duplicateOf j =>
      exact ⟨s, _, _, h, fun _ => rfl, (Bool.or_false _).symm, rfl, nofun, nofun⟩

/-- Writing stamps each append's row with where its batch landed. -/
structure Wrote (p : Pending) (rest : Plan) (i : ℕ) (acc : Written)
    (s t : World) (r : Written) : Prop where
  windows : ∀ pid, t.windows p.key pid = stampAll (s.windows p.key pid)
    (planRows (t.at p.site) pid rest i)
  stored : ∀ j v d, rest[j]? = some (v, d) → d.stores = true →
    ∃ off, t.landedAt ⟨p.site, i + j⟩ = some off
  wrote : r.wrote = (acc.wrote || rest.any fun b => b.2.stores)
  /-- The base offset is that of the first batch. -/
  base : ∀ base, acc.base = some base → r.base = some base
  first : ∀ v d rest', rest = (v, d) :: rest' → acc.base = none →
    ∃ off, r.base = some off ∧ (d.stores = true → t.landedAt ⟨p.site, i⟩ = some off) ∧
      ∀ base, d = .duplicate base → off = base

theorem writeLoop_ok {rest : Plan} {i : ℕ} {acc r : Written}
    (h : writeLoop env n p rest i acc s = (t, .ok r)) : Wrote p rest i acc s t r := by
  induction rest generalizing i acc s with
  | nil =>
    cases h
    exact ⟨fun _ => rfl, fun j v d hj => (by cases hj),
      (Bool.or_false _).symm, fun _ => id, fun v d rest' hr => (by cases hr)⟩
  | cons x rest ih =>
    obtain ⟨v, d⟩ := x
    obtain ⟨s₁, off, acc', hrest, hwin, hwrote, hbase, hland, hdup⟩ := writeLoop_cons_ok h
    have hdone := ih hrest
    -- What landed stays where it is while the rest is written.
    have hmoved := (writeLoop_goes (env.postgres_any n) (own_allows p) rest (i + 1) acc'
      (fun _ _ _ _ => ⟨rfl, .of_raise fun _ => trivial⟩) s₁).run hrest
    have hat := fun hd => hmoved.grows _ _ (hland hd)
    refine ⟨fun pid => ?_, fun j u e hj he => ?_, ?_, fun b hb => ?_, fun u e rest' hr hb => ?_⟩
    · have hrow : (idemFor pid (v, d)).map (fun q => q.row off)
          = (idemFor pid (v, d)).map fun q => q.row (t.at p.site i) := by
        cases d with
        | append => rw [World.at, hat rfl, Option.getD_some]
        | plain | duplicate | duplicateOf => rfl
      rw [hdone.windows, hwin, planRows_cons, hrow, stampAll, stampAll, stampAll, foldl_append]
    · cases j with
      | zero =>
        cases hj
        exact ⟨off, hat he⟩
      | succ j =>
        obtain ⟨o, ho⟩ := hdone.stored j u e hj he
        exact ⟨o, by rw [← ho]; congr 2; omega⟩
    · rw [hdone.wrote, hwrote, any_cons, Bool.or_assoc]
    · exact hdone.base b (by rw [hbase, hb]; rfl)
    · cases hr
      exact ⟨off, hdone.base off (by rw [hbase, hb]; rfl), hat, hdup⟩

/-- What a written partition reports: each stored batch landed, and the
base offset is the answer of its first batch. -/
structure Reported (p : Pending) (t : World) (done : Appended) : Prop where
  stored : ∀ j v d, p.plan[j]? = some (v, d) → d.stores = true →
    ∃ off, t.landedAt ⟨p.site, j⟩ = some off
  wrote : done.wrote = p.plan.any fun b => b.2.stores
  first : ∀ v d rest, p.plan = (v, d) :: rest →
    (d.stores = true → t.landedAt ⟨p.site, 0⟩ = some done.baseOffset) ∧
    ∀ base, d = .duplicate base → done.baseOffset = base

theorem writePartition_ok {done : Appended} (h : writePartition env n p s = (t, .ok done)) :
    Reported p t done ∧ ∀ pid, t.windows p.key pid = stampAll (s.windows p.key pid)
        (planRows (t.at p.site) pid p.plan 0) := by
  obtain ⟨s₁, r, hloop, h₁⟩ := bind_eq_ok.1 h
  have hw := writeLoop_ok hloop
  have hstored := fun j v d (hj : p.plan[j]? = some (v, d))
    (hd : d.stores = true) => hw.stored j v d hj hd
  simp only [Nat.zero_add] at hstored
  cases hb : r.base with
  | some base =>
    simp only [hb] at h₁
    cases h₁
    refine ⟨⟨hstored, hw.wrote, fun v d rest hp => ?_⟩, hw.windows⟩
    obtain ⟨off, hoff, hs, hdup⟩ := hw.first v d rest hp rfl
    rw [hb] at hoff
    cases hoff
    exact ⟨hs, hdup⟩
  | none =>
    simp only [hb] at h₁
    obtain ⟨s₂, u, hcall, h₂⟩ := bind_eq_ok.1 h₁
    obtain ⟨-, rfl⟩ := call_eq_ok.1 hcall
    cases h₂
    -- Only a plan without batches has no base.
    have hnil : p.plan = [] := by
      cases hp : p.plan with
      | nil => rfl
      | cons b rest =>
        obtain ⟨off, hoff, -⟩ := hw.first b.1 b.2 rest hp rfl
        simp [hb] at hoff
    refine ⟨⟨hstored, ?_, fun v d rest hp => ?_⟩, hw.windows⟩
    · rw [hnil]
      rfl
    · simp [hnil] at hp

end Kafgres.Produce
