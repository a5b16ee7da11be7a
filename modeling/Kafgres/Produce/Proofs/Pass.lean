/-
A pass over the request, and what a partition answered with success has
behind it.
-/
import Kafgres.Produce.Proofs.Request
import Kafgres.Produce.Proofs.Rows

namespace Kafgres.Produce

open Storage Producer Fallible List Function Prog

variable {env : Env} {cat : Catalog} {n : Try} {p : Pending} {s t : World} {ans ans' : Answers}
  {done : Appended}

/-- No call below the savepoint answers `aborted`. -/
theorem writePartition_not_aborted (s : World) :
    Goes (own p) (fun e => e ≠ .aborted) True (writePartition env n p) s := by
  have hps : ∀ fault : Fault String,
      fault.Within AppendError.producerState (fun e => e ≠ .aborted) True := by
    intro fault
    cases fault <;> simp [Fault.Within]
  have hst : ∀ fault : Fault StoreError,
      fault.Within AppendError.store (fun e => e ≠ .aborted) True := by
    intro fault
    cases fault <;> simp [Fault.Within]
  exact writePartition_goes ⟨fun _ => hps _, fun _ => hps _, fun _ => hps _,
    fun _ => hps _, fun _ => hst _, fun _ => hps _⟩ (own_allows p)
    (fun _ _ _ _ => ⟨rfl, hst _⟩)    (hst _) s

-- ==== one entry

/-- What a success of the partition has behind it: each append recorded
at the offset where its batch landed. -/
structure Settled (p : Pending) (s t : World) (done : Appended) : Prop
    extends Reported p t done where
  windows : ∀ pid, t.windows p.key pid
    = (planRows (t.at p.site) pid p.plan 0).foldl record (s.windows p.key pid)

/-- Written after it was reserved. -/
theorem settled_of_reserved {s₁ : World} (hres : ∀ pid, s₁.windows p.key pid
      = (planRows (fun _ => -1) pid p.plan 0).foldl record (s.windows p.key pid))
    (h : writePartition env n p s₁ = (t, .ok done)) : Settled p s t done := by
  obtain ⟨hrep, hwin⟩ := writePartition_ok h
  refine ⟨hrep, fun pid => ?_⟩
  rw [hwin, hres, ← planRows_unstamped (t.at p.site)]
  exact stamped_reservations _ _

section Stays

variable {R : Motion World} {S : Pos → Prop} (hp : Allows env R p.key S)
  (hS : ∀ j b, p.plan[j]? = some b → b.2.stores = true → S ⟨p.site, j⟩)
  (hback : ∀ s t, R.rel s t → R.rel s (World.rollback s t))

include hp in
theorem reservePartition_stays (begun : List ℤ) : Stays R (reservePartition env n p begun) :=
  fun s => (reserveLoop_goes (env.postgres_any n) hp _ _ _ _ s).moves

include hp hS in
theorem writePartition_stays : Stays R (writePartition env n p) :=
  fun s => (writePartition_goes (env.postgres_any n) hp
    (fun j b hj hb => ⟨hS j b hj hb, .of_raise fun _ => trivial⟩)
    (.of_raise fun _ => trivial) s).moves

include hp hS hback in
theorem attemptPartition_stays : Stays R (attemptPartition env n p) := by
  refine .bind (.atomically ?_ hback) fun a => ?_
  · exact .bind (reservePartition_stays hp []) fun _ =>
      .attempt (writePartition_stays hp hS)
  · cases a with
    | ok done => exact .pure _
    | error e => exact .fail e

include hp hS hback in
theorem tryPartition_stays : Stays R (tryPartition env p) := by
  refine .bind (.attempt (attemptPartition_stays hp hS hback)) fun outcome =>
    .bind (.read _) fun landed => ?_
  split_ifs
  · exact .attempt (attemptPartition_stays hp hS hback)
  · exact .pure _

end Stays

theorem attemptPartition_ok (h : attemptPartition env n p s = (t, .ok done)) :
    Settled p s t done := by
  obtain ⟨s₁, a, hbody, h₁⟩ := bind_eq_ok.1 h
  cases a with
  | error e => cases h₁
  | ok d =>
    cases h₁
    obtain ⟨s₂, b, hres, hwrite⟩ := bind_eq_ok.1 (atomically_eq_ok.1 hbody)
    exact settled_of_reserved (reserveLoop_ok hres) (attempt_eq_ok.1 hwrite)

/-- An aborted attempt has put the windows back. -/
theorem attemptPartition_aborted (h : attemptPartition env n p s = (t, .err .aborted)) :
    t.windows = s.windows := by
  rcases bind_eq_err h with hbody | ⟨s₁, a, hbody, h₁⟩
  · rw [atomically_eq_err hbody]
    rfl
  cases a with
  | ok done => cases h₁
  | error e =>
    cases h₁
    -- Phase 3 does not answer so.
    obtain ⟨s₂, b, -, hwrite⟩ := bind_eq_ok.1 (atomically_eq_ok.1 hbody)
    exact ((writePartition_not_aborted s₂).err (attempt_eq_error.1 hwrite) rfl).elim

theorem tryPartition_ok (h : tryPartition env p s = (t, .ok (.ok done))) : Settled p s t done := by
  obtain ⟨s₁, outcome, hfirst, h₁⟩ := bind_eq_ok.1 h
  obtain ⟨s₂, landed, hread, h₂⟩ := bind_eq_ok.1 h₁
  cases hread
  split_ifs at h₂ with hagain
  · -- The first try was aborted: the second starts from the same windows.
    rw [hagain.1] at hfirst
    have hwin := attemptPartition_aborted (attempt_eq_error.1 hfirst)
    have hset := attemptPartition_ok (attempt_eq_ok.1 h₂)
    exact { hset with windows := fun pid => by rw [hset.windows, hwin] }
  · cases h₂
    exact attemptPartition_ok (attempt_eq_ok.1 hfirst)

-- ==== visits

/-- What answering for a partition does to the answers. -/
structure Finished (p : Pending) (outcome : Except AppendError Appended)
    (ans ans' : Answers) : Prop where
  elsewhere : ∀ site, site ≠ p.site →
    ans'.responses site = ans.responses site
  success : (ans'.responses p.site).errorCode = none → ∃ done,
    outcome = .ok done ∧ (ans'.responses p.site).baseOffset = done.baseOffset
  appended : ans.appended ⊆ ans'.appended
  wrote : ∀ done, outcome = .ok done → done.wrote = true →
    p.key ∈ ans'.appended

theorem logStartOr0_goes {R : Motion World} {Q : Abandon → Prop} {r : Prop}
    (h : env.logStartOffset n p.site = .raise → r) (s : World) :
    Goes R Q r (logStartOr0 env cat n p) s :=
  .attempt_bind (.call (.of_raise h)) (fun _ _ _ _ => .pure _) fun _ _ _ => .pure _

theorem finish_goes {R : Motion World} {Q : Abandon → Prop} {r : Prop}
    (h : env.logStartOffset n p.site = .raise → r) (outcome : Except AppendError Appended)
    (ans : Answers) (s : World) : Goes R Q r (finish env cat n p outcome ans) s := by
  unfold finish
  split
  · exact .bind (logStartOr0_goes h s) fun _ _ _ => .pure _
  · exact .bind (logStartOr0_goes h s) fun _ _ _ => .pure _
  · exact .pure _

theorem finish_stays (R : Motion World) (outcome : Except AppendError Appended) (ans : Answers) :
    Stays R (finish env cat n p outcome ans) :=
  fun s => (finish_goes (Q := fun _ => True) (fun _ => trivial) outcome ans s).moves

theorem finish_ok {outcome : Except AppendError Appended}
    (h : finish env cat n p outcome ans s = (t, .ok ans')) :
    t = s ∧ Finished p outcome ans ans' := by
  refine ⟨(finish_stays (.leaves id) outcome ans).run h, ?_⟩
  unfold finish at h
  split at h
  · next done =>
      obtain ⟨s₁, start, -, h₁⟩ := bind_eq_ok.1 h
      cases h₁
      refine ⟨fun site hne => update_of_ne hne _ _, fun _ =>
        ⟨done, rfl, ?_⟩, ?_, fun d hd hw => ?_⟩
      · dsimp only
        rw [update_self]
      · split_ifs
        · exact subset_append_left _ _
        · exact List.Subset.refl _
      · cases hd
        rw [if_pos hw]
        exact mem_append_right _ (mem_singleton_self _)
  · obtain ⟨s₁, start, -, h₁⟩ := bind_eq_ok.1 h
    cases h₁
    refine ⟨fun site hne => update_of_ne hne _ _, fun hnone => ?_,
      List.Subset.refl _, fun d hd => (by cases hd)⟩
    dsimp only at hnone
    rw [update_self] at hnone
    cases hnone
  · cases h
    refine ⟨fun site hne => update_of_ne hne _ _, fun hnone => ?_,
      List.Subset.refl _, fun d hd => (by cases hd)⟩
    dsimp only at hnone
    rw [update_self] at hnone
    cases hnone

/-- The visit of one partition in a pass from `s` to `t`: the state it
found, the state it left and how it came out. -/
structure Visit (f : Pending → Prog World Abandon
      (Except AppendError Appended)) (p : Pending) (s t : World)
    (ans : Answers) (s₁ s₂ : World)
    (outcome : Except AppendError Appended) : Prop where
  run : f p s₁ = (s₂, .ok outcome)
  before : (others p).rel s s₁
  after : (others p).rel s₂ t
  success : (ans.responses p.site).errorCode = none → ∃ done,
    outcome = .ok done ∧ (ans.responses p.site).baseOffset = done.baseOffset
  wrote : ∀ done, outcome = .ok done → done.wrote = true →
    p.key ∈ ans.appended

/-- To the others a move of one partition is a move of another. -/
theorem own_others {p q : Pending} (h : p.Apart q) (hm : (own p).rel s t) : (others q).rel s t :=
  hm.mono (fun _ hk => hk ▸ h.2) fun _ _ hA => hA.2 ▸ h.1

variable {F : List Pending → Answers → Prog World Abandon Answers}
  {f : Pending → Prog World Abandon (Except AppendError Appended)}

/-- A pass visits every partition, and the responses of the rest are as
they were. -/
theorem visit_all (hnil : ∀ ans, F [] ans = pure ans) (hcons : ∀ p rest ans, F (p :: rest) ans = (do
      let outcome ← f p
      let ans ← finish env cat n p outcome ans
      F rest ans))
    (hf : ∀ p, Stays (own p) (f p)) {ps : List Pending} (hps : ps.Pairwise Pending.Apart)
    (h : F ps ans s = (t, .ok ans')) :
    (∀ site, (∀ p ∈ ps, p.site ≠ site) → ans'.responses site = ans.responses site) ∧
    (∀ p, (∀ q ∈ ps, q.Apart p) → (others p).rel s t) ∧
    ans.appended ⊆ ans'.appended ∧
    ∀ p ∈ ps, ∃ s₁ s₂ outcome, Visit f p s t ans' s₁ s₂ outcome := by
  induction ps generalizing s ans with
  | nil =>
    rw [hnil] at h
    cases h
    exact ⟨fun _ _ => rfl, fun p _ => (others p).refl _,
      List.Subset.refl _, fun p hp => absurd hp not_mem_nil⟩
  | cons q rest ih =>
    rw [pairwise_cons] at hps
    rw [hcons] at h
    obtain ⟨s₁, outcome, hq, h₁⟩ := bind_eq_ok.1 h
    obtain ⟨s₂, ans₁, hanswer, hrest⟩ := bind_eq_ok.1 h₁
    obtain ⟨rfl, hfin⟩ := finish_ok hanswer
    obtain ⟨hsites, hframe, happ, hvisits⟩ := ih hps.2 hrest
    have hown : (own q).rel s s₂ := (hf q).run hq
    refine ⟨fun site hs => ?_, fun p hp => ?_, List.Subset.trans hfin.appended happ, fun p hp => ?_⟩
    · rw [hsites site fun p hp => hs p (.tail _ hp), hfin.elsewhere site (hs q (.head _)).symm]
    · exact (others p).trans (own_others (hp q (.head _)) hown)
        (hframe p fun x hx => hp x (.tail _ hx))
    rcases mem_cons.1 hp with rfl | hp
    · refine ⟨s, s₂, outcome, hq, (others p).refl _,
        hframe p fun x hx => ⟨(hps.1 x hx).1.symm, (hps.1 x hx).2.symm⟩,
        ?_, fun done hd hw => happ (hfin.wrote done hd hw)⟩
      rw [hsites p.site fun x hx => (hps.1 x hx).1.symm]
      exact hfin.success
    · obtain ⟨u₁, u₂, out, hv⟩ := hvisits p hp
      exact ⟨u₁, u₂, out, hv.run, (others p).trans
        (own_others (hps.1 p hp) hown) hv.before, hv.after, hv.success,
        hv.wrote⟩

end Kafgres.Produce
