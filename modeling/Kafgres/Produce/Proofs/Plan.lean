/-
What planning decides.
-/
import Kafgres.Produce.Write
import Kafgres.Producer.Proofs.Reserve

namespace Kafgres.Produce

open Codec Producer List

/-- The identity of a batch that is to be appended for the producer. -/
def idemFor (producerId : ℤ) (b : View × Decision) : Option Idem :=
  match b.2 with
  | .append p => if p.producerId = producerId then some p else none
  | _ => none

/-- The appends of a plan for one producer, in order. -/
def idems (plan : Plan) (producerId : ℤ) : List Idem := plan.filterMap (idemFor producerId)

/-- The window rows of a plan for one producer, with the batches numbered
from `start` at the given offsets. -/
def planRows (offset : ℕ → ℤ) (producerId : ℤ) (plan : Plan) (start : ℕ) : List Retained :=
  (plan.zipIdx start).filterMap fun b =>
    (idemFor producerId b.1).map fun p => p.row (offset b.2)

/-- One batch: same epoch and sequences. -/
def Idem.Same (a b : Idem) : Prop :=
  a.epoch = b.epoch ∧ a.firstSeq = b.firstSeq ∧ a.lastSeq = b.lastSeq

/-- How an earlier append of a producer stands to a later one. -/
def Idem.Older (a b : Idem) : Prop := a.epoch ≤ b.epoch ∧ ¬ a.Same b

-- ==== rows

theorem planRows_cons (offset : ℕ → ℤ) (pid : ℤ) (b : View × Decision) (plan : Plan) (i : ℕ) :
    planRows offset pid (b :: plan) i = ((idemFor pid b).map fun p => p.row (offset i)).toList
        ++ planRows offset pid plan (i + 1) := by
  rw [planRows, zipIdx_cons, filterMap_cons]
  cases idemFor pid b <;> rfl

theorem planRows_append (offset : ℕ → ℤ) (pid : ℤ) (pre post : Plan)
    (i : ℕ) :
    planRows offset pid (pre ++ post) i = planRows offset pid pre i
        ++ planRows offset pid post (i + pre.length) := by
  rw [planRows, zipIdx_append, filterMap_append]
  rfl

variable {plan : Plan} {i : ℕ}

theorem planRows_take_drop (offset : ℕ → ℤ) (pid : ℤ) (h : i ≤ plan.length) :
    planRows offset pid plan 0 = planRows offset pid (plan.take i) 0
      ++ planRows offset pid (plan.drop i) i := by
  have happ := planRows_append offset pid (plan.take i) (plan.drop i) 0
  rwa [take_append_drop, length_take, Nat.min_eq_left h, Nat.zero_add] at happ

/-- A row of a plan is that of one of its appends. -/
theorem mem_planRows {offset : ℕ → ℤ} {pid : ℤ} {r : Retained} :
    r ∈ planRows offset pid plan 0 ↔ ∃ i v, ∃ p : Idem,
      plan[i]? = some (v, .append p) ∧ p.producerId = pid ∧ r = p.row (offset i) := by
  constructor
  · intro h
    obtain ⟨⟨⟨v, d⟩, i⟩, hb, hr⟩ := mem_filterMap.1 h
    have hi : plan[i]? = some (v, d) := by
      simpa using mk_mem_zipIdx_iff_getElem?.1 hb
    cases d with
    | append p =>
      by_cases hp : p.producerId = pid
      · simp only [idemFor, if_pos hp, Option.map_some, Option.some.injEq] at hr
        exact ⟨i, v, p, hi, hp, hr.symm⟩
      · simp [idemFor, hp] at hr
    | plain | duplicate | duplicateOf => simp [idemFor] at hr
  · rintro ⟨i, v, p, hi, hp, rfl⟩
    refine mem_filterMap.2 ⟨((v, .append p), i), ?_, ?_⟩
    · exact mk_mem_zipIdx_iff_getElem?.2 hi
    · simp [idemFor, hp]

/-- Reserved rows carry no offset. -/
theorem planRows_unstamped (offset : ℕ → ℤ) (pid : ℤ) (plan : Plan)
    (i : ℕ) :
    (planRows offset pid plan i).map Retained.unstamped = planRows (fun _ => -1) pid plan i := by
  rw [planRows, map_filterMap]
  refine filterMap_congr fun b _ => ?_
  cases idemFor pid b.1 <;> rfl

theorem planRows_const (c : ℤ) (pid : ℤ) (plan : Plan) (i : ℕ) :
    planRows (fun _ => c) pid plan i = (idems plan pid).map fun p => p.row c := by
  induction plan generalizing i with
  | nil => rfl
  | cons b plan ih =>
    rw [planRows_cons, ih]
    unfold idems
    rw [filterMap_cons]
    cases idemFor pid b <;> rfl

-- ==== decisions

/-- Every batch was decided against those before it. -/
def Decided (input : PlanInput) (plan : Plan) : Prop := ∀ i v d, plan[i]? = some (v, d) →
    decideBatch input (plan.take i) v = .ok d

theorem decided_nil (input : PlanInput) : Decided input [] := by
  intro i v d h
  cases h

variable {input : PlanInput} {v : View} {d : Decision}

theorem decided_snoc :
    Decided input (plan ++ [(v, d)]) ↔ Decided input plan ∧ decideBatch input plan v = .ok d := by
  constructor
  · intro h
    refine ⟨fun i u e hi => ?_, ?_⟩
    · have hlt : i < plan.length := (List.getElem?_eq_some_iff.1 hi).1
      have := h i u e (by rw [List.getElem?_append_left hlt]; exact hi)
      rwa [List.take_append_of_le_length hlt.le] at this
    · have := h plan.length v d (by simp)
      rwa [take_left] at this
  · rintro ⟨h, hd⟩ i u e hi
    rcases Nat.lt_trichotomy i plan.length with hlt | rfl | hgt
    · rw [getElem?_append_left hlt] at hi
      rw [take_append_of_le_length hlt.le]
      exact h i u e hi
    · rw [getElem?_concat_length, Option.some.injEq, Prod.mk.injEq] at hi
      obtain ⟨rfl, rfl⟩ := hi
      rwa [take_left]
    · rw [getElem?_eq_none (by simp; omega)] at hi
      cases hi

variable {batches : Plan} {a b idem p prev : Idem} {records : List (Except BatchError View)}
  {u : View} {j : ℕ} {base : ℤ}

theorem planLoop_decided (h : Decided input batches)
    (hp : planLoop input records batches = .ok plan) : Decided input plan := by
  induction records generalizing batches with
  | nil =>
    rw [planLoop] at hp
    cases hp
    exact h
  | cons r records ih =>
    cases r with
    | error e => cases hp
    | ok v =>
      rw [planLoop] at hp
      cases hd : decideBatch input batches v with
      | error e =>
        simp [hd] at hp
      | ok d =>
        rw [hd] at hp
        exact ih (decided_snoc.2 ⟨h, hd⟩) hp

theorem planPartition_decided (h : planPartition input records = .ok plan) : Decided input plan :=
  planLoop_decided (decided_nil input) h

/-- A plan has the batches of the field, in order. -/
theorem planLoop_views (hp : planLoop input records batches = .ok plan) :
    plan.map (fun b => Except.ok b.1) = batches.map (fun b => .ok b.1) ++ records := by
  induction records generalizing batches with
  | nil =>
    rw [planLoop] at hp
    cases hp
    rw [append_nil]
  | cons r records ih =>
    cases r with
    | error e => cases hp
    | ok v =>
      rw [planLoop] at hp
      cases hd : decideBatch input batches v with
      | error e => simp [hd] at hp
      | ok d =>
        rw [hd] at hp
        rw [ih hp, map_append, append_assoc]
        rfl

-- ==== appends

theorem prior_eq (batches : Plan) (pid : ℤ) : prior batches pid = (idems batches pid).getLast? := by
  rw [idems, ← head?_reverse, ← filterMap_reverse, head?_filterMap]
  rfl

theorem idems_snoc (plan : Plan) (b : View × Decision) (pid : ℤ) :
    idems (plan ++ [b]) pid = idems plan pid ++ (idemFor pid b).toList := by
  rw [idems, filterMap_append]
  cases h : idemFor pid b <;> simp [idems, h]

/-- How a batch comes to be decided. -/
theorem decideBatch_cases (h : decideBatch input batches v = .ok d) :
    d = .plain ∨ ∃ adds, (∃ prev, prior batches v.producerId = some prev ∧
        decideAfter batches prev (idemOf v adds) = .ok d) ∨
      (prior batches v.producerId = none ∧
        decideChecked (idemOf v adds) (check (input.window v.producerId)
          input.epochStart (idemOf v adds).epoch (idemOf v adds).firstSeq
          (idemOf v adds).lastSeq) = .ok d) := by
  unfold decideBatch at h
  by_cases hplain : v.producerId = noProducerId ∨ v.baseSequence = noSequence
  · rw [if_pos hplain] at h
    split_ifs at h
    cases h
    exact .inl rfl
  rw [if_neg hplain] at h
  cases hadds : addsPartition input v with
  | error e =>
    simp [hadds] at h
  | ok adds =>
    rw [hadds] at h
    refine .inr ⟨adds, ?_⟩
    cases hprev : prior batches v.producerId with
    | some prev =>
      simp only [hprev] at h
      exact .inl ⟨prev, rfl, h⟩
    | none =>
      simp only [hprev] at h
      exact .inr ⟨rfl, h⟩

theorem decideChecked_append {c : SequenceCheck}
    (h : decideChecked idem c = .ok (.append p)) : p = idem := by
  cases c with
  | append =>
    cases h
    rfl
  | duplicate base =>
    unfold decideChecked at h
    dsimp only at h
    split_ifs at h
    cases h
  | outOfOrder | stale | fenced => cases h

/-- An append decided after others of its producer is newer than all of
them. -/
theorem decideAfter_append (hold : ∀ a ∈ idems batches idem.producerId, a.epoch ≤ prev.epoch)
    (h : decideAfter batches prev idem = .ok (.append p)) :
    p = idem ∧ ∀ a ∈ idems batches idem.producerId, a.Older idem := by
  unfold decideAfter at h
  by_cases hlt : idem.epoch < prev.epoch
  · simp [if_pos hlt] at h
  rw [if_neg hlt] at h
  by_cases hgt : idem.epoch > prev.epoch
  · rw [if_pos hgt] at h
    split_ifs at h
    cases h
    refine ⟨rfl, fun a ha => ?_⟩
    have hle := hold a ha
    exact ⟨by omega, fun hsame => by have := hsame.1; omega⟩
  · rw [if_neg hgt] at h
    cases hfind : batches.findIdx? (sameBatch idem) with
    | some i =>
      simp [hfind] at h
    | none =>
      rw [hfind] at h
      split_ifs at h
      cases h
      refine ⟨rfl, fun a ha => ⟨by have := hold a ha; omega, ?_⟩⟩
      rintro ⟨he, hf, hl⟩
      obtain ⟨⟨v, d⟩, hb, hd⟩ := mem_filterMap.1 ha
      have hno := findIdx?_eq_none_iff.1 hfind _ hb
      cases d with
      | append q =>
        unfold idemFor at hd
        dsimp only at hd
        split_ifs at hd with hq
        cases hd
        simp [sameBatch, he, hf, hl, hq] at hno
      | plain | duplicate | duplicateOf => cases hd

/-- What an append's identity is, and how it stands to the appends
before it. -/
theorem decideBatch_append (hold : (idems batches v.producerId).Pairwise Idem.Older)
    (h : decideBatch input batches v = .ok (.append p)) :
    p.producerId = v.producerId ∧ ∀ a ∈ idems batches v.producerId, a.Older p := by
  rcases decideBatch_cases h with h | ⟨adds, ⟨prev, hprev, h⟩ | ⟨hnone, h⟩⟩
  · cases h
  · rw [prior_eq] at hprev
    have hlast : ∀ a ∈ idems batches v.producerId, a.epoch ≤ prev.epoch := by
      intro a ha
      obtain ⟨l, hl⟩ := getLast?_eq_some_iff.1 hprev
      rw [hl] at ha hold
      rcases mem_append.1 ha with ha | ha
      · exact ((pairwise_append.1 hold).2.2 a ha prev (mem_singleton_self prev)).1
      · rw [mem_singleton.1 ha]
    obtain ⟨rfl, holder⟩ : p = idemOf v adds ∧ _ := decideAfter_append hlast h
    exact ⟨rfl, holder⟩
  · rw [prior_eq, getLast?_eq_none_iff] at hnone
    rw [hnone, decideChecked_append h]
    exact ⟨rfl, fun a ha => absurd ha not_mem_nil⟩

/-- The appends of one producer, in plan order. -/
theorem Decided.older (h : Decided input plan) (pid : ℤ) :
    (idems plan pid).Pairwise Idem.Older := by
  induction plan using reverseRecOn generalizing pid with
  | nil => exact List.Pairwise.nil
  | append_singleton plan b ih =>
    obtain ⟨v, d⟩ := b
    obtain ⟨hplan, hd⟩ := decided_snoc.1 h
    rw [idems_snoc]
    cases d with
    | append p =>
      obtain ⟨hp, holder⟩ := decideBatch_append (ih hplan v.producerId) hd
      by_cases hpid : p.producerId = pid
      · rw [show idemFor pid (v, .append p) = some p from if_pos hpid, Option.toList_some]
        rw [← hp, hpid] at holder
        refine pairwise_append.2 ⟨ih hplan pid, pairwise_singleton _ _, fun a ha q hq => ?_⟩
        rw [mem_singleton.1 hq]
        exact holder a ha
      · rw [show idemFor pid (v, .append p) = none from if_neg hpid]
        simpa using ih hplan pid
    | plain | duplicate | duplicateOf => simpa [idemFor] using ih hplan pid

/-- An append is newer than those of its producer before it. -/
theorem Decided.older_at (h : Decided input plan) (hi : plan[i]? = some (u, .append a))
    (hj : plan[j]? = some (v, .append b))
    (hpid : a.producerId = b.producerId) (hlt : i < j) : a.Older b := by
  have hpair := List.pairwise_filterMap.1 (h.older b.producerId)
  obtain ⟨hi', hai⟩ := List.getElem?_eq_some_iff.1 hi
  obtain ⟨hj', hbj⟩ := List.getElem?_eq_some_iff.1 hj
  refine List.pairwise_iff_getElem.1 hpair i j hi' hj' hlt a ?_ b ?_
  · rw [hai]
    exact if_pos hpid
  · rw [hbj]
    exact if_pos rfl

/-- No two appends of a producer are one batch. -/
theorem Decided.same_iff (h : Decided input plan) (hi : plan[i]? = some (u, .append a))
    (hj : plan[j]? = some (v, .append b))
    (hpid : a.producerId = b.producerId) (hsame : a.Same b) : i = j := by
  rcases Nat.lt_trichotomy i j with hlt | heq | hgt
  · exact ((h.older_at hi hj hpid hlt).2 hsame).elim
  · exact heq
  · obtain ⟨he, hf, hl⟩ := hsame
    exact ((h.older_at hj hi hpid.symm hgt).2 ⟨he.symm, hf.symm, hl.symm⟩).elim

-- ==== duplicates

theorem decideAfter_ne_duplicate : decideAfter batches prev idem ≠ .ok (.duplicate base) := by
  intro h
  unfold decideAfter at h
  split at h
  · cases h
  split at h
  · split at h <;> cases h
  split at h
  · cases h
  · split at h <;> cases h

/-- A batch answered from the window is one of its rows. -/
theorem decideBatch_duplicate (h : decideBatch input batches v = .ok (.duplicate base)) :
    ⟨v.producerEpoch, v.baseSequence, incrementSequence v.baseSequence v.lastOffsetDelta, base⟩
      ∈ input.window v.producerId ∧ 0 ≤ base := by
  rcases decideBatch_cases h with h | ⟨adds, ⟨prev, hprev, h⟩ | ⟨hnone, h⟩⟩
  · cases h
  · exact absurd h decideAfter_ne_duplicate
  cases hc : check (input.window v.producerId) input.epochStart
    (idemOf v adds).epoch (idemOf v adds).firstSeq
    (idemOf v adds).lastSeq with
  | duplicate b =>
    rw [hc] at h
    unfold decideChecked at h
    dsimp only at h
    split_ifs at h with hneg
    cases h
    exact ⟨check_duplicate_mem hc, not_lt.1 hneg⟩
  | append | outOfOrder | stale | fenced =>
    rw [hc] at h
    cases h

/-- A resend of an earlier batch is one of an append before it. -/
theorem decideBatch_duplicateOf (h : decideBatch input batches v = .ok (.duplicateOf j)) :
    ∃ u idem, batches[j]? = some (u, .append idem) := by
  rcases decideBatch_cases h with h | ⟨adds, ⟨prev, hprev, h⟩ | ⟨hnone, h⟩⟩
  · cases h
  · unfold decideAfter at h
    split at h
    · cases h
    split at h
    · split at h <;> cases h
    split at h
    · next i hfind =>
        cases h
        obtain ⟨hlt, hsame, -⟩ := findIdx?_eq_some_iff_getElem.1 hfind
        rcases hb : batches[j] with ⟨u, d⟩
        rw [hb] at hsame
        cases d with
        | append idem =>
          exact ⟨u, idem, List.getElem?_eq_some_iff.2 ⟨hlt, hb⟩⟩
        | plain | duplicate | duplicateOf => cases hsame
    · split at h <;> cases h
  · unfold decideChecked at h
    split at h
    · cases h
    · split at h <;> cases h
    all_goals cases h

/-- The first batch is no resend of an earlier one. -/
theorem Decided.head {rest : Plan} (h : Decided input ((v, d) :: rest)) :
    decideBatch input [] v = .ok d := h 0 v d rfl

theorem decideBatch_nil : decideBatch input [] v ≠ .ok (.duplicateOf j) := by
  intro h
  obtain ⟨u, idem, hj⟩ := decideBatch_duplicateOf h
  cases hj

end Kafgres.Produce
