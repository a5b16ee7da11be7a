/-
No partition of a consumer group is given to two members.

The rows of a group are a handover (`Handover.State`), and a request is a
few moves of it: a static member's return renames, a removal drops, and
a heartbeat that is served reports and then grants. The grant is allowed
because the stored targets are apart.
-/
import Kafgres.ConsumerGroup.Heartbeat
import Kafgres.Lib.Handover
import Kafgres.Lib.Run

namespace Kafgres.ConsumerGroup

open Handover List Function Table

variable {ms : Members} {sent : String → Finset TopicPartition} {members : List (String × Finset ℕ)}
  {ts : List Topic} {set : Member → Member} {i j who : String} {x : TopicPartition}

-- ==== the assignor

theorem mem_assign : x ∈ assign members ts who ↔ (x, who) ∈ slots members ts := by
  unfold assign
  rw [mem_toFinset, mem_map]
  constructor
  · rintro ⟨y, hy, hyx⟩
    obtain ⟨hmem, hwho⟩ := mem_filter.1 hy
    rw [← hyx, ← of_decide_eq_true hwho]
    exact hmem
  · intro h
    exact ⟨(x, who), mem_filter.2 ⟨h, decide_eq_true rfl⟩, rfl⟩

/-- A dealt partition is one of its topic, at some position. -/
theorem mem_slots :
    (x, who) ∈ slots members ts ↔ ∃ t ∈ ts, t.id = x.1 ∧ ∃ i, t.partitions[i]? = some x.2 ∧
        let interested := (members.filter fun m => t.id ∈ m.2).map Prod.fst
        interested[i % interested.length]? = some who := by
  unfold slots
  simp only [mem_flatMap, mem_filterMap, Option.map_eq_some_iff,
    Prod.exists, mem_zipIdx_iff_getElem?]
  constructor
  · rintro ⟨t, ht, p, i, hp, w, hw, he⟩
    cases he
    exact ⟨t, ht, rfl, i, hp, hw⟩
  · rintro ⟨t, ht, hid, i, hp, hw⟩
    refine ⟨t, ht, x.2, i, hp, who, hw, ?_⟩
    rw [hid]

/-- No partition is dealt to two members. -/
theorem assign_apart (members : List (String × Finset ℕ)) (hids : (ts.map (·.id)).Nodup)
    (hparts : ∀ t ∈ ts, t.partitions.Nodup) (hij : i ≠ j) :
    Disjoint (assign members ts i) (assign members ts j) := by
  apply Finset.disjoint_left.2
  intro x hi hj
  obtain ⟨t, ht, hid, a, ha, hwa⟩ := mem_slots.1 (mem_assign.1 hi)
  obtain ⟨u, hu, hid', b, hb, hwb⟩ := mem_slots.1 (mem_assign.1 hj)
  have htu : t = u := List.inj_on_of_nodup_map hids ht hu (hid.trans hid'.symm)
  subst htu
  obtain ⟨ha', ha⟩ := List.getElem?_eq_some_iff.1 ha
  obtain ⟨hb', hb⟩ := List.getElem?_eq_some_iff.1 hb
  have hab : a = b := (hparts t ht).getElem_inj_iff.1 (ha.trans hb.symm)
  subst hab
  exact hij (Option.some.inj (hwa.symm.trans hwb))

theorem Topics.nodup_ids (ts : Topics) : (ts.rows.map (·.id)).Nodup :=
  pairwise_map.2 (ts.ids.imp ne_of_lt)

theorem targetOf_apart (ts : Topics) (rows : List Member) (hij : i ≠ j) :
    Disjoint (targetOf ts rows i) (targetOf ts rows j) := by
  apply assign_apart _ _ _ hij
  · exact ts.nodup_ids.sublist (filter_sublist.map _)
  · exact fun t ht => ts.partitions t (mem_filter.1 ht).1

-- ==== the wire

/-- A response names only what is to be sent. -/
theorem resolve_toWire (ts : Topics) (tps : Finset TopicPartition) :
    ts.resolve (ts.toWire tps) ⊆ tps := by
  intro x hx
  unfold Topics.resolve Topics.toWire at hx
  simp only [mem_toFinset, mem_flatMap, mem_filterMap] at hx
  obtain ⟨e, ⟨t, ht, hte⟩, hxe⟩ := hx
  split at hte
  · cases hte
  cases hte
  have hfound : ts.idOfUuid t.uuid = some t.id := by
    unfold Topics.idOfUuid
    cases hf : ts.rows.find? fun u => u.uuid = t.uuid with
    | none =>
      rw [find?_eq_none] at hf
      exact absurd (decide_eq_true rfl) (hf t ht)
    | some u =>
      have huuid := find?_some hf
      rw [inj_on_of_nodup_map ts.uuids (mem_of_find?_eq_some hf) ht (of_decide_eq_true huuid)]
      rfl
  rw [hfound] at hxe
  obtain ⟨p, hp, rfl⟩ := mem_map.1 hxe
  rw [Finset.mem_sort, Finset.mem_image] at hp
  obtain ⟨y, hy, rfl⟩ := hp
  obtain ⟨hy, hid⟩ := Finset.mem_filter.1 hy
  rw [← hid]
  exact hy

-- ==== the handover

/-- What each member is granted, and what it is meant to have. -/
def Members.granted (ms : Members) : String → Set TopicPartition :=
  ms.column fun m => (m.granted : Set TopicPartition)

@[inherit_doc Members.granted]
def Members.target (ms : Members) : String → Set TopicPartition :=
  ms.column fun m => (m.target : Set TopicPartition)

/-- A group's rows as a handover. -/
def handover (ms : Members) (sent : String → Finset TopicPartition) :
    Handover.State String TopicPartition where
  granted := Members.granted ms
  holds := fun id => {p | id ∈ ms.keys ∧ p ∈ sent id}

/-- The handover is safe and the targets are apart. -/
structure Good (ms : Members) (sent : String → Finset TopicPartition) :
    Prop where
  safe : Safe (handover ms sent)
  targets : ∀ i j, i ≠ j →
    Disjoint (Members.target ms i) (Members.target ms j)

theorem Good.congr (h : Good ms sent) {ms' : Members} {sent' : String → Finset TopicPartition}
    (hgranted : Members.granted ms' = Members.granted ms)
    (htarget : Members.target ms' = Members.target ms)
    (hholds : ∀ id p, id ∈ ms'.keys ∧ p ∈ sent' id ↔
      id ∈ ms.keys ∧ p ∈ sent id) : Good ms' sent' := by
  have hsame : handover ms' sent' = handover ms sent := by
    unfold handover
    rw [hgranted]
    congr 1
    funext id
    ext p
    exact hholds id p
  exact ⟨hsame ▸ h.safe, htarget ▸ h.targets⟩

/-- An update of other columns. -/
theorem Good.update (h : Good ms sent) {p : Member → Bool}
    (same : ∀ m, (set m).memberId = m.memberId) (hgranted : ∀ m, (set m).granted = m.granted)
    (htarget : ∀ m, (set m).target = m.target) : Good (ms.updateWhere p set same) sent := by
  apply h.congr
  · exact column_updateWhere fun m => by rw [hgranted]
  · exact column_updateWhere fun m => by rw [htarget]
  · intro id p
    rw [updateWhere_keys]

theorem Good.delete (h : Good ms sent) (gone : Member → Bool) : Good (ms.delete gone) sent := by
  constructor
  · have hdrop : handover (ms.delete gone) sent
        = (handover ms sent).drop {id | id ∉ (ms.delete gone).keys} := by
      unfold handover State.drop
      congr 1
      · funext id
        unfold Members.granted
        rw [column_delete]
        simp
      · funext id
        ext p
        refine ⟨?_, fun hp => ⟨not_not.1 hp.1, hp.2.2⟩⟩
        intro hp
        exact ⟨fun hno => hno hp.1, delete_keys hp.1, hp.2⟩
    rw [hdrop]
    exact h.safe.drop _
  · intro i j hij
    unfold Members.target
    rw [column_delete, column_delete]
    exact (h.targets i j hij).mono (fun _ hp => hp.2) fun _ hp => hp.2

theorem Good.adopt (h : Good ms sent) {holder new : String} {now : ℤ}
    (free : new ∉ ms.keys) (hholder : holder ∈ ms.keys) (hsent : sent new = ∅) :
    Good (Members.adopt ms holder new now free) sent := by
  have hne : new ≠ holder := fun he => free (he ▸ hholder)
  have hgranted : Members.granted (Members.adopt ms holder new now free)
      = Function.update (Function.update (Members.granted ms) holder ∅) new
          (Members.granted ms holder) := column_rename fun _ => rfl
  have htarget : Members.target (Members.adopt ms holder new now free)
      = Function.update (Function.update (Members.target ms) holder ∅) new
          (Members.target ms holder) := column_rename fun _ => rfl
  constructor
  · have hrename : handover (Members.adopt ms holder new now free) sent
        = (handover ms sent).rename holder new := by
      unfold handover State.rename
      rw [hgranted]
      congr 1
      funext id
      ext p
      unfold Members.adopt
      rw [mem_rename_keys hholder]
      rcases eq_or_ne id new with rfl | hid
      · rw [update_self, hsent]
        simp
      rcases eq_or_ne id holder with rfl | hid'
      · simp [hid]
      · rw [update_of_ne hid, update_of_ne hid']
        simp [hid, hid']
    rw [hrename]
    exact h.safe.rename hne
  · -- the same renaming, of the targets
    have hmoved := (Safe.rename (s := ⟨Members.target ms,
      fun _ => ∅⟩) ⟨h.targets, fun _ => Set.empty_subset _⟩ hne).apart
    rw [htarget]
    exact hmoved

theorem Good.upsert (h : Good ms sent) (now : ℤ) (memberId : String)
    (req : Request) (owned : Option (Finset TopicPartition))
    (regex : Option String) (matched : List String)
    (hsent : memberId ∉ ms.keys → sent memberId = ∅) :
    Good (upsertMember ms now memberId req owned regex matched) sent := by
  unfold upsertMember
  apply h.congr
  · exact column_upsert Finset.coe_empty fun _ => rfl
  · exact column_upsert Finset.coe_empty fun _ => rfl
  intro id p
  rw [mem_upsert_keys]
  refine ⟨?_, fun hp => ⟨.inl hp.1, hp.2⟩⟩
  intro hp
  by_cases hid : id ∈ ms.keys
  · exact ⟨hid, hp.2⟩
  · obtain rfl := hp.1.resolve_left hid
    rw [hsent hid] at hp
    cases hp.2

theorem recomputeTarget_keys (env : Env) (g : Group) :
    (recomputeTarget env g).members.keys = g.members.keys := by
  apply updateWhere_keys
  exact fun _ => rfl

/-- A recomputed target is as good as the stored one. -/
theorem Good.recomputed {g : Group} (h : Good g.members sent) (env : Env) :
    Good (recomputeTarget env g).members sent := by
  have hkeys := recomputeTarget_keys env g
  have hgranted : Members.granted (recomputeTarget env g).members = Members.granted g.members := by
    apply column_updateWhere
    · exact fun _ => rfl
    · exact fun _ => rfl
  constructor
  · unfold handover
    rw [hgranted, hkeys]
    exact h.safe
  · intro i j hij
    have hsub : ∀ id, Members.target (recomputeTarget env g).members id
        ⊆ targetOf env.topics g.members.rows id := by
      rintro id p ⟨m', hm', rfl, hp⟩
      obtain ⟨m, -, rfl⟩ := mem_map.1 hm'
      exact hp
    exact (Finset.disjoint_coe.2 (targetOf_apart env.topics g.members.rows
      hij)).mono (hsub i) (hsub j)

-- ==== reconcile

theorem mem_heldElsewhere {rows : List Member} {p : TopicPartition} :
    p ∈ heldElsewhere rows ↔ ∃ m ∈ rows, p ∈ m.owned ∪ m.granted ∧ p ∉ m.target := by
  have hfold : ∀ (rows : List Member) (held : Finset TopicPartition),
      p ∈ rows.foldl (fun held m => held ∪ ((m.owned ∪ m.granted) \ m.target)) held ↔ p ∈ held ∨
          ∃ m ∈ rows, p ∈ m.owned ∪ m.granted ∧ p ∉ m.target := by
    intro rows
    induction rows with
    | nil => simp
    | cons m rows ih =>
      intro held
      rw [foldl_cons, ih, Finset.mem_union, Finset.mem_sdiff, or_assoc]
      simp
  unfold heldElsewhere
  rw [hfold]
  simp

/-- What each member owns or is granted. -/
def Members.held (ms : Members) : String → Set TopicPartition :=
  ms.column fun m => ((m.owned ∪ m.granted : Finset TopicPartition) : Set TopicPartition)

/-- What is grantable to a member no other member owns or is granted. -/
theorem grantable_free (h : Good ms sent) {me : Member}
    (hme : me ∈ ms.rows) {other : Member} (hother : other ∈ ms.rows)
    (hne : other.memberId ≠ me.memberId) :
    Disjoint (grantable ms.rows me.target) (other.owned ∪ other.granted) := by
  have hapart : Disjoint (Handover.grantable (Members.held ms) (Members.target ms) me.memberId)
      (Members.held ms other.memberId) :=
    grantable_apart (h.targets _ _ hne.symm)
  unfold Members.held at hapart
  rw [column_of_mem hother] at hapart
  refine Finset.disjoint_coe.1 (hapart.mono_left ?_)
  intro p hp
  obtain ⟨hmine, helse⟩ := Finset.mem_sdiff.1 hp
  refine ⟨⟨me, hme, rfl, hmine⟩, ?_⟩
  rintro ⟨id, ⟨m, hm, rfl, hheld⟩, hmeant⟩
  unfold Members.target at hmeant
  rw [column_of_mem hm] at hmeant
  exact helse (mem_heldElsewhere.2 ⟨m, hm, hheld, hmeant⟩)

/-- What a report leaves, as a set. -/
def kept (acknowledged : Option (Finset TopicPartition)) : Set TopicPartition :=
  match acknowledged with
  | some owned => owned
  | none => Set.univ

theorem coe_keep (tps : Finset TopicPartition) (acknowledged : Option (Finset TopicPartition)) :
    (keep tps acknowledged : Set TopicPartition)
      = (tps : Set TopicPartition) ∩ kept acknowledged := by
  cases acknowledged with
  | none | some => simp [keep, kept]

/-- What every member was sent, once `me` has reported and is given
more. -/
def sentWith (sent : String → Finset TopicPartition) (me : String)
    (acknowledged : Option (Finset TopicPartition)) (given : Finset TopicPartition) (id : String) :
    Finset TopicPartition :=
  if id = me then keep (sent id) acknowledged ∪ given else sent id

/-- The member reports and is granted what is free. -/
theorem Good.granted (h : Good ms sent) {me : Member} (hme : me ∈ ms.rows)
    (acknowledged : Option (Finset TopicPartition)) {given : Finset TopicPartition}
    (hgiven : given ⊆ grantable ms.rows me.target)
    (hgranted : (set me).granted = keep me.granted acknowledged ∪ grantable ms.rows me.target)
    (htarget : ∀ m, (set m).target = m.target) {same : ∀ m, (set m).memberId = m.memberId} :
    Good (Members.updateOne ms me.memberId set same)
      (sentWith sent me.memberId acknowledged given) := by
  have hcolumn : Members.granted (Members.updateOne ms me.memberId set same)
      = Function.update (Members.granted ms) me.memberId
          (set me).granted := column_updateOne hme set same
  have hkeys : (Members.updateOne ms me.memberId set same).keys = ms.keys :=
    updateWhere_keys ms _ _ _
  have htargets : Members.target (Members.updateOne ms me.memberId set same) = Members.target ms :=
    column_updateWhere fun m => by rw [htarget]
  have hmoves : handover (Members.updateOne ms me.memberId set same)
        (sentWith sent me.memberId acknowledged given)
      = ((handover ms sent).report me.memberId (kept acknowledged)).grant
          me.memberId (grantable ms.rows me.target) given := by
    unfold handover State.grant State.report
    dsimp only
    rw [hcolumn, hgranted]
    congr 1
    · have hmine : Members.granted ms me.memberId = me.granted := column_of_mem hme
      rw [update_self, update_idem, hmine, Finset.coe_union, coe_keep]
    funext id
    ext p
    rw [hkeys]
    unfold sentWith
    rcases eq_or_ne id me.memberId with rfl | hid
    · have hin : me.memberId ∈ ms.keys := key_mem hme
      have hkeep : p ∈ keep (sent me.memberId) acknowledged ↔
          p ∈ sent me.memberId ∧ p ∈ kept acknowledged := by
        rw [← Finset.mem_coe, coe_keep]
        rfl
      simp [hin, hkeep]
    · simp [hid]
  constructor
  · rw [hmoves]
    refine (h.safe.report _ _).grant ?_ (Finset.coe_subset.2 hgiven)
    intro id hid
    have hother : ((handover ms sent).report me.memberId
        (kept acknowledged)).granted id = Members.granted ms id :=
      update_of_ne hid _ _
    rw [hother]
    by_cases hin : id ∈ ms.keys
    · obtain ⟨other, hrow, rfl⟩ := mem_keys.1 hin
      unfold Members.granted
      rw [column_of_mem hrow]
      exact Finset.disjoint_coe.2 ((grantable_free h hme hrow hid).mono_right
        Finset.subset_union_right)
    · unfold Members.granted
      rw [column_of_not_mem hin]
      exact Set.disjoint_empty _
  · rw [htargets]
    exact h.targets

/-- What `reconcile` leaves, and what its answer gives. -/
theorem reconcile_spec {g : Group} (h : Good g.members sent) (env : Env)
    {me : String} (hme : me ∈ g.members.keys) (prevEpoch : ℤ)
    (acknowledged : Option (Finset TopicPartition)) :
    let r := reconcile env g me prevEpoch acknowledged
    let given := env.topics.resolve r.2.2
    Good r.1.members (sentWith sent me acknowledged given) ∧
      ∀ other ∈ r.1.members.rows, other.memberId ≠ me → Disjoint given (sent other.memberId) ∧
        Disjoint given other.owned := by
  unfold reconcile
  dsimp only
  have h₁ : Good (if upToDate g env.now then g
      else recomputeTarget env g).members sent := by
    split
    · exact h
    · exact h.recomputed env
  have hme₁ : me ∈ (if upToDate g env.now then g
      else recomputeTarget env g).members.keys := by
    split
    · exact hme
    · rw [recomputeTarget_keys]
      exact hme
  generalize (if upToDate g env.now then g else recomputeTarget env g) = g₁ at h₁ hme₁
  obtain ⟨mine, hmine, rfl⟩ := mem_keys.1 hme₁
  have hfound := find?_eq_some.2 ⟨hmine, rfl⟩
  rw [hfound]
  have hgiven := resolve_toWire env.topics (grantable g₁.members.rows mine.target)
  constructor
  · apply h₁.granted hmine acknowledged hgiven
    · rfl
    · exact fun _ => rfl
  intro other hother hne
  have hrow := (mem_updateOne_of_ne hne).1 hother
  have hfree := (grantable_free h₁ hmine hrow hne).mono_left hgiven
  refine ⟨?_, hfree.mono_right Finset.subset_union_left⟩
  have hheld : (sent other.memberId : Set TopicPartition) ⊆ other.granted := by
    intro p hp
    have hcovered := h₁.safe.covered other.memberId ⟨key_mem hrow, hp⟩
    have hcolumn : Members.granted g₁.members other.memberId
        = other.granted := column_of_mem hrow
    exact hcolumn ▸ hcovered
  exact (hfree.mono_right Finset.subset_union_right).mono_right (Finset.coe_subset.1 hheld)

-- ==== heartbeat

/-- What a committed request leaves and answers. -/
structure Answered (env : Env) (req : Request)
    (sent : String → Finset TopicPartition) (r : Group × Response) :
    Prop where
  good : Good r.1.members fun id =>
    if r.2.memberId = some id ∧ r.2.assignment.isSome then
      keep (sent id) (req.topicPartitions.map env.topics.resolve) ∪ r.2.given env.topics
    else sent id
  excludes : ∀ who, r.2.memberId = some who →
    ∀ other ∈ r.1.members.rows, other.memberId ≠ who →
      Disjoint (r.2.given env.topics) (sent other.memberId) ∧
      Disjoint (r.2.given env.topics) other.owned

variable {env : Env} {req : Request} {g : Group} {r : Group × Response}

/-- A response without an assignment. -/
theorem Answered.quiet (h : Good g.members sent) {resp : Response}
    (hresp : resp.assignment = none) : Answered env req sent (g, resp) := by
  constructor
  · rw [hresp]
    simpa using h
  intro who _ other _ _
  have hnone : resp.given env.topics = ∅ := by
    unfold Response.given
    rw [hresp]
    rfl
  rw [hnone]
  exact ⟨Finset.disjoint_empty_left _, Finset.disjoint_empty_left _⟩

theorem answered_leave (h : Good g.members sent) : Answered env req sent (leave env g req) := by
  unfold leave
  split
  · exact .quiet h rfl
  split
  · exact .quiet h rfl
  refine .quiet ?_ rfl
  split
  · apply h.update <;> exact fun _ => rfl
  · split
    · exact h.delete _
    · exact h

theorem store_members (env : Env) (g : Group) (memberId : String)
    (req : Request) (regex : Option String) (matched : List String) :
    (store env g memberId req regex matched).members = upsertMember g.members env.now memberId req
          (req.topicPartitions.map env.topics.resolve) regex matched := by
  unfold store
  dsimp only
  split
  · rfl
  · split <;> rfl

/-- A pattern is refused without an assignment. -/
theorem matchedTopics_refusal {regex : Option String} {refusal : Response}
    (h : matchedTopics env regex = .error refusal) : refusal.assignment = none := by
  unfold matchedTopics at h
  split at h
  · cases h
  split at h
  · cases h
    rfl
  split at h
  · cases h
    rfl
  · cases h

theorem answered_serve (h : Good g.members sent) (memberId : String)
    (hsent : memberId ∉ g.members.keys → sent memberId = ∅) :
    Answered env req sent (serve env g memberId req) := by
  unfold serve
  dsimp only
  cases hm : matchedTopics env (regexOf (g.members.find? memberId) req) with
  | error refusal => exact .quiet h (matchedTopics_refusal hm)
  | ok matched =>
    dsimp only
    have hmembers := store_members env g memberId req
      (regexOf (g.members.find? memberId) req) matched
    generalize store env g memberId req
      (regexOf (g.members.find? memberId) req) matched = g₁ at hmembers
    have h₁ : Good g₁.members sent := by
      rw [hmembers]
      exact h.upsert env.now memberId req _ _ matched hsent
    have hin : memberId ∈ g₁.members.keys := by
      rw [hmembers]
      exact (mem_upsert_keys ..).2 (.inr rfl)
    obtain ⟨hgood, hexcl⟩ := reconcile_spec h₁ env hin
      (((g.members.find? memberId).map (·.epoch)).getD 0)
      (req.topicPartitions.map env.topics.resolve)
    constructor
    · refine hgood.congr rfl rfl ?_
      intro id p
      unfold sentWith Response.given
      rcases eq_or_ne id memberId with rfl | hid
      · simp
      · have hid' : memberId ≠ id := Ne.symm hid
        simp [hid, hid']
    · intro who hwho other hother hne
      cases hwho
      exact hexcl other hother hne

theorem answered_admit (h : Good g.members sent) (memberId : String)
    (hsent : memberId ∉ g.members.keys → sent memberId = ∅) :
    Answered env req sent (admission env g memberId req) := by
  unfold admission
  split
  · split
    · exact .quiet h rfl
    split
    · exact .quiet h rfl
    · exact answered_serve h memberId hsent
  · split
    · exact .quiet h rfl
    split
    · exact .quiet (h.delete _) rfl
    · exact answered_serve h memberId hsent

theorem answered_participate (h : Good g.members sent)
    (hsent : ∀ id, id ∉ g.members.keys → sent id = ∅) (hr : participate env g req = .ok r) :
    Answered env req sent r := by
  unfold participate at hr
  dsimp only at hr
  generalize (if req.memberId = "" then env.uuidLike else req.memberId) = memberId at hr
  have hsame : ∀ row, Answered env req sent (admission env ⟨row, g.members⟩ memberId req) :=
    fun row => answered_admit (g := ⟨row, g.members⟩) h memberId (hsent memberId)
  split at hr
  · cases hr
    exact .quiet h rfl
  split at hr
  · cases hr
    apply Answered.quiet
    · exact h
    · rfl
  · cases hr
  next ms hadopt =>
    cases hr
    -- adopted or not, the rows are good and the ids only gain this one
    unfold Members.adoptInstance at hadopt
    split at hadopt
    · cases hadopt
      exact hsame _
    split at hadopt
    · cases hadopt
      exact hsame _
    next holder hfound =>
      have hholder : holder.memberId ∈ g.members.keys := key_mem (mem_of_find?_eq_some hfound)
      split at hadopt
      · cases hadopt
        exact hsame _
      split at hadopt
      · cases hadopt
      split at hadopt
      next hfree =>
        cases hadopt
        have hnew := hsent memberId hfree
        apply answered_admit
        · exact h.adopt hfree hholder hnew
        · exact fun _ => hnew
      next => cases hadopt

theorem answered_heartbeat (h : Good g.members sent)
    (hsent : ∀ id, id ∉ g.members.keys → sent id = ∅) (hr : heartbeat env g req = .ok r) :
    Answered env req sent r := by
  unfold heartbeat at hr
  dsimp only at hr
  split at hr
  · cases hr
  split at hr
  · cases hr
  iterate 3
    split at hr
    · cases hr
      exact .quiet h rfl
  split at hr
  · cases hr
    exact answered_leave h
  · exact answered_participate h hsent hr

-- ==== the runs

/-- The invariant of a group's runs. -/
structure Inv (s : System) : Prop where
  good : Good s.group.members s.sent
  cleared : ∀ id, id ∉ s.group.members.keys → s.sent id = ∅

theorem Inv.init : Inv System.init := by
  refine ⟨?_, fun _ _ => rfl⟩
  constructor
  · constructor
    · intro i j _
      have hnone : (handover System.init.group.members System.init.sent).granted i = ∅ :=
        column_of_not_mem not_mem_nil
      rw [hnone]
      exact Set.empty_disjoint _
    · intro id p hp
      exact absurd hp.1 not_mem_nil
  · intro i j _
    unfold Members.target
    rw [column_of_not_mem not_mem_nil]
    exact Set.empty_disjoint _

variable {s : System}

theorem Inv.expire (h : Inv s) (now : ℤ) (alive : List String)
    (swept : String → Bool) : Inv (s.step (.expire now alive swept)) := by
  have hmembers : (expireMembers s.group now alive swept).members
      = (s.group.members.updateWhere (fun m => m.memberId ∈ alive)
          (fun m => { m with lastSeen := now }) fun _ => rfl).delete
            fun m => decide (m.lastSeen < now - sessionTimeoutMs) && swept m.memberId := by
    unfold expireMembers
    dsimp only
    split <;> rfl
  have hgood : Good (expireMembers s.group now alive swept).members s.sent := by
    rw [hmembers]
    apply Good.delete
    apply h.good.update <;> exact fun _ => rfl
  constructor
  · refine hgood.congr rfl rfl ?_
    intro id p
    apply and_congr_right
    intro hid
    dsimp only [System.step] at hid ⊢
    rw [if_pos hid]
  · intro id hid
    exact if_neg hid

theorem Inv.heartbeat (h : Inv s) (env : Env) (req : Request) :
    Inv (s.step (.heartbeat env req)) := by
  unfold System.step
  dsimp only
  split
  · exact h
  next g resp hr =>
  have hans := answered_heartbeat h.good h.cleared hr
  constructor
  · refine hans.good.congr rfl rfl ?_
    intro id p
    apply and_congr_right
    intro hid
    dsimp only [System.sentAfter] at hid ⊢
    rw [if_neg (not_not.2 hid)]
  · intro id hid
    exact if_pos hid

theorem Inv.step (h : Inv s) (e : Event) : Inv (s.step e) := by
  cases e with
  | heartbeat env req => exact h.heartbeat env req
  | expire now alive swept => exact h.expire now alive swept

theorem Inv.grantsApart (h : Inv s) : s.GrantsApart := by
  intro a ha b hb hne
  have hapart := h.good.safe.apart a.memberId b.memberId hne
  unfold handover Members.granted at hapart
  dsimp only at hapart
  rw [column_of_mem ha, column_of_mem hb] at hapart
  exact Finset.disjoint_coe.1 hapart

theorem Inv.excludes (h : Inv s) (e : Event) : Excludes s e := by
  cases e with
  | expire now alive swept => trivial
  | heartbeat env req =>
    intro g resp who hr hwho other hother hne
    obtain ⟨hsent, howned⟩ := (answered_heartbeat h.good h.cleared hr).excludes
      who hwho other hother hne
    have hsame : (s.step (.heartbeat env req)).sent other.memberId = s.sent other.memberId := by
      unfold System.step
      dsimp only
      rw [hr]
      have hin : other.memberId ∈ g.members.keys := key_mem hother
      have hne' : resp.memberId ≠ some other.memberId := by
        rw [hwho]
        exact fun he => hne (Option.some.inj he).symm
      dsimp only [System.sentAfter]
      rw [if_neg (not_not.2 hin), if_neg fun hc => hne' hc.1]
    rw [hsame]
    exact ⟨hsent, howned⟩

/-- In every run no partition is granted to two members, and no response
gives a member what another current member was sent and has not since
reported an owned list without. -/
theorem partitions_exclusive (events : List Event) :
    Run.Always System.step System.init events System.GrantsApart ∧
    Run.EachStep System.step System.init events Excludes := by
  have hinv : ∀ pre : List Event, Inv (pre.foldl System.step System.init) :=
    Run.foldl_inv Inv (fun _ e h => h.step e) Inv.init
  exact ⟨fun pre _ => (hinv pre).grantsApart, fun pre e _ => (hinv pre).excludes e⟩

end Kafgres.ConsumerGroup
