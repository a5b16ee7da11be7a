/-
The target assignment is a balanced partition.
-/
import Kafgres.ConsumerGroup.Proofs.Exclusion
import Mathlib.Data.Int.CardIntervalMod

namespace Kafgres.ConsumerGroup

open List

variable {ts : Topics} {ms : List Member} {t u : Topic} {m : Member} {p : ℤ} {who : String}

-- ==== balance

/-- What a target has of a topic. -/
def heldOf (target : Finset TopicPartition) (t : Topic) : Finset TopicPartition :=
  target.filter fun x => x.1 = t.id

/-- The target that is stored for a member. -/
def Group.targetFor (g : Group) (who : String) : Finset TopicPartition :=
  (g.members.find? who).elim ∅ (·.target)

/-- Every partition of a topic that some member wants is in the target of
one member, which wants the topic; and the members that want a topic have
equally many of its partitions, up to one. -/
structure Balanced (ts : Topics) (ms : List Member) (target : String → Finset TopicPartition) :
    Prop where
  dealt : ∀ t ∈ ts.rows, (∃ m ∈ ms, t.name ∈ m.wants) → ∀ p ∈ t.partitions,
    ∃! m, m ∈ ms ∧ (t.id, p) ∈ target m.memberId
  wanted : ∀ m ∈ ms, ∀ x ∈ target m.memberId,
    ∃ t ∈ ts.rows, t.id = x.1 ∧ x.2 ∈ t.partitions ∧ t.name ∈ m.wants
  apart : ∀ a ∈ ms, ∀ b ∈ ms, a.memberId ≠ b.memberId →
    Disjoint (target a.memberId) (target b.memberId)
  even : ∀ t ∈ ts.rows, ∀ a ∈ ms, ∀ b ∈ ms, t.name ∈ a.wants → t.name ∈ b.wants →
    (heldOf (target a.memberId) t).card ≤ (heldOf (target b.memberId) t).card + 1

-- ==== who asks for a topic

theorem Topics.eq_of_id (ht : t ∈ ts.rows) (hu : u ∈ ts.rows) (h : t.id = u.id) : t = u :=
  inj_on_of_nodup_map ts.nodup_ids ht hu h

theorem Topics.idOfName_eq (ht : t ∈ ts.rows) {name : String} :
    ts.idOfName name = some t.id ↔ name = t.name := by
  unfold Topics.idOfName
  rw [Option.map_eq_some_iff]
  constructor
  · rintro ⟨u, hu, hid⟩
    obtain rfl := Topics.eq_of_id (mem_of_find?_eq_some hu) ht hid
    have := find?_some hu
    simpa [eq_comm] using this
  · rintro rfl
    obtain ⟨u, hu⟩ : ∃ u, ts.rows.find? (fun u => u.name = t.name) = some u := by
      rw [← Option.isSome_iff_exists, find?_isSome]
      exact ⟨t, ht, by simp⟩
    have hname : u.name = t.name := by simpa using find?_some hu
    have : u = t := inj_on_of_nodup_map ts.names (mem_of_find?_eq_some hu) ht hname
    exact ⟨u, hu, by rw [this]⟩

/-- The members a topic is dealt to, in turn. -/
def askers (ts : Topics) (ms : List Member) (t : Topic) : List String :=
  ((byOid ts ms).filter fun m => t.id ∈ m.2).map Prod.fst

theorem mem_askers (ht : t ∈ ts.rows) :
    who ∈ askers ts ms t ↔ ∃ m ∈ ms, m.memberId = who ∧ t.name ∈ m.wants := by
  unfold askers byOid
  simp only [mem_map, mem_filter, mem_insertionSort, decide_eq_true_eq]
  constructor
  · rintro ⟨_, ⟨⟨m, hm, rfl⟩, hid⟩, rfl⟩
    obtain ⟨name, hname, hid⟩ := mem_filterMap.1 (mem_toFinset.1 hid)
    exact ⟨m, hm, rfl, (Topics.idOfName_eq ht).1 hid ▸ hname⟩
  · rintro ⟨m, hm, rfl, hname⟩
    refine ⟨_, ⟨⟨m, hm, rfl⟩, ?_⟩, rfl⟩
    exact mem_toFinset.2 (mem_filterMap.2 ⟨t.name, hname, (Topics.idOfName_eq ht).2 rfl⟩)

theorem nodup_askers (h : (ms.map (·.memberId)).Nodup) (t : Topic) : (askers ts ms t).Nodup := by
  have hall : ((byOid ts ms).map Prod.fst).Nodup := by
    refine ((perm_insertionSort _ _).map Prod.fst).nodup_iff.2 ?_
    rwa [map_map]
  exact hall.sublist (filter_sublist.map _)

/-- A partition is dealt by its place. -/
theorem mem_targetOf (ht : t ∈ ts.rows) :
    (t.id, p) ∈ targetOf ts ms who ↔
    ∃ i, t.partitions[i]? = some p ∧
      (askers ts ms t)[i % (askers ts ms t).length]? = some who := by
  unfold targetOf
  rw [mem_assign, mem_slots]
  constructor
  · rintro ⟨u, hu, hid, hdealt⟩
    obtain rfl := Topics.eq_of_id (mem_filter.1 hu).1 ht hid
    exact hdealt
  · rintro ⟨i, hp, hwho⟩
    obtain ⟨m, hm, -, hname⟩ := (mem_askers ht).1 (mem_of_getElem? hwho)
    refine ⟨t, mem_filter.2 ⟨ht, ?_⟩, rfl, i, hp, hwho⟩
    exact decide_eq_true (mem_flatMap.2 ⟨m, hm, hname⟩)

-- ==== how many each gets

/-- The one at a place of the turn gets the places that are the same
modulo the length of the turn. -/
theorem heldOf_card (ht : t ∈ ts.rows) (h : (ms.map (·.memberId)).Nodup) {j : ℕ}
    (hj : (askers ts ms t)[j]? = some who) :
    (heldOf (targetOf ts ms who) t).card =
      t.partitions.length.count (· ≡ j [MOD (askers ts ms t).length]) := by
  have hlt := (List.getElem?_eq_some_iff.1 hj).1
  have hplace : ∀ i, (askers ts ms t)[i % (askers ts ms t).length]? = some who ↔
      i ≡ j [MOD (askers ts ms t).length] := by
    intro i
    rw [← hj, getElem?_inj (Nat.mod_lt _ (by omega)) (nodup_askers h t), Nat.ModEq,
      Nat.mod_eq_of_lt hlt]
  rw [Nat.count_eq_card_filter_range]
  symm
  have hbound : ∀ {i}, i ∈ (Finset.range t.partitions.length).filter
      (· ≡ j [MOD (askers ts ms t).length]) → i < t.partitions.length :=
    fun hi => Finset.mem_range.1 (Finset.mem_filter.1 hi).1
  refine Finset.card_bij (fun i hi => (t.id, t.partitions.get ⟨i, hbound hi⟩)) ?_ ?_ ?_
  · intro i hi
    have hwho := (hplace i).2 (Finset.mem_filter.1 hi).2
    exact Finset.mem_filter.2 ⟨(mem_targetOf ht).2 ⟨i, getElem?_eq_getElem (hbound hi), hwho⟩, rfl⟩
  · intro a ha b hb hab
    exact (ts.partitions t ht).getElem_inj_iff.1 (Prod.mk.inj hab).2
  · rintro ⟨_, p⟩ hx
    obtain ⟨hmem, rfl⟩ := Finset.mem_filter.1 hx
    obtain ⟨i, hp, hwho⟩ := (mem_targetOf ht).1 hmem
    obtain ⟨hi, rfl⟩ := List.getElem?_eq_some_iff.1 hp
    exact ⟨i, Finset.mem_filter.2 ⟨Finset.mem_range.2 hi, (hplace i).1 hwho⟩, rfl⟩

-- ==== the theorem

/-- A partition goes to the member whose turn it is at its place. -/
theorem exists_turn (ht : t ∈ ts.rows) (hname : ∃ m ∈ ms, t.name ∈ m.wants)
    (hp : p ∈ t.partitions) :
    ∃ m ∈ ms, ∀ who, (t.id, p) ∈ targetOf ts ms who ↔ who = m.memberId := by
  obtain ⟨m₀, hm₀, hname⟩ := hname
  have hask := (mem_askers ht).2 ⟨m₀, hm₀, rfl, hname⟩
  obtain ⟨i, hi⟩ := mem_iff_getElem?.1 hp
  have hturn : i % (askers ts ms t).length < (askers ts ms t).length :=
    Nat.mod_lt _ (length_pos_of_mem hask)
  obtain ⟨m, hm, hid, -⟩ := (mem_askers ht).1 (getElem_mem hturn)
  refine ⟨m, hm, fun who => ?_⟩
  rw [mem_targetOf ht, hid]
  constructor
  · rintro ⟨i', hi', hwho⟩
    obtain rfl : i' = i := (getElem?_inj (List.getElem?_eq_some_iff.1 hi').1
      (ts.partitions t ht)).1 (hi'.trans hi.symm)
    exact ((getElem_eq_iff hturn).2 hwho).symm
  · rintro rfl
    exact ⟨i, hi, getElem?_eq_getElem hturn⟩

/-- What is stored for a member of the group is what the assignor gave
it. -/
theorem targetFor_recomputeTarget {env : Env} {g : Group} (hm : m ∈ g.members.rows) :
    (recomputeTarget env g).targetFor m.memberId =
      targetOf env.topics g.members.rows m.memberId := by
  unfold Group.targetFor recomputeTarget
  rw [Table.find?_updateWhere, Table.find?_eq_some.2 ⟨hm, rfl⟩]
  rfl

/-- Every computation of the targets makes them a balanced partition among
the members there are. -/
theorem targets_balanced (env : Env) (g : Group) :
    Balanced env.topics g.members.rows (recomputeTarget env g).targetFor := by
  constructor
  · intro t ht hname p hp
    obtain ⟨m, hm, hturn⟩ := exists_turn ht hname hp
    refine ⟨m, ⟨hm, ?_⟩, ?_⟩
    · rw [targetFor_recomputeTarget hm]
      exact (hturn _).2 rfl
    · rintro m' ⟨hm', hp'⟩
      rw [targetFor_recomputeTarget hm'] at hp'
      exact g.members.eq_of_key hm' hm ((hturn _).1 hp')
  · rintro m hm ⟨id, p⟩ hx
    rw [targetFor_recomputeTarget hm] at hx
    obtain ⟨t, ht, rfl, -⟩ := mem_slots.1 (mem_assign.1 hx)
    have ht := (mem_filter.1 ht).1
    obtain ⟨i, hi, hwho⟩ := (mem_targetOf ht).1 hx
    obtain ⟨m', hm', hid, hname⟩ := (mem_askers ht).1 (mem_of_getElem? hwho)
    obtain rfl := g.members.eq_of_key hm' hm hid
    exact ⟨t, ht, rfl, mem_of_getElem? hi, hname⟩
  · intro a ha b hb hab
    rw [targetFor_recomputeTarget ha, targetFor_recomputeTarget hb]
    exact targetOf_apart env.topics g.members.rows hab
  · intro t ht a ha b hb hwa hwb
    rw [targetFor_recomputeTarget ha, targetFor_recomputeTarget hb]
    obtain ⟨i, hi⟩ := mem_iff_getElem?.1 ((mem_askers ht).2 ⟨a, ha, rfl, hwa⟩)
    obtain ⟨j, hj⟩ := mem_iff_getElem?.1 ((mem_askers ht).2 ⟨b, hb, rfl, hwb⟩)
    have hpos := (Nat.zero_le i).trans_lt (List.getElem?_eq_some_iff.1 hi).1
    rw [heldOf_card ht g.members.unique hi, heldOf_card ht g.members.unique hj,
      Nat.count_modEq_card _ hpos, Nat.count_modEq_card _ hpos]
    split_ifs <;> omega

end Kafgres.ConsumerGroup
