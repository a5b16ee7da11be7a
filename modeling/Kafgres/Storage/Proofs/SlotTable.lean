/-
When the slot table keeps one slot per partition.

`slot_for` stops its probe at the first empty slot, but `drop_partition`
empties slots in the middle of other partitions' probe paths. A partition
behind such a hole is recovered a second time. `Clear` is the exact
boundary: nothing in front of a live slot stops the walk to it.
-/
import Kafgres.Lib.Run
import Kafgres.Storage.Slot

namespace Kafgres.Storage

open Function Probe

variable {stripes : ℕ} {sh : Shard} {k k' : Key} {i j : Fin slotsPerShard} {sh' : Shard} {s : Slot}

/-- The probe for `k` visits slot `i` before slot `j`. -/
abbrev Before (k : Key) (i j : Fin slotsPerShard) : Prop := Probe.Before (slotStart k) i j

/-- What the callers of `slot_for` rely on: a partition has at most one
slot, and asking for a partition that has one returns that slot with the
whole shard as it was. -/
structure SlotTableSound (stripes : ℕ) (sh : Shard) : Prop where
  unique : ∀ k i j, (sh.slots i).holds k → (sh.slots j).holds k → i = j
  found : ∀ k i recover, (sh.slots i).holds k →
    slotFor stripes sh k recover = .ok (i, sh)

/-- The call frees no slot that lies in front of another live
partition's slot on that partition's probe path. Only a drop frees
slots. -/
def FreesNoPath (sh : Shard) : ShardOp → Prop
  | .dropPartition k (.ok ()) => ∀ k' i j, k' ≠ k →
      (sh.slots i).holds k → (sh.slots j).holds k' → ¬ Before k' i j
  | _ => True

/-- The probing invariant: in front of a partition's slot, every slot on
its path is taken by another partition. -/
def Clear (sh : Shard) : Prop := ∀ k i, (sh.slots i).holds k → ∀ j, Before k j i →
    (sh.slots j).holds k = false ∧ (sh.slots j).empty = false

-- ==== what keeps callers safe

theorem holds_inj (h : s.holds k) (h' : s.holds k') : k = k' := by
  obtain ⟨t, p, ht⟩ := k
  obtain ⟨t', p', ht'⟩ := k'
  simp only [Slot.holds, Bool.and_eq_true, beq_iff_eq] at h h'
  obtain ⟨rfl, rfl⟩ := h
  obtain ⟨rfl, rfl⟩ := h'
  rfl

theorem not_empty_of_holds (h : s.holds k) : s.empty = false := by
  simp only [Slot.holds, Bool.and_eq_true, beq_iff_eq] at h
  simpa [Slot.empty, h.1] using k.topic_ne_zero

theorem default_not_holds (k : Key) : ({} : Slot).holds k = false := by
  cases h : ({} : Slot).holds k with
  | false => rfl
  | true => exact absurd (not_empty_of_holds h) (by decide)

/-- The probe reaches a live slot exactly when nothing in front of it
stops the walk. -/
theorem slotFor_found (hc : Clear sh) (h : (sh.slots i).holds k) (recover : StoreResult Recovered) :
    slotFor stripes sh k recover = .ok (i, sh) := by
  obtain ⟨pre, post, hp⟩ := List.append_of_mem (mem_ringPath (slotStart k) i)
  have hhit : probe (fun i => (sh.slots i).holds k)
      (fun i => (sh.slots i).empty) (ringPath (slotStart k)) = .hit i :=
    probe_hit_iff.2 ⟨pre, post, hp, fun j hj => hc k i h j ((mem_front_iff hp).1 hj), h⟩
  rw [slotFor, probePath, hhit]

theorem sound_iff_clear : SlotTableSound stripes sh ↔ Clear sh := by
  constructor
  · intro hs k i h j hj
    -- With a `recover` that fails, only a hit can answer `ok`.
    have hf := hs.found k i (.error .corruptBatch) h
    rw [slotFor] at hf
    split at hf
    · rename_i i' hhit
      obtain ⟨pre, post, hp, hpre, -⟩ := probe_hit_iff.1 hhit
      cases hf
      exact hpre j ((mem_front_iff hp).2 hj)
    · cases hf
    · cases hf
  · intro hc
    refine ⟨fun k i j hi hj => ?_, fun k i recover h =>
      slotFor_found hc h recover⟩
    by_contra hne
    rcases before_or_before (slotStart k) hne with hb | hb
    · simpa [hi] using (hc k j hj i hb).1
    · simpa [hj] using (hc k i hi j hb).1

-- ==== the steps

/-- `Clear` reads nothing of a slot but its key. -/
theorem clear_of_same_keys (hc : Clear sh) (ht : ∀ i, (sh'.slots i).topic = (sh.slots i).topic)
    (hp : ∀ i, (sh'.slots i).partition = (sh.slots i).partition) : Clear sh' := by
  intro k i h j hj
  simp only [Slot.holds, Slot.empty, ht, hp] at h ⊢
  exact hc k i h j hj

/-- Taking the first empty slot on a partition's path keeps the
invariant. -/
theorem clear_allocate (hc : Clear sh) (hs : s.holds k)
    (hhole : probe (fun i => (sh.slots i).holds k)
      (fun i => (sh.slots i).empty) (probePath k) = .hole i) : Clear (sh.setSlot i s) := by
  obtain ⟨pre, post, hp, hpre, -, hempty⟩ := probe_hole hhole
  have hold : ∀ k' i', (sh.slots i').holds k' → ¬ Before k' i i' := by
    intro k' i' h hb
    simp [(hc k' i' h i hb).2] at hempty
  intro k' i' h j hj
  simp only [Shard.setSlot, update_apply] at h ⊢
  rcases eq_or_ne i' i with rfl | hi
  · -- The new slot: its front is what the probe passed.
    obtain rfl := holds_inj (by simpa using h) hs
    have hne : j ≠ i' := by rintro rfl; exact before_irrefl hj
    rw [if_neg hne]
    exact hpre j ((mem_front_iff hp).2 hj)
  · rw [if_neg hi] at h
    have hne : j ≠ i := by rintro rfl; exact hold k' i' h hj
    rw [if_neg hne]
    exact hc k' i' h j hj

theorem recovered_slot_holds (r : Recovered) (stripes : ℕ) (k : Key)
    (i : Fin slotsPerShard) : (r.slot stripes k i).holds k := by
  simp [Recovered.slot, Slot.holds]

theorem clear_slotFor {recover : StoreResult Recovered}
    (hc : Clear sh) (h : slotFor stripes sh k recover = .ok (i, sh')) : Clear sh' := by
  rw [slotFor] at h
  split at h
  · cases h
    exact hc
  · rename_i i' hhole
    cases recover with
    | error e => cases h
    | ok r =>
      cases h
      exact clear_allocate hc (recovered_slot_holds r stripes k _) hhole
  · cases h

theorem clear_withSlot (hc : Clear sh) (recover : StoreResult Recovered)
    (body : SlotBody) : Clear (withSlot stripes sh k recover body) := by
  rw [withSlot]
  cases h : slotFor stripes sh k recover with
  | error e => exact hc
  | ok r =>
    obtain ⟨i, sh'⟩ := r
    refine clear_of_same_keys (clear_slotFor hc h) (fun j => ?_) (fun j => ?_) <;>
    · simp only [Shard.setSlot, update_apply]
      split
      · rename_i hj
        subst hj
        first
        | exact body.topic_run _ _
        | exact body.partition_run _ _
      · rfl

theorem clear_releasePending (hc : Clear sh) (base : ℤ) : Clear (releasePending sh k base) := by
  rw [releasePending]
  split
  · exact hc
  refine clear_of_same_keys hc (fun j => ?_) (fun j => ?_) <;>
  · simp only [Shard.setSlot, update_apply]
    split
    · rename_i hj
      rw [hj]
    · rfl

/-- A drop keeps the invariant exactly when the slot it frees is in
front of no other live slot. -/
theorem clear_drop_iff (hc : Clear sh) :
    Clear (dropPartition sh k (.ok ())) ↔ FreesNoPath sh (.dropPartition k (.ok ())) := by
  -- A slot survives the drop iff it is another partition's.
  have hkeep : ∀ k' i, ((dropPartition sh k (.ok ())).slots i).holds k' ↔
      (sh.slots i).holds k' ∧ k' ≠ k := by
    intro k' i
    simp only [dropPartition]
    split
    · rename_i h
      simp only [default_not_holds, Bool.false_eq_true, false_iff, not_and, not_not]
      exact fun h' => holds_inj h' h
    rename_i h
    refine ⟨fun h' => ⟨h', ?_⟩, And.left⟩
    rintro rfl
    exact h h'
  constructor
  · intro hd k' i j hne hi hj hb
    have := (hd k' j ((hkeep k' j).2 ⟨hj, hne⟩) i hb).2
    simp [dropPartition, hi, Slot.empty] at this
  intro hfree k' i h j hj
  obtain ⟨h, hne⟩ := (hkeep k' i).1 h
  have hk : ¬ (sh.slots j).holds k = true := fun hk => hfree k' j i hne hk h hj
  simp only [dropPartition, if_neg hk]
  exact hc k' i h j hj

/-- From a clear shard, one call leads to a clear shard exactly when it
frees no slot in front of another live one. -/
theorem clear_apply_iff (op : ShardOp) (hc : Clear sh) :
    Clear (op.apply stripes sh) ↔ FreesNoPath sh op := by
  cases op with
  | withSlot k recover body =>
    simpa [FreesNoPath, ShardOp.apply] using clear_withSlot hc recover body
  | dropPartition k removed =>
    cases removed with
    | error e => simpa [FreesNoPath, ShardOp.apply, dropPartition] using hc
    | ok u => exact clear_drop_iff hc
  | releasePending k base =>
    simpa [FreesNoPath, ShardOp.apply] using clear_releasePending hc base

theorem clear_initial (rings : ℕ → Cells) : Clear (.initial rings) := by
  intro k i h
  simp [Shard.initial, default_not_holds] at h

-- ==== the runs

/-- **The slot table's contract, at its exact boundary.** Over any run of
calls from shared memory as initialised, every state reached has one
slot per partition and finds it intact, precisely when no drop of the
run frees a slot in front of another live partition's slot on that
partition's probe path. -/
theorem slotTable_sound_iff (stripes : ℕ) (rings : ℕ → Cells) (ops : List ShardOp) :
    Run.Always (ShardOp.apply stripes) (.initial rings) ops (SlotTableSound stripes) ↔
      Run.EachStep (ShardOp.apply stripes) (.initial rings) ops FreesNoPath := by
  refine Run.prefixes_iff (fun sh op hs => ?_) (sound_iff_clear.2 (clear_initial rings))
  rw [sound_iff_clear]
  exact clear_apply_iff op (sound_iff_clear.1 hs)

-- ------------------------------------------------- the defect, replayed

/-- Two partitions of topic 1 whose probes start at the same slot. -/
def collider : Key := ⟨1, 0, Key.one_ne_zero⟩

@[inherit_doc collider]
def collided : Key := ⟨1, 239, Key.one_ne_zero⟩

/-- An append by an open SQL transaction: one offset, reserved. -/
def reservingBody : SlotBody where
  run s c :=
    let r := s.pending.reserve c s.nextOffset
    ({ s with pending := r.1, nextOffset := s.nextOffset + 1 }, r.2.1)
  topic_run _ _ := rfl
  partition_run _ _ := rfl

/-- What recovery reads for a partition with nothing on disk. -/
def nothingOnDisk : Recovered := ⟨0, 0, 0, (i64Min, -1), i64Min⟩

/-- Both partitions are appended to, the first is dropped, and the
second is appended to again. -/
def holeRun : List ShardOp := [.withSlot collider (.ok nothingOnDisk) reservingBody,
   .withSlot collided (.ok nothingOnDisk) reservingBody,
   .dropPartition collider (.ok ()),
   .withSlot collided (.ok nothingOnDisk) reservingBody]

/-- After the drop the second append lands in a second slot of the same
partition, recovered afresh, while the first slot still holds the
reservation. -/
theorem dropPartition_splits_partition :
    let sh := runShard 16 (.initial fun _ => ⟨4, fun _ => 0⟩) holeRun
    shardOf 16 collider = shardOf 16 collided ∧
      (sh.slots 222).holds collided ∧ (sh.slots 223).holds collided ∧
      ¬ Run.Always (ShardOp.apply 16) (.initial fun _ => ⟨4, fun _ => 0⟩)
        holeRun (SlotTableSound 16) := by
  intro sh
  have h : shardOf 16 collider = shardOf 16 collided ∧
      (sh.slots 222).holds collided ∧ (sh.slots 223).holds collided := by
    decide +kernel
  refine ⟨h.1, h.2.1, h.2.2, fun hs => ?_⟩
  have hu := (hs holeRun (List.prefix_refl _)).unique
  exact absurd (hu _ _ _ h.2.1 h.2.2) (by decide)

end Kafgres.Storage
