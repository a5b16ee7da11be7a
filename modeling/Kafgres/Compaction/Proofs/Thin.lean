/-
What a pass makes of one batch, whatever the map and the policy say.
-/
import Kafgres.Codec.Proofs.Compaction
import Kafgres.Compaction.Pass

namespace Kafgres.Compaction

open KeyedLog List Batch

variable {B : Type} {b b' : Batch B} {e : Entry ℤ B B}

-- ==== sound batches

/-- What the log assumes of a batch: its records are numbered upwards
within its extent, a `kafgres_produce()` batch holds one record, and the
two readers agree on every record that is not too large to keep. -/
structure Batch.Sound (b : Batch B) : Prop where
  extent : 0 ≤ b.lastOffsetDelta
  numbered : b.records.Pairwise (·.offsetDelta < ·.offsetDelta)
  within : ∀ r ∈ b.records,
    0 ≤ r.offsetDelta ∧ r.offsetDelta ≤ b.lastOffsetDelta
  single : b.transactional = true → b.markerBacked = true →
    b.lastOffsetDelta = 0
  decodes : b.recordFault = none → b.keyFault = none
  malformed : ∀ at_, b.recordFault = some (at_, .malformed) →
    b.keyFault.isSome

/-- The first half of that. -/
structure Batch.Numbered (b : Batch B) : Prop where
  extent : 0 ≤ b.lastOffsetDelta
  upwards : b.records.Pairwise (·.offsetDelta < ·.offsetDelta)
  within : ∀ r ∈ b.records,
    0 ≤ r.offsetDelta ∧ r.offsetDelta ≤ b.lastOffsetDelta

theorem Batch.Sound.toNumbered (h : b.Sound) : b.Numbered := ⟨h.extent, h.numbered, h.within⟩

theorem Batch.Numbered.base_le_last (h : b.Numbered) : b.baseOffset ≤ b.lastOffset := by
  have := h.extent
  unfold lastOffset
  omega

theorem Batch.Sound.base_le_last (h : b.Sound) : b.baseOffset ≤ b.lastOffset :=
  h.toNumbered.base_le_last

theorem Batch.Numbered.offset_mem (h : b.Numbered) {r : Record B} (hr : r ∈ b.records) :
    b.baseOffset ≤ b.offset r ∧ b.offset r ≤ b.lastOffset := by
  have := h.within r hr
  unfold offset lastOffset
  omega

theorem mem_entries : e ∈ b.entries ↔ ∃ r ∈ b.records, e = ⟨b.offset r, r.key, r.value⟩ := by
  simp [entries, eq_comm]

theorem Batch.Sound.entry_mem (h : b.Sound) (he : e ∈ b.entries) :
    b.baseOffset ≤ e.offset ∧ e.offset ≤ b.lastOffset := by
  obtain ⟨r, hr, rfl⟩ := mem_entries.1 he
  exact h.toNumbered.offset_mem hr

theorem Batch.Sound.entries_ordered (h : b.Sound) : KeyedLog.Ordered b.entries := by
  refine pairwise_map.2 (h.numbered.imp fun hlt => ?_)
  exact Int.add_lt_add_left hlt _

-- ==== the rebuilt batch

section

variable [Wire B] {kept : List (KeptRecord B)}

section

variable (h : rebuildBatch b kept = some b')
include h

theorem rebuildBatch_header :
    b'.control = b.control ∧ b'.transactional = b.transactional ∧
    b'.producerId = b.producerId ∧ b'.producerEpoch = b.producerEpoch ∧
    b'.keyFault = none ∧ b'.recordFault = none ∧
    b'.compressed = false := by
  cases kept with
  | nil => cases h
  | cons first rest =>
    cases h
    exact ⟨rfl, rfl, rfl, rfl, rfl, rfl, rfl⟩

theorem rebuildBatch_entries : b'.entries = kept.map fun k => { k with } := by
  cases kept with
  | nil => cases h
  | cons first rest =>
    cases h
    unfold entries
    rw [map_map]
    refine map_congr_left fun k _ => ?_
    have hoff : first.offset + (k.offset - first.offset) = k.offset := by
      omega
    simp [offset, hoff]

/-- The rebuilt batch reaches from its first record to its last. -/
theorem rebuildBatch_extent :
    (∃ k ∈ kept, k.offset = b'.baseOffset) ∧ ∃ k ∈ kept, k.offset = b'.lastOffset := by
  cases kept with
  | nil => cases h
  | cons first rest =>
    cases h
    refine ⟨⟨first, .head _, rfl⟩, _, getLast_mem (cons_ne_nil first rest), ?_⟩
    unfold lastOffset
    dsimp only
    omega

/-- Every record kept lies within it. -/
theorem rebuildBatch_within (hk : kept.Pairwise (·.offset < ·.offset)) {k : KeptRecord B}
    (hmem : k ∈ kept) : b'.baseOffset ≤ k.offset ∧ k.offset ≤ b'.lastOffset := by
  cases kept with
  | nil => cases h
  | cons first rest =>
    have hlast : b'.lastOffset = ((first :: rest).getLast (cons_ne_nil _ _)).offset := by
      cases h
      unfold lastOffset
      dsimp only
      omega
    have hfirst : b'.baseOffset = first.offset := by
      cases h
      rfl
    rw [hlast, hfirst]
    constructor
    · rcases mem_cons.1 hmem with rfl | hin
      · exact le_rfl
      · exact ((pairwise_cons.1 hk).1 k hin).le
    have hne : first :: rest ≠ [] := cons_ne_nil _ _
    rw [← dropLast_append_getLast hne] at hmem hk
    rcases mem_append.1 hmem with hin | hin
    · exact ((pairwise_append.1 hk).2.2 k hin _ mem_cons_self).le
    · rw [mem_singleton.1 hin]

/-- Rebuilding numbers the records upwards within the new extent. -/
theorem rebuildBatch_numbered (hk : kept.Pairwise (·.offset < ·.offset)) : b'.Numbered := by
  have hin := fun k => rebuildBatch_within h hk (k := k)
  cases kept with
  | nil => cases h
  | cons first rest =>
    cases h
    unfold lastOffset at hin
    dsimp only at hin
    refine ⟨?_, pairwise_map.2 (hk.imp fun hlt => Int.sub_lt_sub_right hlt _), fun r hr => ?_⟩
    · have := hin first (.head _)
      dsimp only
      omega
    · obtain ⟨k, hmem, rfl⟩ := mem_map.1 hr
      have := hin k hmem
      dsimp only
      omega

end

theorem rebuildBatch_sound (hb : b.Sound) (h : rebuildBatch b kept = some b')
    (hk : kept.Pairwise (·.offset < ·.offset))
    (hin : ∀ k ∈ kept, b.baseOffset ≤ k.offset ∧ k.offset ≤ b.lastOffset) : b'.Sound := by
  obtain ⟨-, htxn, -, hepoch, hkf, hrf, -⟩ := rebuildBatch_header h
  obtain ⟨⟨k₁, hk₁, hbase⟩, k₂, hk₂, hlast⟩ := rebuildBatch_extent h
  have hnum := rebuildBatch_numbered h hk
  refine ⟨hnum.extent, hnum.upwards, hnum.within, fun ht hm => ?_, fun _ => hkf, fun at_ hf => ?_⟩
  · have hone := hb.single (htxn ▸ ht)
      (by unfold Batch.markerBacked at hm ⊢; rw [← hepoch]; exact hm)
    have h₁ := hin k₁ hk₁
    have h₂ := hin k₂ hk₂
    unfold lastOffset at h₁ h₂ hlast
    omega
  · simp [hrf] at hf

end

section

variable {keep : Record B → Bool}

/-- Records kept of a batch are in the order of their offsets. -/
theorem Batch.Numbered.kept_sorted (hb : b.Numbered) :
    ((b.records.filter keep).map b.keep).Pairwise (·.offset < ·.offset) := by
  refine pairwise_map.2 ((hb.upwards.filter _).imp fun h => ?_)
  exact Int.add_lt_add_left h _

theorem Batch.Numbered.kept_mem (hb : b.Numbered) {k : KeptRecord B}
    (hk : k ∈ (b.records.filter keep).map b.keep) :
    b.baseOffset ≤ k.offset ∧ k.offset ≤ b.lastOffset := by
  obtain ⟨r, hr, rfl⟩ := mem_map.1 hk
  exact hb.offset_mem (mem_of_mem_filter hr)

end

-- ==== one batch, thinned out

/-- Both batches were written by one producer in one transaction, or
outside any. -/
structure SameTxn (b b' : Batch B) : Prop where
  control : b'.control = b.control
  transactional : b'.transactional = b.transactional
  producerId : b'.producerId = b.producerId
  producerEpoch : b'.producerEpoch = b.producerEpoch

theorem SameTxn.markerBacked (h : SameTxn b b') : b'.markerBacked = b.markerBacked := by
  unfold Batch.markerBacked
  rw [h.producerEpoch]

variable {t : Txns}

/-- The outcome of a decided transaction is found at any of its
offsets. -/
theorem settled_rebuilt (hb : b.Sound) (hd : t.Decided b)
    (h : SameTxn b b') (hlow : b.baseOffset ≤ b'.baseOffset)
    (hhigh : b'.baseOffset ≤ b.lastOffset) : t.settled b' = t.settled b := by
  unfold Txns.settled
  rw [h.control, h.transactional, h.markerBacked, h.producerId]
  split
  · rfl
  next hplain =>
  have hplain : b.transactional = true ∧ b.control = false := by
    simpa using hplain
  split
  · next hm =>
      have hone := hb.single hplain.1 hm
      have hbase : b'.baseOffset = b.baseOffset := by
        unfold lastOffset at hhigh
        omega
      rw [hbase]
  · next hm =>
      have hm : b.markerBacked = false := by simpa using hm
      have hall := hd hplain.1 hplain.2 hm
      have hfirst := hall b.baseOffset le_rfl hb.base_le_last
      have hnew := hall b'.baseOffset hlow hhigh
      rw [hnew.1, hnew.2, hfirst.1]

theorem decided_rebuilt (hd : t.Decided b) (h : SameTxn b b') (hb' : b'.baseOffset ≤ b'.lastOffset)
    (hlow : b.baseOffset ≤ b'.baseOffset)
    (hhigh : b'.lastOffset ≤ b.lastOffset) : t.Decided b' := by
  intro ht hc hm o hlo hhi
  have hall := hd (h.transactional ▸ ht) (h.control ▸ hc) (h.markerBacked ▸ hm)
  have ho := hall o (hlow.trans hlo) (hhi.trans hhigh)
  have hnew := hall b'.baseOffset hlow (hb'.trans hhigh)
  rw [h.producerId]
  exact ⟨ho.1, ho.2.trans hnew.2.symm⟩

section

variable [Wire B]

/-- What a pass may put in the place of a batch. -/
structure Thin (b : Batch B) (out : List (Batch B)) : Prop where
  short : out.length ≤ 1
  sound : ∀ b' ∈ out, b'.Sound
  within : ∀ b' ∈ out,
    b.baseOffset ≤ b'.baseOffset ∧ b'.lastOffset ≤ b.lastOffset
  txn : ∀ b' ∈ out, SameTxn b b'
  entries : ∀ b' ∈ out, ∀ e ∈ b'.entries, e ∈ b.entries
  keys : ∀ b' ∈ out, b'.keyFault = none → b.keyFault = none
  unwieldy : ∀ b' ∈ out, b'.Unwieldy → b' = b

theorem Thin.refl (hb : b.Sound) : Thin b [b] := by
  constructor <;> simp [hb]
  exact ⟨rfl, rfl, rfl, rfl⟩

/-- An aborted batch goes whole. -/
theorem Thin.gone : Thin b [] := by
  constructor <;> simp

/-- A batch taken apart and rebuilt around records of it. -/
theorem Thin.rebuilt {keep : Record B → Bool} (hb : b.Sound) (hf : b.recordFault = none) :
    Thin b (rebuildBatch b ((b.records.filter keep).map b.keep)).toList := by
  have hkf := hb.decodes hf
  cases hr : rebuildBatch b ((b.records.filter keep).map b.keep) with
  | none => exact Thin.gone
  | some b' =>
    obtain ⟨hctl, htxn, hpid, hepoch, hk', hf', hc'⟩ := rebuildBatch_header hr
    have hnum := hb.toNumbered
    obtain ⟨⟨k₁, hk₁, hbase⟩, k₂, hk₂, hlast⟩ := rebuildBatch_extent hr
    have h₁ := hnum.kept_mem hk₁
    have h₂ := hnum.kept_mem hk₂
    have hsub : ∀ e ∈ b'.entries, e ∈ b.entries := by
      intro e he
      rw [rebuildBatch_entries hr, map_map] at he
      obtain ⟨r, hr, rfl⟩ := mem_map.1 he
      exact mem_entries.2 ⟨r, mem_of_mem_filter hr, rfl⟩
    rw [Option.toList_some]
    constructor
    · simp
    · simpa using rebuildBatch_sound hb hr hnum.kept_sorted fun k hk => hnum.kept_mem hk
    · rw [forall_mem_singleton]
      omega
    · rw [forall_mem_singleton]
      exact ⟨hctl, htxn, hpid, hepoch⟩
    · simpa using hsub
    · simp [hkf]
    · rw [forall_mem_singleton]
      rintro (hbad | ⟨hbad, -⟩)
      · simp [hf'] at hbad
      · simp [hc'] at hbad

variable {out : List (Batch B)}

/-- What replaces a batch is live when the batch is. -/
theorem Thin.live_iff (h : Thin b out) (hb : b.Sound)
    (hd : out = [b] ∨ t.Decided b) (hb' : b' ∈ out) : t.Live b' ↔ t.Live b := by
  rcases hd with rfl | hd
  · rw [mem_singleton.1 hb']
  have hin := h.within b' hb'
  have hle := (h.sound b' hb').base_le_last
  unfold Txns.Live
  rw [(h.txn b' hb').control, settled_rebuilt hb hd (h.txn b' hb') hin.1 (by omega)]

end

end Kafgres.Compaction
