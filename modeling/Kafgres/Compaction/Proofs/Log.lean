/-
The log as a whole: how its batches lie, and what replacing some of them
does to a reader's table.
-/
import Kafgres.Compaction.Proofs.Judge
import Kafgres.Compaction.Proofs.Layout

namespace Kafgres.Compaction

open KeyedLog Rewriting List

variable {B : Type} {p p' : Partition B} {b b' : Batch B}

-- ==== how the batches lie

namespace Partition

theorem mem_table {e : Entry ℤ B B} : e ∈ p.table ↔ ∃ b ∈ p.log, p.txns.Live b ∧ e ∈ b.entries := by
  simp [table, and_assoc]

/-- The shape of a partition between operations. Segments and batches
are in offset order; the cursor stands between two batches, at or below
the last stable offset; and below that, every transaction is over. -/
structure Shape (p : Partition B) : Prop extends Layout p where
  sound : ∀ b ∈ p.log, b.Sound
  cursor_nonneg : 0 ≤ p.compactCursor
  cursor_le : p.compactCursor ≤ p.lastStable
  stable_le : p.lastStable ≤ p.nextOffset
  boundary : ∀ b ∈ p.log, b.baseOffset < p.compactCursor →
    b.lastOffset < p.compactCursor
  decided : ∀ b ∈ p.log, b.lastOffset < p.lastStable → p.txns.Decided b

namespace Shape

theorem eq_of_base_eq (h : p.Shape) (hb : b ∈ p.log) (hb' : b' ∈ p.log)
    (heq : b.baseOffset = b'.baseOffset) : b = b' := by
  have h₁ := h.extent b hb
  have h₂ := h.extent b' hb'
  rcases apart_of_ordered h.ordered hb hb' with he | hlt | hlt
  · exact he
  · omega
  · omega

/-- Entries are in the order of their offsets. -/
theorem table_ordered (h : p.Shape) : KeyedLog.Ordered p.table := by
  refine pairwise_flatMap.2 ⟨fun b hb => ?_, ?_⟩
  · exact (h.sound b (mem_of_mem_filter hb)).entries_ordered
  have hmem : ∀ b ∈ p.log.filter fun b => decide (p.txns.Live b),
      b ∈ p.log := fun b hb => mem_of_mem_filter hb
  refine (h.ordered.filter _).imp_of_mem fun hb hb' hlt e he e' he' => ?_
  have h₁ := (h.sound _ (hmem _ hb)).entry_mem he
  have h₂ := (h.sound _ (hmem _ hb')).entry_mem he'
  omega

/-- A batch at or above a segment's base and not above a sealed
segment's last lies in a sealed segment. -/
theorem closed_of_lt_active (h : p.Shape) (hb : b ∈ p.log) (hlt : b.baseOffset < p.active.base) :
    ∃ s ∈ p.closed, b ∈ s.batches := by
  obtain ⟨s, hs, hin⟩ := mem_log.1 hb
  rcases mem_append.1 hs with hs | hs
  · exact ⟨s, hs, hin⟩
  rw [mem_singleton.1 hs] at hin
  have := (h.based _ p.active_mem).2 b hin
  omega

end Shape

end Partition

-- ==== tombstones

/-- Tombstones below an offset, in batches whose keys can be read, hide
no value. -/
def CleanBelow (p : Partition B) (offset : ℤ) : Prop :=
  ∀ b ∈ p.log, p.txns.Live b → b.keyFault = none → ∀ e ∈ b.entries,
    e.key.isSome → e.value = none → e.offset < offset → Moot p.table e

/-- A committed tombstone of the entry's key, in a batch whose keys can
be read, comes after it. -/
def Deleted (p : Partition B) (e : Entry ℤ B B) : Prop :=
  ∃ b ∈ p.log, p.txns.Live b ∧ b.keyFault = none ∧ ∃ e' ∈ b.entries,
    e'.key = e.key ∧ e'.value = none ∧ e.offset < e'.offset

instance [DecidableEq B] (p : Partition B) (e : Entry ℤ B B) : Decidable (Deleted p e) :=
  inferInstanceAs (Decidable (∃ b ∈ p.log, _ ∧ _ ∧ ∃ e' ∈ b.entries, _))

section

variable [Wire B]

/-- No unwieldy batch holds a committed value that a later tombstone
deletes. -/
def Disposable (p : Partition B) : Prop :=
  ∀ b ∈ p.log, p.txns.Live b → b.Unwieldy → ∀ e ∈ b.entries,
    e.key.isSome → e.value.isSome → ¬ Deleted p e

instance [DecidableEq B] (p : Partition B) : Decidable (Disposable p) :=
  inferInstanceAs (Decidable (∀ b ∈ p.log, _ → _ → ∀ e ∈ b.entries, _))

-- ==== a thinned log

theorem Thin.toWithin {out : List (Batch B)} (h : Thin b out) : Within b out := by
  refine ⟨h.short, fun b' hb' => ?_⟩
  have hin := h.within b' hb'
  exact ⟨hin.1, (h.sound b' hb').base_le_last, hin.2⟩

/-- A batch replaced without a reader noticing, as far as the batch
itself goes: what is gone of it was superseded or hid nothing. -/
structure Replaces (p : Partition B) (b : Batch B) (out : List (Batch B)) :
    Prop where
  thin : Thin b out
  decided : out = [b] ∨ p.txns.Decided b
  faulty : p.txns.Live b → b.keyFault.isSome → out = [b]
  dropped : p.txns.Live b → ∀ e ∈ b.entries, e.key.isSome →
    (∀ b' ∈ out, e ∉ b'.entries) → Superseded p.table e ∨ Moot p.table e

theorem Replaces.refl (hb : b.Sound) : Replaces p b [b] :=
  ⟨Thin.refl hb, Or.inl rfl, fun _ _ => rfl, fun _ _ he _ hout =>
    absurd he (hout b mem_cons_self)⟩

/-- The partition after some of its sealed segments were replaced. -/
structure Thinned (p p' : Partition B) : Prop where
  closed : Rewrites (SegReplaces (Replaces p)) p.closed p'.closed
  active : p'.active = p.active
  nextOffset : p'.nextOffset = p.nextOffset
  compactCursor : p'.compactCursor = p.compactCursor
  lastStable : p'.lastStable = p.lastStable
  txns : p'.txns = p.txns

namespace Thinned

theorem replaced (h : Thinned p p') : Replaced (Replaces p) p p' := { h with }

theorem log (hp : p.Shape) (h : Thinned p p') : Rewrites (Replaces p) p.log p'.log :=
  h.replaced.log fun b hb => Replaces.refl (hp.sound b hb)

theorem live_iff (h : Thinned p p') : p'.txns.Live b ↔ p.txns.Live b := by
  rw [h.txns]

section

variable (hp : p.Shape) (h : Thinned p p')
include hp h

/-- Every batch of the thinned log replaces one of the old log, and is
live when that one is. -/
theorem source (hb' : b' ∈ p'.log) :
    ∃ b ∈ p.log, (p'.txns.Live b' ↔ p.txns.Live b) ∧ ∃ out, Replaces p b out ∧ b' ∈ out := by
  obtain ⟨b, hb, out, hR, hin⟩ := (h.log hp).source hb'
  refine ⟨b, hb, ?_, out, hR, hin⟩
  rw [h.live_iff]
  exact hR.thin.live_iff (hp.sound b hb) hR.decided hin

theorem mem_table {e : Entry ℤ B B} (he : e ∈ p'.table) : e ∈ p.table := by
  obtain ⟨b', hb', hlive, hin⟩ := Partition.mem_table.1 he
  obtain ⟨b, hb, hiff, out, hR, hout⟩ := h.source hp hb'
  exact Partition.mem_table.2 ⟨b, hb, hiff.1 hlive, hR.thin.entries b' hout e hin⟩

theorem shape : p'.Shape := by
  have hlayout : p'.Layout := by
    apply h.replaced.layout hp.toLayout
    · exact fun b hb => Replaces.refl (hp.sound b hb)
    · exact fun b out hR => hR.thin.toWithin
  refine ⟨hlayout, ?_, ?_, ?_, ?_, ?_, ?_⟩
  · intro b' hb'
    obtain ⟨b, -, -, out, hR, hin⟩ := h.source hp hb'
    exact hR.thin.sound b' hin
  · rw [h.compactCursor]
    exact hp.cursor_nonneg
  · rw [h.compactCursor, h.lastStable]
    exact hp.cursor_le
  · rw [h.lastStable, h.nextOffset]
    exact hp.stable_le
  · intro b' hb' hlt
    obtain ⟨b, hb, -, out, hR, hin⟩ := h.source hp hb'
    obtain ⟨hge, hle⟩ := hR.thin.within b' hin
    rw [h.compactCursor] at hlt ⊢
    exact lt_of_le_of_lt hle (hp.boundary b hb (lt_of_le_of_lt hge hlt))
  · intro b' hb' hlt
    obtain ⟨b, hb, -, out, hR, hin⟩ := h.source hp hb'
    rw [h.txns]
    rw [h.lastStable] at hlt
    rcases hR.decided with rfl | hdec
    · rw [mem_singleton.1 hin] at hlt ⊢
      exact hp.decided b hb hlt
    · exact decided_rebuilt hdec (hR.thin.txn b' hin)
        (hR.thin.sound b' hin).base_le_last (hR.thin.within b' hin).1
        (hR.thin.within b' hin).2

/-- A reader's table is the same over the thinned log. -/
theorem view_eq [DecidableEq B] : p'.view = p.view := by
  refine KeyedLog.view_eq_of_cleaned hp.table_ordered
    (h.shape hp).table_ordered (fun e he => h.mem_table hp he) ?_
  intro e he hkey hgone
  obtain ⟨b, hb, hlive, hin⟩ := Partition.mem_table.1 he
  obtain ⟨out, hR, hsub⟩ := (h.log hp).image hb
  refine hR.dropped hlive e hin hkey fun b' hb' he' => hgone ?_
  refine Partition.mem_table.2 ⟨b', hsub b' hb', ?_, he'⟩
  rw [h.live_iff]
  exact (hR.thin.live_iff (hp.sound b hb) hR.decided hb').2 hlive

/-- A tombstone that hid nothing still hides nothing. -/
theorem cleanBelow {o : ℤ} (hc : CleanBelow p o) : CleanBelow p' o := by
  intro b' hb' hlive hk e he hkey hv ho
  obtain ⟨b, hb, hiff, out, hR, hin⟩ := h.source hp hb'
  have hmoot := hc b hb (hiff.1 hlive) (hR.thin.keys b' hin hk)
    e (hR.thin.entries b' hin e he) hkey hv ho
  exact ⟨hmoot.1, fun e' he' => hmoot.2 e' (h.mem_table hp he')⟩

theorem deleted {e : Entry ℤ B B} (hd : Deleted p' e) : Deleted p e := by
  obtain ⟨b', hb', hlive, hk, e', he', hrest⟩ := hd
  obtain ⟨b, hb, hiff, out, hR, hin⟩ := h.source hp hb'
  exact ⟨b, hb, hiff.1 hlive, hR.thin.keys b' hin hk, e', hR.thin.entries b' hin e' he', hrest⟩

theorem disposable (hd : Disposable p) : Disposable p' := by
  intro b' hb' hlive hu e he hkey hv hdel
  obtain ⟨b, hb, -, out, hR, hin⟩ := h.source hp hb'
  rw [h.live_iff] at hlive
  -- a batch that is still unwieldy is one the pass left alone
  obtain rfl := hR.thin.unwieldy b' hin hu
  exact hd b' hb hlive hu e he hkey hv (h.deleted hp hdel)

end

end Thinned

end

end Kafgres.Compaction
