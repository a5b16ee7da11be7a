/-
What a read returns.
-/
import Kafgres.Codec.Proofs.Compaction
import Kafgres.Fetch.Client

namespace Kafgres.Fetch

open Compaction List

variable {B : Type} {s : Store B} {l : Limits} {r r' : Reading B}
variable {bs bs' : List (Batch B)} {full : Bool}

-- ==== the batch loop

variable {b : Batch B} {committed : Option (List ℤ)} {o : ℤ}

@[simp] theorem note_out (r : Reading B) : (r.note committed b).out = r.out := by
  unfold Reading.note
  split <;> rfl

@[simp] theorem note_next (r : Reading B) : (r.note committed b).next = r.next := by
  unfold Reading.note
  split <;> rfl

@[simp] theorem note_bytes (r : Reading B) : (r.note committed b).bytes = r.bytes := by
  unfold Reading.bytes
  rw [note_out]

@[simp] theorem take_bytes (r : Reading B) : (r.take b).bytes = r.bytes + b.len := by
  simp [Reading.bytes, Reading.take]

/-- Batches that end below the offset are passed over. -/
theorem readBatches_skip (h : ∀ b ∈ bs, b.lastOffset < l.offset) :
    readBatches l (bs ++ bs') r = readBatches l bs' r := by
  induction bs with
  | nil => rfl
  | cons b bs ih =>
    rw [cons_append, readBatches, if_pos (h b mem_cons_self)]
    exact ih fun x hx => h x (.tail _ hx)

/-- Above the ceiling nothing is read. -/
theorem readBatches_above (h : ∀ b ∈ bs, l.ceiling ≤ b.baseOffset) :
    readBatches l bs r = (r, false) := by
  induction bs with
  | nil => rfl
  | cons b bs ih =>
    rw [readBatches]
    split
    · exact ih fun x hx => h x (.tail _ hx)
    · rw [if_pos (h b mem_cons_self)]

/-- The loop over two stretches of a log is one after the other. -/
theorem readBatches_append (hord : (bs ++ bs').Pairwise (·.baseOffset < ·.baseOffset)) :
    readBatches l (bs ++ bs') r = if (readBatches l bs r).2 then readBatches l bs r
      else readBatches l bs' (readBatches l bs r).1 := by
  induction bs generalizing r with
  | nil => rfl
  | cons b bs ih =>
    obtain ⟨hb, hrest⟩ := pairwise_cons.1 hord
    rw [cons_append, readBatches, readBatches]
    split
    · exact ih hrest
    split
    · next hc =>
        -- the rest of the log is above the ceiling too
        rw [if_neg (by simp)]
        symm
        refine readBatches_above fun x hx => ?_
        have := hb x (mem_append_right _ hx)
        omega
    split
    · rfl
    split
    · rfl
    · exact ih hrest

theorem endOf_cons : endOf o (b :: bs) = endOf (b.lastOffset + 1) bs := by
  unfold endOf
  cases bs with
  | nil => rfl
  | cons x bs =>
    rw [getLast?_cons_cons]
    rfl

theorem endOf_eq (o : ℤ) (bs : List (Batch B)) :
    (bs = [] ∧ endOf o bs = o) ∨ ∃ b ∈ bs, endOf o bs = b.lastOffset + 1 := by
  unfold endOf
  cases hlast : bs.getLast? with
  | none => exact Or.inl ⟨getLast?_eq_none_iff.1 hlast, rfl⟩
  | some b => exact Or.inr ⟨b, mem_of_getLast? hlast, rfl⟩

theorem fitting_prefix (maxBytes used : ℕ) (bs : List (Batch B)) :
    fitting maxBytes used bs <+: bs := by
  induction bs generalizing used with
  | nil => exact prefix_rfl
  | cons b bs ih =>
    unfold fitting
    split
    · exact nil_prefix
    split
    · exact cons_prefix_cons.2 ⟨rfl, nil_prefix⟩
    · exact cons_prefix_cons.2 ⟨rfl, ih _⟩

/-- The batches a read can return. -/
def Limits.admits (l : Limits) (b : Batch B) : Bool :=
  decide (l.offset ≤ b.lastOffset) && decide (b.baseOffset < l.ceiling)

/-- What the loop adds to the answer, and what it reports: the orphans
it returns, and at most one that did not fit. -/
theorem readBatches_spec (hord : bs.Pairwise (·.lastOffset < ·.baseOffset))
    (hext : ∀ b ∈ bs, b.baseOffset ≤ b.lastOffset) (hrun : readBatches l bs r = (r', full)) :
    ∃ (new : List (Batch B)) (extra : List AbortedTxn),
      new = fitting l.maxBytes r.bytes (bs.filter l.admits) ∧
      r'.out = r.out ++ new ∧ r'.next = endOf r.next new ∧
      (∀ a ∈ extra, ∃ x ∈ bs, a.firstOffset = x.baseOffset ∧
        ∀ b ∈ new, b.lastOffset < x.baseOffset) ∧
      ∀ a, a ∈ r'.aborted ↔ a ∈ r.aborted ∨ (∃ b ∈ new, orphan l.committed b = true ∧
          a = ⟨b.producerId, b.baseOffset⟩) ∨ a ∈ extra := by
  induction bs generalizing r with
  | nil =>
    cases hrun
    exact ⟨[], [], rfl, by simp, rfl, by simp, by simp⟩
  | cons b bs ih =>
    obtain ⟨hb, hrest⟩ := pairwise_cons.1 hord
    have hext' := fun x hx => hext x (mem_cons_of_mem _ hx)
    have hnote : ∀ a, a ∈ (r.note l.committed b).aborted ↔
        a ∈ r.aborted ∨ (orphan l.committed b = true ∧ a = ⟨b.producerId, b.baseOffset⟩) := by
      intro a
      unfold Reading.note
      split <;> next ho => simp [ho]
    rw [readBatches] at hrun
    split at hrun
    · next hlow =>
        rw [filter_cons_of_neg (by simp [Limits.admits, hlow])]
        obtain ⟨new, extra, hnew, hout, hnext, hextra, habort⟩ := ih hrest hext' hrun
        refine ⟨new, extra, hnew, hout, hnext, fun a ha => ?_, habort⟩
        obtain ⟨x, hx, hrest⟩ := hextra a ha
        exact ⟨x, mem_cons_of_mem _ hx, hrest⟩
    next hoff =>
    split at hrun
    · next hceil =>
        -- the rest is above the ceiling too
        cases hrun
        have hnone : (b :: bs).filter l.admits = [] := by
          refine filter_eq_nil_iff.2 fun x hx => ?_
          have hge : l.ceiling ≤ x.baseOffset := by
            rcases mem_cons.1 hx with rfl | hx
            · exact hceil
            · have := hb x hx
              have := hext b mem_cons_self
              omega
          simp [Limits.admits, hge]
        rw [hnone]
        exact ⟨[], [], rfl, by simp, rfl, by simp, by simp⟩
    next hceil =>
    have hadm : l.admits b = true := by
      simp only [Limits.admits, Bool.and_eq_true, decide_eq_true_eq]
      omega
    rw [filter_cons_of_pos hadm, fitting]
    rw [note_bytes, take_bytes, note_bytes] at hrun
    split at hrun
    · next hfull =>
        cases hrun
        rw [if_pos hfull]
        by_cases ho : orphan l.committed b = true
        · refine ⟨[], [⟨b.producerId, b.baseOffset⟩], rfl, by simp,
            note_next r, by simp, fun a => ?_⟩
          rw [hnote]
          simp [ho]
        · refine ⟨[], [], rfl, by simp, note_next r, by simp, fun a => ?_⟩
          rw [hnote]
          simp [ho]
    next hfits =>
    rw [if_neg hfits]
    split at hrun
    · next hmax =>
        cases hrun
        rw [if_pos hmax]
        refine ⟨[b], [], rfl, by simp [Reading.take], rfl, by simp, fun a => ?_⟩
        simpa [Reading.take] using hnote a
    · next hmax =>
        rw [if_neg hmax]
        obtain ⟨new, extra, hnew, hout, hnext, hextra, habort⟩ := ih hrest hext' hrun
        rw [take_bytes, note_bytes] at hnew
        refine ⟨b :: new, extra, by rw [hnew], ?_, ?_, ?_, fun a => ?_⟩
        · rw [hout]
          simp [Reading.take]
        · rw [hnext, endOf_cons]
          rfl
        · intro a ha
          obtain ⟨x, hx, hfirst, hlt⟩ := hextra a ha
          refine ⟨x, mem_cons_of_mem _ hx, hfirst, ?_⟩
          exact forall_mem_cons.2 ⟨hb x hx, hlt⟩
        · rw [habort]
          have htake : a ∈ ((r.note l.committed b).take b).aborted ↔ _ := hnote a
          rw [htake]
          simp only [mem_cons, exists_eq_or_imp, or_assoc]

-- ==== the segment loop

/-- What has been read already lies before the segments to come. -/
def Ahead (l : Limits) (r : Reading B) (segs : List (Segment B)) : Prop :=
  ∀ b ∈ segs.flatMap (·.batches), b.lastOffset < r.next → b.lastOffset < l.offset

/-- The segments to come, in order, with hints that point no further
than the batch they name. -/
structure Lined (s : Store B) (segs : List (Segment B)) : Prop where
  placed : segs.Pairwise fun a b => a.base < b.base ∧
    ∀ x ∈ a.batches, x.lastOffset < b.base
  ordered : (segs.flatMap (·.batches)).Pairwise (·.lastOffset < ·.baseOffset)
  extent : ∀ b ∈ segs.flatMap (·.batches), b.baseOffset ≤ b.lastOffset
  hints : ∀ seg ∈ segs, ∀ e ∈ s.hints seg.base,
    ∀ b ∈ seg.batches.take e.2, b.lastOffset < e.1

variable {segs : List (Segment B)} {seg : Segment B}

theorem Lined.tail (h : Lined s (seg :: segs)) : Lined s segs := by
  have hsub : ∀ b ∈ segs.flatMap (·.batches), b ∈ (seg :: segs).flatMap (·.batches) := by
    intro b hb
    rw [flatMap_cons]
    exact mem_append_right _ hb
  have hord := h.ordered
  rw [flatMap_cons] at hord
  exact ⟨(pairwise_cons.1 h.placed).2,
    (pairwise_append.1 hord).2.1, fun b hb => h.extent b (hsub b hb),
    fun x hx => h.hints x (.tail _ hx)⟩

theorem Lined.bases (h : Lined s segs) :
    (segs.flatMap (·.batches)).Pairwise (·.baseOffset < ·.baseOffset) := by
  refine h.ordered.imp_of_mem fun hb _ hlt => ?_
  have := h.extent _ hb
  omega

/-- Everything in a segment lies below the base of the next. -/
theorem Lined.below_next (h : Lined s (seg :: segs))
    (ho : (segs.head?.map (·.base)).any (fun b => decide (b ≤ o)) = true) :
    ∀ b ∈ seg.batches, b.lastOffset < o := by
  intro b hb
  cases segs with
  | nil => simp at ho
  | cons next segs =>
    have hnext := (pairwise_cons.1 h.placed).1 next mem_cons_self
    have := hnext.2 b hb
    simp at ho
    omega

/-- The segment loop does what the batch loop does on the whole log. -/
theorem readSegments_eq (h : Lined s segs) (hahead : Ahead l r segs)
    (hstart : s.logStart ≤ l.offset) (hrun : readSegments s l segs r = .ok r') :
    (readBatches l (segs.flatMap (·.batches)) r).1 = r' := by
  induction segs generalizing r with
  | nil =>
    cases hrun
    rfl
  | cons seg segs ih =>
    have hahead' : Ahead l r segs := fun b hb =>
      hahead b (by rw [flatMap_cons]; exact mem_append_right _ hb)
    have hskip : ∀ o, o ≤ l.offset →
        (segs.head?.map (·.base)).any (fun b => decide (b ≤ o)) = true →
        readSegments s l segs r = .ok r' →
        (readBatches l ((seg :: segs).flatMap (·.batches)) r).1 = r' := by
      intro o ho hnext hrun
      rw [flatMap_cons, readBatches_skip]
      · exact ih h.tail hahead' hrun
      · intro b hb
        have := h.below_next hnext b hb
        omega
    unfold readSegments at hrun
    dsimp only at hrun
    split at hrun
    · next hnext => exact hskip l.offset le_rfl hnext hrun
    split at hrun
    · split at hrun
      · next hnext => exact hskip s.logStart hstart hnext hrun
      · cases hrun
    -- the batches before the hint are below the offset
    have hdrop : readBatches l (seg.batches.drop (startAt (s.hints seg.base) r.next)) r =
        readBatches l seg.batches r := by
      conv_rhs => rw [← take_append_drop (startAt (s.hints seg.base) r.next) seg.batches]
      symm
      refine readBatches_skip fun b hb => ?_
      have hmem : b ∈ (seg :: segs).flatMap (·.batches) := by
        rw [flatMap_cons]
        exact mem_append_left _ (mem_of_mem_take hb)
      refine hahead b hmem ?_
      unfold startAt at hb
      split at hb
      · next e hfind =>
          have he : e ∈ s.hints seg.base := mem_reverse.1 (mem_of_find?_eq_some hfind)
          have hle : e.1 ≤ r.next := by
            simpa using find?_some hfind
          have := h.hints seg mem_cons_self e he b hb
          omega
      · cases hb
    rw [hdrop] at hrun
    have hbases := h.bases
    rw [flatMap_cons] at hbases ⊢
    rw [readBatches_append hbases]
    cases hone : readBatches l seg.batches r with
    | mk r₁ full =>
    rw [hone] at hrun
    cases full with
    | true =>
      cases hrun
      rfl
    | false =>
      refine ih h.tail (fun b hb hlt => ?_) hrun
      have hord := h.ordered
      rw [flatMap_cons] at hord
      obtain ⟨hseg, -, hcross⟩ := pairwise_append.1 hord
      obtain ⟨new, -, rfl, -, hnext, -⟩ := readBatches_spec hseg
        (fun x hx => h.extent x (by rw [flatMap_cons]; exact mem_append_left _ hx)) hone
      rw [hnext] at hlt
      rcases endOf_eq r.next (fitting l.maxBytes r.bytes (seg.batches.filter l.admits)) with
        ⟨-, heq⟩ | ⟨x, hx, heq⟩
      · exact hahead' b hb (heq ▸ hlt)
      have hfit := fitting_prefix l.maxBytes r.bytes (seg.batches.filter l.admits)
      have := hcross x (mem_of_mem_filter (hfit.subset hx)) b hb
      have := h.tail.extent b hb
      omega

/-- What the segment loop adds up to, from an empty answer. -/
theorem readSegments_spec (h : Lined s s.segments) (hstart : s.logStart ≤ l.offset)
    (hrun : readSegments s l s.segments ⟨[], l.offset, []⟩ = .ok r) :
    r.out = fitting l.maxBytes 0 (s.log.filter l.admits) ∧
      r.next = endOf l.offset r.out ∧ ∃ extra : List AbortedTxn,
      (∀ a ∈ extra, ∀ b ∈ r.out, b.lastOffset < a.firstOffset) ∧
      ∀ a, a ∈ r.aborted ↔ (∃ b ∈ r.out, orphan l.committed b = true ∧
        a = ⟨b.producerId, b.baseOffset⟩) ∨ a ∈ extra := by
  have hflat := readSegments_eq h (fun b _ hlt => hlt) hstart hrun
  obtain ⟨new, extra, hnew, hout, hnext, hextra, habort⟩ := readBatches_spec h.ordered h.extent
      (Prod.ext hflat (Eq.refl (readBatches l s.log ⟨[], l.offset, []⟩).2))
  obtain rfl : r.out = new := hout
  refine ⟨hnew, hnext, extra, fun a ha b hb => ?_, fun a => ?_⟩
  · obtain ⟨x, -, hfirst, hlt⟩ := hextra a ha
    exact hfirst ▸ hlt b hb
  · rw [habort]
    simp

variable {offset : ℤ} {maxBytes : ℕ} {slice : FetchSlice B}

-- ==== the window

/-- The fetched batches are a start of those from the offset on that are
below the ceiling. -/
theorem admitted_start (s : Store B) (offset : ℤ) (maxBytes : ℕ) :
    admitted s offset maxBytes <+:
      s.log.filter (limits s offset maxBytes .readCommitted).admits := by
  unfold admitted
  split
  · exact fitting_prefix maxBytes 0 _
  · exact nil_prefix

theorem mem_of_mem_admitted (hb : b ∈ admitted s offset maxBytes) :
    b ∈ s.log ∧ (limits s offset maxBytes .readCommitted).admits b = true :=
  mem_filter.1 ((admitted_start s offset maxBytes).subset hb)

theorem Lined.admitted_ordered (h : Lined s s.segments) :
    (admitted s offset maxBytes).Pairwise (·.lastOffset < ·.baseOffset) :=
  (h.ordered.filter _).sublist (admitted_start s offset maxBytes).sublist

/-- Nothing between two fetched batches is left out, and nothing between
the offset and the first. -/
theorem Lined.admitted_closed {c : Batch B} (h : Lined s s.segments)
    (hb : b ∈ admitted s offset maxBytes) (hc : c ∈ s.log)
    (hoff : offset ≤ c.lastOffset) (hlast : c.lastOffset < b.lastOffset) :
    c ∈ admitted s offset maxBytes := by
  obtain ⟨hlog, hadm⟩ := mem_of_mem_admitted hb
  have hextc := h.extent c hc
  obtain ⟨rest, hsplit⟩ := admitted_start s offset maxBytes
  have hord := h.ordered.filter (limits s offset maxBytes .readCommitted).admits
  change (s.log.filter _).Pairwise _ at hord
  rw [← hsplit] at hord
  have hcand : c ∈ s.log.filter (limits s offset maxBytes .readCommitted).admits := by
    refine mem_filter.2 ⟨hc, ?_⟩
    simp only [Limits.admits, Bool.and_eq_true, decide_eq_true_eq] at hadm ⊢
    refine ⟨hoff, ?_⟩
    -- the two do not overlap, so `c` begins before `b` does
    rcases apart_of_ordered h.ordered hc hlog with rfl | hlt | hlt <;> omega
  rw [← hsplit] at hcand
  refine (mem_append.1 hcand).resolve_right fun hin => ?_
  have := (pairwise_append.1 hord).2.2 b hb c hin
  omega

-- ==== the answer

/-- What a `read_committed` read answers: the admitted batches, and as
aborted, before the answer ends, the orphans among them and the reported
Kafka transactions. -/
theorem read_answer (h : Lined s s.segments)
    (hread : read s offset maxBytes .readCommitted = .ok slice) :
    slice.batches = admitted s offset maxBytes ∧
      slice.nextOffset = endOf offset (admitted s offset maxBytes) ∧
      ∀ b ∈ admitted s offset maxBytes, ∀ a : AbortedTxn,
        a.firstOffset ≤ b.lastOffset → (a ∈ slice.aborted ↔ (∃ r ∈ admitted s offset maxBytes,
            orphan (limits s offset maxBytes .readCommitted).committed r =
              true ∧ a = ⟨r.producerId, r.baseOffset⟩) ∨
          ∃ row ∈ reported s offset (admitted s offset maxBytes),
            a = ⟨row.producerId, row.firstOffset⟩) := by
  unfold read at hread
  split at hread
  · cases hread
  next hrange =>
  split at hread
  · next hlt =>
      cases hsegs : readSegments s (limits s offset maxBytes .readCommitted)
          s.segments ⟨[], offset, []⟩ with
      | error e =>
        simp [hsegs] at hread
      | ok r =>
      rw [hsegs] at hread
      cases hread
      obtain ⟨hout, hnext, extra, hextra, habort⟩ := readSegments_spec h (by
          change s.logStart ≤ offset
          omega) hsegs
      have hadm : r.out = admitted s offset maxBytes := by
        rw [hout]
        unfold admitted
        rw [if_pos (show offset < s.lastStableOffset from hlt)]
        rfl
      rw [hadm] at hnext hextra habort
      refine ⟨hadm, hnext, fun b hb a ha => ?_⟩
      have hkafka : a ∈ abortedTxns s.txns.aborted offset (max r.next (offset + 1)) ↔
          ∃ row ∈ reported s offset (admitted s offset maxBytes),
            a = ⟨row.producerId, row.firstOffset⟩ := by
        rw [hnext]
        simp only [abortedTxns, reported, mem_map, eq_comm]
        rfl
      have hextra : a ∉ extra := fun hin => by
        have := hextra a hin b hb
        omega
      rw [mem_append, hkafka, habort]
      simp [hextra]
  · next hge =>
      cases hread
      have hnil : admitted s offset maxBytes = [] := by
        unfold admitted
        rw [if_neg (show ¬ offset < s.lastStableOffset from hge)]
      rw [hnil]
      exact ⟨rfl, rfl, fun b hb => nomatch hb⟩

end Kafgres.Fetch
