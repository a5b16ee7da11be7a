/-
When a standby can take what a compacted leader sends.

`append_replicated` asks of every batch that it begins at the log end. A
pass removes batches and moves the base of what it rebuilds; a read goes
over the hole this leaves, the standby does not.
-/
import Kafgres.Compaction.Proofs.Shrink
import Kafgres.Compaction.Proofs.View
import Kafgres.Fetch.Proofs.Read
import Kafgres.Standby.Apply

namespace Kafgres.Standby

open Compaction List Replica Fetch

variable {B : Type} {r : Replica B} {bs : List (Batch B)} {b : Batch B}
variable {p p₁ : Partition B} {s : Fetch.Store B} {maxBytes : ℕ}
variable {slice : Fetch.FetchSlice B}

-- ==== one reply

theorem apply_appends (r : Replica B) (bs : List (Batch B)) :
    ∃ new, (r.apply bs).1.batches = r.batches ++ new ∧ new.length ≤ bs.length := by
  induction bs generalizing r with
  | nil => exact ⟨[], by simp [apply], le_rfl⟩
  | cons b bs ih =>
    unfold apply
    split
    · exact ⟨[], by simp, Nat.zero_le _⟩
    split
    · obtain ⟨new, hnew, hlen⟩ := ih r
      exact ⟨new, hnew, by simp; omega⟩
    split
    · exact ⟨[], by simp, Nat.zero_le _⟩
    next r' hok =>
    obtain ⟨new, hnew, hlen⟩ := ih r'
    have hr' : r'.batches = r.batches ++ [b] := by
      unfold appendReplicated at hok
      dsimp only at hok
      split at hok
      · cases hok
      split at hok
      · cases hok
      split at hok
      · cases hok
      · cases hok
        rfl
    refine ⟨b :: new, ?_, by simpa using hlen⟩
    rw [hnew, hr', append_assoc]
    rfl

/-- A batch at the log end is written. -/
theorem appendReplicated_eq (hb : 0 ≤ b.lastOffsetDelta) (hbase : b.baseOffset = r.nextOffset) :
    r.appendReplicated b r.nextOffset = .ok ⟨r.batches ++ [b], stop b⟩ := by
  unfold appendReplicated
  simp [not_lt.2 hb, hbase]

/-- A batch past the log end is refused. -/
theorem appendReplicated_gap (hbase : b.baseOffset ≠ r.nextOffset) :
    ∃ e, r.appendReplicated b r.nextOffset = .error e := by
  unfold appendReplicated
  by_cases hb : b.lastOffsetDelta < 0
  · simp [hb]
  · simp [hb, hbase]

/-- A reply is taken exactly when it lies end to end from the log
end. -/
theorem takes_iff (r : Replica B) (bs : List (Batch B)) :
    r.Takes bs ↔ EndToEnd r.nextOffset bs := by
  unfold EndToEnd
  induction bs generalizing r with
  | nil => simp [Takes, apply, Except.isOk, Except.toBool, Spans.Laid]
  | cons b bs ih =>
    by_cases hdelta : b.lastOffsetDelta < 0
    · have hno : ¬ r.Takes (b :: bs) := by
        simp [Takes, apply, hdelta, Except.isOk, Except.toBool]
      refine iff_of_false hno fun hlaid => ?_
      have hlt := hlaid.2.1
      have hbase := hlaid.1
      unfold stop Batch.lastOffset at hlt
      omega
    by_cases hlow : b.baseOffset < r.nextOffset
    · -- a skipped batch is missing from the log
      refine iff_of_false (fun htakes => ?_) fun hlaid => hlow.ne hlaid.1
      have hall := htakes.2
      unfold apply at hall
      rw [if_neg hdelta, if_pos hlow] at hall
      obtain ⟨new, hnew, hlen⟩ := apply_appends r bs
      rw [hnew, append_right_inj] at hall
      rw [hall, length_cons] at hlen
      omega
    by_cases hbase : b.baseOffset = r.nextOffset
    · have hstep : r.Takes (b :: bs) ↔ Takes ⟨r.batches ++ [b], stop b⟩ bs := by
        unfold Takes
        rw [apply, if_neg hdelta, if_neg hlow, appendReplicated_eq (not_lt.1 hdelta) hbase]
        dsimp only
        rw [append_assoc, singleton_append]
        cases (apply ⟨r.batches ++ [b], stop b⟩ bs).2 with
        | error | ok => rfl
      have hstop : r.nextOffset < stop b := by
        unfold stop Batch.lastOffset
        omega
      rw [hstep, ih]
      exact ⟨fun h => ⟨hbase, hstop, h⟩, fun h => h.2.2⟩
    · refine iff_of_false (fun htakes => ?_) fun hlaid => hbase hlaid.1
      obtain ⟨e, he⟩ := appendReplicated_gap hbase
      have hok := htakes.1
      unfold apply at hok
      rw [if_neg hdelta, if_neg hlow, he] at hok
      cases hok

-- ==== the leader's log

/-- Where a copied log ends, no batch of the log it was copied from is
under way, nor of any log that comes of it. -/
theorem Follows.boundary (hr : Follows r p₁) (hp₁ : p₁.Layout)
    (hp : p.Layout) (hdesc : Descends p₁ p) (hb : b ∈ p.log) :
    b.lastOffset < r.nextOffset ∨ r.nextOffset ≤ b.baseOffset := by
  have hend := hr.nextOffset
  rcases eq_nil_or_concat r.batches with hnil | ⟨init, x, hsome⟩
  · rw [hnil] at hend
    right
    have := hp.base_nonneg hb
    unfold Spans.stop at hend
    omega
  rw [hsome, concat_eq_append, Spans.stop_append] at hend
  change r.nextOffset = x.lastOffset + 1 at hend
  have hx : x ∈ p₁.log := hr.batches.subset (by simp [hsome])
  rcases hdesc.source b hb with hnew | ⟨y, hy, hlo, hhi⟩
  · right
    have := hp₁.below x hx
    omega
  have := hp₁.extent x hx
  rcases apart_of_ordered hp₁.ordered hy hx with rfl | hlt | hlt
  · left
    omega
  · left
    omega
  · right
    omega

theorem Serves.lined (h : Serves s p) (hp : p.Layout) : Lined s s.segments := by
  rw [h.segments]
  exact { hp with hints := h.hints }

theorem Serves.log (h : Serves s p) : s.log = p.log := by
  unfold Store.log Partition.log
  rw [h.segments]

theorem endOf_eq_stop (offset : ℤ) (bs : List (Batch B)) :
    endOf offset bs = Spans.stop stop offset bs := by
  induction bs generalizing offset with
  | nil => rfl
  | cons b bs ih =>
    rw [endOf_cons, ih]
    rfl

/-- A reply lies end to end from the standby's end exactly when nothing
of the leader's log is gone in between. -/
theorem gapless_iff (hs : Serves s p) (hp : p.Layout)
    (hbound : ∀ b ∈ p.log, b.lastOffset < r.nextOffset ∨ r.nextOffset ≤ b.baseOffset)
    (hread : read s r.nextOffset maxBytes .readCommitted = .ok slice) :
    EndToEnd r.nextOffset slice.batches ↔ Gapless p.log r.nextOffset slice.nextOffset := by
  have hl := hs.lined hp
  obtain ⟨hbatches, hnext, -⟩ := read_answer hl hread
  rw [hnext, endOf_eq_stop, ← hbatches]
  have hmem : ∀ b ∈ slice.batches, b ∈ p.log ∧
      r.nextOffset ≤ b.baseOffset ∧ b.baseOffset ≤ b.lastOffset := by
    intro b hb
    rw [hbatches] at hb
    obtain ⟨hlog, hadm⟩ := mem_of_mem_admitted hb
    rw [hs.log] at hlog
    have hle : r.nextOffset ≤ b.lastOffset := by
      simp only [Limits.admits, Bool.and_eq_true, decide_eq_true_eq] at hadm
      exact hadm.1
    have := hbound b hlog
    exact ⟨hlog, by omega, hp.extent b hlog⟩
  constructor
  · intro hlaid o hle hlt
    obtain ⟨x, hx⟩ := Option.isSome_iff_exists.1 (hlaid.holder_isSome hle hlt)
    have hin := find?_some hx
    simp only [Bool.and_eq_true, decide_eq_true_eq] at hin
    unfold stop at hin
    exact ⟨x, (hmem x (mem_of_find?_eq_some hx)).1, by omega⟩
  · intro hgapless
    apply Spans.laid_of_covered
    · rw [hbatches]
      refine (hl.admitted_ordered).imp fun hlt => ?_
      exact Int.add_one_le_of_lt hlt
    · intro x hx
      have := hmem x hx
      unfold stop
      omega
    · exact fun x hx => (hmem x hx).2.1
    · intro o hle hlt
      obtain ⟨c, hc, hco, hoc⟩ := hgapless o hle hlt
      refine ⟨c, ?_, hco, Int.lt_add_one_of_le hoc⟩
      -- the batch over `o` is not past the last one of the reply
      rcases eq_nil_or_concat slice.batches with hnil | ⟨init, z, hz⟩
      · rw [hnil] at hlt
        exact absurd hlt (not_lt.2 hle)
      rw [hz, concat_eq_append, Spans.stop_append] at hlt
      have hlt : o < z.lastOffset + 1 := hlt
      have hzin : z ∈ slice.batches := by simp [hz]
      obtain ⟨hzlog, -, hzle⟩ := hmem z hzin
      by_cases hcz : c.lastOffset < z.lastOffset
      · rw [hbatches] at hzin ⊢
        exact hl.admitted_closed hzin (hs.log ▸ hc) (by omega) hcz
      rcases apart_of_ordered hp.ordered hc hzlog with rfl | hcz' | hcz'
      · exact hzin
      · omega
      · omega

-- ==== every run

section

variable [Wire B] {mtime : ℤ} {before after : List (Op B)}

omit [Wire B] in
theorem created_regular (mtime : ℤ) : (created mtime : System B).Regular := by
  refine ⟨⟨⟨?_, ?_, ?_, ?_, ?_, le_rfl⟩, ?_⟩, fun _ => Resumable.none rfl⟩
  · exact fun b hb => nomatch hb
  · exact List.Pairwise.nil
  · exact pairwise_singleton _ _
  · intro s hs
    rw [mem_singleton.1 hs]
    exact ⟨le_rfl, fun b hb => nomatch hb⟩
  · exact fun b hb => nomatch hb
  · exact fun b hb => nomatch hb

theorem leader_regular (mtime : ℤ) (hops : ∀ op ∈ before ++ after, op.Numbered) :
    (leader mtime before).Layout ∧ (leader mtime (before ++ after)).Layout ∧
      Descends (leader mtime before) (leader mtime (before ++ after)) := by
  have hbefore := (created_regular mtime).run before fun op hop =>
    hops op (mem_append_left _ hop)
  have hafter := hbefore.1.run after fun op hop =>
    hops op (mem_append_right _ hop)
  unfold leader
  rw [foldl_append]
  exact ⟨hbefore.1.part.layout, hafter.1.part.layout, hafter.2⟩

/-- However passes fail, pause or run in several processes, a batch of a
later log lies within one of an earlier log, or apart from it. -/
theorem batches_stay_within {b' : Batch B} (mtime : ℤ)
    (hops : ∀ op ∈ before ++ after, op.Numbered) (hb : b ∈ (leader mtime before).log)
    (hb' : b' ∈ (leader mtime (before ++ after)).log) :
    b'.lastOffset < b.baseOffset ∨ b.lastOffset < b'.baseOffset ∨
      b.baseOffset ≤ b'.baseOffset ∧ b'.lastOffset ≤ b.lastOffset := by
  obtain ⟨hp, -, hdesc⟩ := leader_regular mtime hops
  rcases hdesc.source b' hb' with hnew | ⟨c, hc, hle, hle'⟩
  · have := hp.below b hb
    omega
  · rcases apart_of_ordered hp.ordered hb hc with rfl | hlt | hlt
    · exact .inr (.inr ⟨hle, hle'⟩)
    · omega
    · omega

/-- A standby that copied an earlier state of the leader's log takes
what a read at its end returns exactly when that lies end to end from
there. With batches whose records are numbered upwards within them, that
is when no offset up to the end of the reply is gone from the leader's
log. -/
theorem takes_iff_gapless {r : Replica B} (hr : Follows r (leader mtime before))
    (hs : Serves s (leader mtime (before ++ after)))
    (hread : Fetch.read s r.nextOffset maxBytes .readCommitted = .ok slice) :
    (r.Takes slice.batches ↔ EndToEnd r.nextOffset slice.batches) ∧
      ((∀ op ∈ before ++ after, op.Numbered) → (EndToEnd r.nextOffset slice.batches ↔
          Gapless (leader mtime (before ++ after)).log r.nextOffset slice.nextOffset)) := by
  refine ⟨takes_iff r slice.batches, fun hops => ?_⟩
  obtain ⟨hp₁, hp, hdesc⟩ := leader_regular mtime hops
  exact gapless_iff hs hp (fun b hb => hr.boundary hp₁ hp hdesc hb) hread

end

-- ==== a lagging standby

/-- A store over a partition's files, with nothing pending. -/
def storeOf (p : Partition B) : Fetch.Store B where
  disk := p.segments
  nextOffset := p.nextOffset
  logStart := 0
  pending := []
  txns := p.txns

theorem serves_storeOf (hp : p.Layout) : Serves (storeOf p) p := by
  refine ⟨?_, nofun⟩
  apply List.Pairwise.insertionSort_eq
  exact hp.placed.imp fun hlt => hlt.1.le

/-- One record of a key. -/
def keyed (key value : ℕ) : Batch ℕ := plainBatch 0 0 100 [(key, some value)]

theorem keyed_numbered (key value : ℕ) (mtime : ℤ) : (Op.append (keyed key value) mtime).Numbered :=
  (plainBatch_sound (cons_ne_nil _ _)).toNumbered

/-- A batch, of which a standby takes a copy. -/
def copied : List (Op ℕ) := [.append (keyed 9 1) 0]

/-- Two more, in two segments, and a pass. -/
def passed (key : ℕ) : List (Op ℕ) :=
  [.append (keyed 1 7) 0, .roll 0, .append (keyed key 8) 0, .roll 0,
    .settle 3 {}, .compact 0 (passAt 1000)]

/-- The standby with the first batch. -/
def lagging : Replica ℕ := ⟨[keyed 9 1], 1⟩

theorem numbered_passed (key : ℕ) : ∀ op ∈ copied ++ passed key, op.Numbered := by
  intro op hop
  simp only [copied, passed, cons_append, nil_append, mem_cons, not_mem_nil, or_false] at hop
  rcases hop with rfl | rfl | rfl | rfl | rfl | rfl | rfl
  · exact keyed_numbered 9 1 0
  · exact keyed_numbered 1 7 0
  · trivial
  · exact keyed_numbered key 8 0
  · trivial
  · trivial
  · trivial

theorem lagging_follows : Follows lagging (leader 0 copied) := ⟨prefix_rfl, rfl⟩

theorem storeOf_passed (key : ℕ) :
    Serves (storeOf (leader 0 (copied ++ passed key))) (leader 0 (copied ++ passed key)) :=
  serves_storeOf (leader_regular 0 (numbered_passed key)).2.1

/-- What the leader returns to the standby after the pass. -/
def reply (key : ℕ) : Storage.StoreResult (Fetch.FetchSlice ℕ) :=
  Fetch.read (storeOf (leader 0 (copied ++ passed key))) lagging.nextOffset 1000 .readCommitted

theorem batches_stay_within_passed :
    ∃ b' ∈ (leader 0 (copied ++ passed 1)).log,
    b'.lastOffset < 0 ∨ 0 < b'.baseOffset ∨ 0 ≤ b'.baseOffset ∧ b'.lastOffset ≤ 0 :=
  have h : keyed 9 1 ∈ (leader 0 (copied ++ passed 1)).log := by decide +kernel
  ⟨_, h, batches_stay_within 0 (numbered_passed 1) (mem_singleton_self (keyed 9 1)) h⟩

/-- The batch after the standby's end was superseded, and the pass
removed it. The reply begins one offset past the end, and is refused. -/
theorem compacted_reply_refused :
    (∀ op ∈ copied ++ passed 1, op.Numbered) ∧
    Follows lagging (leader 0 copied) ∧
    Serves (storeOf (leader 0 (copied ++ passed 1))) (leader 0 (copied ++ passed 1)) ∧
    ∃ slice, reply 1 = .ok slice ∧ slice.batches.map (·.baseOffset) = [2] ∧
      (lagging.apply slice.batches).2.isOk = false := by
  refine ⟨numbered_passed 1, lagging_follows, storeOf_passed 1, ?_⟩
  have hrun : (reply 1).toOption.any (fun slice =>
      decide (slice.batches.map (·.baseOffset) = [2]) &&
        !(lagging.apply slice.batches).2.isOk) = true := by decide +kernel
  cases hread : reply 1 with
  | error e => simp [hread, Except.toOption] at hrun
  | ok slice =>
    refine ⟨slice, rfl, ?_⟩
    simpa [hread, Except.toOption] using hrun

/-- With keys of their own, all batches are still there, and the standby
takes them. -/
theorem takes_iff_gapless_distinct :
    ∃ slice, reply 2 = .ok slice ∧
      slice.batches.map (·.baseOffset) = [1, 2] ∧
      lagging.Takes slice.batches := by
  have hrun : (reply 2).toOption.any (fun slice =>
      decide (slice.batches.map (·.baseOffset) = [1, 2]) &&
        decide (EndToEnd lagging.nextOffset slice.batches)) = true := by
    decide +kernel
  cases hread : reply 2 with
  | error e => simp [hread, Except.toOption] at hrun
  | ok slice =>
    have hlaid : slice.batches.map (·.baseOffset) = [1, 2] ∧
        EndToEnd lagging.nextOffset slice.batches := by
      simpa [hread, Except.toOption] using hrun
    refine ⟨slice, rfl, hlaid.1, ?_⟩
    apply (takes_iff_gapless lagging_follows (storeOf_passed 2) hread).1.2
    exact hlaid.2

end Kafgres.Standby
