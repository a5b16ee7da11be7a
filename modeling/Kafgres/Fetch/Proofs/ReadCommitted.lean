/-
When a `read_committed` consumer sees what it should.
-/
import Kafgres.Fetch.Proofs.Read

namespace Kafgres.Fetch

open Compaction List

variable {B : Type} {s : Store B} {l : Ledger} {aborts : Batch B → Bool}
variable {b c : Batch B} {offset : ℤ} {maxBytes : ℕ} {slice : FetchSlice B} {bs : List (Batch B)}

-- ==== the tables

theorem le_foldl_max (rows : List ℤ) (o : ℤ) : o ≤ rows.foldl max o := by
  induction rows generalizing o with
  | nil => exact le_rfl
  | cons y rows ih => exact (le_max_left o y).trans (ih (max o y))

theorem foldl_max_mem (rows : List ℤ) (o : ℤ) : rows.foldl max o = o ∨ rows.foldl max o ∈ rows := by
  induction rows generalizing o with
  | nil => exact Or.inl rfl
  | cons y rows ih =>
    rw [foldl_cons]
    rcases ih (max o y) with heq | hin
    · rw [heq]
      rcases max_choice o y with h | h
      · exact Or.inl h
      · rw [h]
        exact Or.inr mem_cons_self
    · exact Or.inr (mem_cons_of_mem _ hin)

/-- Below the ceiling the loaded markers are all there are. -/
theorem committedMarkers_spec {markers : List ℤ} (from_ to_ : ℤ) (hnodup : markers.Nodup) :
    (committedMarkers markers from_ to_).2 ≤ to_ ∧
      (from_ < to_ → from_ < (committedMarkers markers from_ to_).2) ∧
      ∀ o, from_ ≤ o → o < (committedMarkers markers from_ to_).2 →
        (o ∈ (committedMarkers markers from_ to_).1 ↔ o ∈ markers) := by
  let all := (markers.filter fun b =>
    decide (from_ ≤ b) && decide (b < to_)).insertionSort (· ≤ ·)
  have hmem : ∀ x, x ∈ all ↔ x ∈ markers ∧ from_ ≤ x ∧ x < to_ := by
    intro x
    simp [all, mem_insertionSort, and_comm, and_assoc]
  have hsorted : all.Pairwise (· ≤ ·) := pairwise_insertionSort (· ≤ · : ℤ → ℤ → Prop) _
  have hall : all.Nodup := (perm_insertionSort _ _).nodup_iff.2 (hnodup.filter _)
  have hdedup : (all.take markersPerFetch).dedup = all.take markersPerFetch :=
    (hall.sublist (take_sublist _ _)).dedup
  have hlow : from_ ≤ (all.take markersPerFetch).foldl max from_ := le_foldl_max _ _
  have heq : committedMarkers markers from_ to_ = (all.take markersPerFetch,
        if (all.take markersPerFetch).dedup.length < markersPerFetch then to_
        else min ((all.take markersPerFetch).foldl max from_ + 1) to_) := rfl
  rw [heq, hdedup]
  split
  · next hfew =>
      refine ⟨le_rfl, id, fun o hle hlt => ?_⟩
      have hwhole : all.take markersPerFetch = all := by
        refine take_of_length_le ?_
        rw [length_take] at hfew
        omega
      rw [hwhole, hmem]
      exact ⟨fun h => h.1, fun h => ⟨h, hle, hlt⟩⟩
  · next hmany =>
      refine ⟨min_le_right _ _, fun hlt => ?_, fun o hle hlt => ?_⟩
      · exact lt_min (by omega) hlt
      refine ⟨fun ho => ((hmem o).1 (mem_of_mem_take ho)).1, fun ho => ?_⟩
      have hoall : o ∈ all := (hmem o).2 ⟨ho, hle, hlt.trans_le (min_le_right _ _)⟩
      rw [← take_append_drop markersPerFetch all] at hoall
      refine (mem_append.1 hoall).resolve_right fun hdrop => ?_
      -- what was not loaded lies above everything that was
      have habove : ∀ x ∈ all.take markersPerFetch, x < o := by
        intro x hx
        have hlt := hsorted.and (nodup_iff_pairwise_ne.1 hall)
        rw [← take_append_drop markersPerFetch all] at hlt
        have := (pairwise_append.1 hlt).2.2 x hx o hdrop
        omega
      have hlast : o ≤ (all.take markersPerFetch).foldl max from_ := by
        omega
      rcases foldl_max_mem (all.take markersPerFetch) from_ with heq | hin
      · -- the cap is not zero, so something was loaded
        have hne : all.take markersPerFetch ≠ [] := by
          intro hnil
          rw [hnil] at hmany
          exact hmany (by decide)
        obtain ⟨x, hx⟩ := exists_mem_of_ne_nil _ hne
        have := habove x hx
        have := ((hmem x).1 (mem_of_mem_take hx)).2.1
        omega
      · have := habove _ hin
        omega

-- ==== the window

/-- The first batch always fits. -/
theorem fitting_eq_nil (h : fitting maxBytes 0 bs = []) : bs = [] := by
  cases bs with
  | nil => rfl
  | cons b bs =>
    unfold fitting at h
    rw [if_neg (by simp)] at h
    split at h <;> cases h

theorem lt_endOf (hord : bs.Pairwise (·.lastOffset < ·.baseOffset))
    (hext : ∀ b ∈ bs, b.baseOffset ≤ b.lastOffset) (hb : b ∈ bs) :
    b.lastOffset < endOf offset bs := by
  unfold endOf
  cases hlast : bs.getLast? with
  | none =>
    simp [getLast?_eq_none_iff.1 hlast] at hb
  | some x =>
    obtain ⟨pre, rfl⟩ := getLast?_eq_some_iff.1 hlast
    have hx := hext x (mem_append_right _ mem_cons_self)
    dsimp only
    rcases mem_append.1 hb with hb | hb
    · have := (pairwise_append.1 hord).2.2 b hb x mem_cons_self
      omega
    · rw [mem_singleton.1 hb]
      omega

theorem mem_delivered {x : ℤ × Record B} :
    x ∈ delivered offset bs ↔ ∃ b ∈ bs, ∃ r ∈ b.records,
      offset ≤ b.offset r ∧ x = (b.offset r, r) := by
  unfold delivered
  rw [mem_flatMap]
  refine exists_congr fun b => and_congr_right fun _ => ?_
  simp only [mem_map, mem_filter, decide_eq_true_eq, and_assoc, eq_comm (b := x)]

/-- A part of a list without repetition is the list filtered by it. -/
theorem filter_eq_of_sublist {α : Type} {p : α → Bool} {xs ys : List α}
    (hnodup : ys.Nodup) (hsub : xs.Sublist ys)
    (hp : ∀ a ∈ ys, p a = true ↔ a ∈ xs) : ys.filter p = xs := by
  have hself : xs.filter p = xs :=
    filter_eq_self.2 fun a ha => (hp a (hsub.subset ha)).2 ha
  refine ((hself ▸ hsub.filter p).eq_of_length_le ?_).symm
  exact (subperm_of_subset (hnodup.filter _) fun a ha =>
    (hp a (mem_of_mem_filter ha)).1 (mem_filter.1 ha).2).length_le

namespace Consistent

variable (h : Consistent aborts s l)
include h

theorem markers_nodup : s.txns.markers.Nodup := by
  rw [h.markers]
  exact h.nodup

theorem lined : Lined s s.segments := { h with extent := fun b hb => (h.extent b hb).1 }

/-- No batch reaches across the last stable offset. -/
theorem stable_boundary (hb : b ∈ s.log) (hlt : b.baseOffset < s.lastStableOffset) :
    b.lastOffset < s.lastStableOffset := by
  have hpending : b.baseOffset < s.pendingFloor → b.lastOffset < s.pendingFloor := by
    unfold Store.pendingFloor
    have hbelow := h.below b hb
    split
    · next o ho =>
        intro hlt
        have hmem := min?_mem ho
        rw [h.pending] at hmem
        have := h.sql_pending o hmem b hb (by omega)
        omega
    · exact fun _ => hbelow
  unfold Store.lastStableOffset Segment.lastStableOffset at hlt ⊢
  split at hlt
  · next o ho =>
      have hmem := mem_of_mem_filter (min?_mem ho)
      rw [h.ongoing] at hmem
      obtain ⟨pair, hpair, rfl⟩ := mem_map.1 hmem
      obtain ⟨t, ht, rfl⟩ := mem_map.1 hpair
      have hfirst := (h.kafka_first t (mem_of_mem_filter ht)).2.2 b hb
      split_ifs at hlt ⊢
      · omega
      · exact hpending hlt
  · exact hpending hlt

theorem mem_admitted (hb : b ∈ admitted s offset maxBytes) :
    b ∈ s.log ∧ offset ≤ b.lastOffset ∧ b.baseOffset <
        (committedMarkers s.txns.markers offset s.lastStableOffset).2 ∧
      b.baseOffset < s.lastStableOffset := by
  obtain ⟨hlog, hadm⟩ := mem_of_mem_admitted hb
  simp only [Limits.admits, Bool.and_eq_true, decide_eq_true_eq] at hadm
  have hspec := committedMarkers_spec offset s.lastStableOffset h.markers_nodup
  exact ⟨hlog, hadm.1, hadm.2, hadm.2.trans_le hspec.1⟩

/-- Nothing fetched: nothing that reaches the offset begins there or
before. -/
theorem lt_of_admitted_nil (hlt : offset < s.lastStableOffset)
    (hnil : admitted s offset maxBytes = []) (hb : b ∈ s.log) (hoff : offset ≤ b.lastOffset) :
    offset < b.baseOffset := by
  have hspec := committedMarkers_spec offset s.lastStableOffset h.markers_nodup
  unfold admitted at hnil
  rw [if_pos hlt] at hnil
  have hnone := filter_eq_nil_iff.1 (fitting_eq_nil hnil) b hb
  simp only [Bool.and_eq_true, decide_eq_true_eq] at hnone
  omega

/-- The fetched batches are all of the log's in the range answered. -/
theorem mem_admitted_iff :
    b ∈ admitted s offset maxBytes ↔ b ∈ s.log ∧ offset ≤ b.lastOffset ∧
    b.baseOffset < endOf offset (admitted s offset maxBytes) ∧
    b.baseOffset < s.lastStableOffset := by
  have hext : ∀ x ∈ admitted s offset maxBytes, x.baseOffset ≤ x.lastOffset := fun x hx =>
    (h.extent x (h.mem_admitted hx).1).1
  constructor
  · intro hb
    obtain ⟨hlog, hoff, -, hlso⟩ := h.mem_admitted hb
    have hlt : b.lastOffset < endOf offset (admitted s offset maxBytes) :=
      lt_endOf h.lined.admitted_ordered hext hb
    have := hext b hb
    exact ⟨hlog, hoff, by omega, hlso⟩
  · rintro ⟨hlog, hoff, hend, hlso⟩
    by_cases hlt : offset < s.lastStableOffset
    · rcases endOf_eq offset (admitted s offset maxBytes) with
          ⟨hnil, heq⟩ | ⟨x, hx, heq⟩
      · have := h.lt_of_admitted_nil hlt hnil hlog hoff
        omega
      · have hxlog := (h.mem_admitted hx).1
        have := hext x hx
        rcases apart_of_ordered h.ordered hlog hxlog with rfl | hbx | hxb
        · exact hx
        · exact h.lined.admitted_closed hx hlog hoff (by omega)
        · omega
    · have := h.stable_boundary hlog hlso
      omega

/-- An orphan of the answer is a batch without a committed marker. -/
theorem orphan_iff (hb : b ∈ admitted s offset maxBytes) :
    orphan (some (committedMarkers s.txns.markers offset s.lastStableOffset).1) b = true ↔
      sqlData b = true ∧ b.baseOffset ∉ l.markers := by
  obtain ⟨hlog, hoff, hceil, -⟩ := h.mem_admitted hb
  have hmarkers : s.txns.markers = l.markers := h.markers
  unfold orphan
  by_cases hsql : sqlData b = true
  · have hsingle := h.sql_single b hlog hsql
    have hiff := (committedMarkers_spec offset s.lastStableOffset
      h.markers_nodup).2.2 b.baseOffset (by omega) hceil
    rw [hmarkers] at hiff ⊢
    simp [sqlData, hiff]
  · have hno : (b.transactional && !b.control && b.markerBacked) = false := by
      simpa [sqlData] using hsql
    simp [hno, hsql]

-- ==== the walk

/-- A reported row is an aborted transaction of the ledger. -/
theorem of_reported {row : Compaction.AbortedTxn} (hrow : row ∈ reported s offset bs) :
    offset ≤ row.lastOffset ∧ ∃ t ∈ l.kafka, t.ended = some (false, row.lastOffset) ∧
      row.producerId = t.producerId ∧ row.firstOffset = t.firstOffset := by
  have hover := mem_of_mem_take hrow
  unfold overlapping at hover
  rw [mem_insertionSort, h.aborted] at hover
  obtain ⟨hrow, hrange⟩ := mem_filter.1 hover
  obtain ⟨t, ht, hrow⟩ := mem_filterMap.1 hrow
  unfold KafkaTxn.abortedRow at hrow
  split at hrow
  · next m hended =>
      cases hrow
      exact ⟨of_decide_eq_true (Bool.and_eq_true_iff.1 hrange).1, t, ht, hended, rfl, rfl⟩
  · cases hrow

/-- A batch of the answer is not a marker's offset, and a marker's batch
before it was read before it. -/
theorem row_reaches {row : Compaction.AbortedTxn}
    (hb : b ∈ admitted s offset maxBytes) (hctl : b.control = false)
    (hrow : row ∈ reported s offset (admitted s offset maxBytes))
    (hpid : row.producerId = b.producerId) (hfirst : row.firstOffset ≤ b.lastOffset)
    (hun : Unended aborts (admitted s offset maxBytes) row.firstOffset b) :
    row.firstOffset ≤ b.baseOffset ∧ b.lastOffset < row.lastOffset := by
  obtain ⟨hlog, -⟩ := h.mem_admitted hb
  obtain ⟨hrange, t, ht, hended, htpid, htfirst⟩ := h.of_reported hrow
  obtain ⟨-, hends, hinside⟩ := h.kafka_first t ht
  obtain ⟨c, hc, hcb, hcl, hcc, hca, hcp⟩ := h.abort_marker t ht _ hended rfl
  have hfm := hends _ hended
  have hbase : row.firstOffset ≤ b.baseOffset := by
    by_contra hlt
    have := hinside b hlog (by omega)
    omega
  refine ⟨hbase, ?_⟩
  by_contra hge
  -- the marker was read before `b`, and ended the transaction
  have hext := (h.extent b hlog).1
  rcases apart_of_ordered h.ordered hc hlog with rfl | hlt | hlt
  · simp [hctl] at hcc
  · have hin := h.lined.admitted_closed hb hc (by omega) (by omega)
    have := hun c hin (by omega) hcc hca ((hcp.trans htpid.symm).trans hpid)
    omega
  · omega

/-- What the walk makes of a data batch. -/
theorem revoked_iff (hread : read s offset maxBytes .readCommitted = .ok slice)
    (hb : b ∈ admitted s offset maxBytes) (hctl : b.control = false) :
    Revoke.Revoked (item aborts) (slice.aborted.map fun a =>
        ⟨a.producerId, a.firstOffset⟩) slice.batches b ↔
      Shadowed aborts l (admitted s offset maxBytes) b ∨
        InReported aborts s offset (admitted s offset maxBytes) b := by
  obtain ⟨hbatches, -, hab⟩ := read_answer h.lined hread
  have hends : ∀ first : ℤ, (∀ x ∈ slice.batches, (item aborts x).last < (item aborts b).last →
      (item aborts x).ends = true →
      (item aborts x).owner = (item aborts b).owner →
      (item aborts x).last < first) ↔
      Unended aborts (admitted s offset maxBytes) first b := by
    intro first
    rw [hbatches]
    refine forall_congr' fun x => forall_congr' fun _ =>
      forall_congr' fun _ => ?_
    simp only [item, Bool.and_eq_true]
    exact ⟨fun hx hc ha => hx ⟨hc, ha⟩, fun hx hc => hx hc.1 hc.2⟩
  constructor
  · rintro ⟨n, hn, hown, hfirst, hun⟩
    obtain ⟨a, ha, rfl⟩ := mem_map.1 hn
    have hun := (hends _).1 hun
    rcases (hab b hb a hfirst).1 ha with ⟨r, hr, ho, rfl⟩ | ⟨row, hrow, rfl⟩
    · obtain ⟨hsql, hmark⟩ := (h.orphan_iff hr).1 ho
      exact Or.inl ⟨r, hr, hsql, hmark, hown, hfirst, hun⟩
    · obtain ⟨hbase, hlast⟩ := h.row_reaches hb hctl hrow hown hfirst hun
      exact Or.inr ⟨row, hrow, hown, hbase, hlast, hun⟩
  · have hext := (h.extent b (h.mem_admitted hb).1).1
    rintro (⟨r, hr, hsql, hmark, hpid, hle, hun⟩ | ⟨row, hrow, hpid, hbase, -, hun⟩)
    · exact ⟨_, mem_map_of_mem ((hab b hb ⟨r.producerId, r.baseOffset⟩
        hle).2 (Or.inl ⟨r, hr, (h.orphan_iff hr).2 ⟨hsql, hmark⟩, rfl⟩)), hpid, hle,
        (hends _).2 hun⟩
    have hle : row.firstOffset ≤ b.lastOffset := hbase.trans hext
    exact ⟨_, mem_map_of_mem ((hab b hb
      ⟨row.producerId, row.firstOffset⟩ hle).2 (Or.inr ⟨row, hrow, rfl⟩)),
      hpid, hle, (hends _).2 hun⟩

-- ==== dropped and committed

/-- A committed Kafka batch is in no aborted transaction of its
producer. -/
theorem committed_not_reported (hb : b ∈ admitted s offset maxBytes)
    (hkafka : kafkaData b = true) (hcom : Committed l b) :
    ¬ InReported aborts s offset (admitted s offset maxBytes) b := by
  rintro ⟨row, hrow, hpid, hbase, hlast, -⟩
  have hext := (h.extent b (h.mem_admitted hb).1).1
  simp only [kafkaData, Bool.and_eq_true, Bool.not_eq_true'] at hkafka
  simp only [Committed, hkafka.1.1, hkafka.2, Bool.not_true, Bool.false_eq_true, if_false] at hcom
  obtain ⟨t, ht, ⟨htpid, htfirst, htlast⟩, htcom⟩ := hcom
  obtain ⟨-, t', ht', hended, htpid', htfirst'⟩ := h.of_reported hrow
  rcases h.kafka_apart t ht t' ht' (htpid.trans (hpid.symm.trans htpid')) with
      rfl | ⟨e, he, hlt⟩ | ⟨e, he, hlt⟩
  · simp [KafkaTxn.committed, hended] at htcom
  · have := htlast e he
    omega
  · cases hended.symm.trans he
    omega

/-- A rolled-back `kafgres_produce()` batch is its own shadow. -/
theorem shadowed_self (hb : b ∈ admitted s offset maxBytes)
    (hsql : sqlData b = true) (hmark : b.baseOffset ∉ l.markers) :
    Shadowed aborts l (admitted s offset maxBytes) b := by
  have hlog := (h.mem_admitted hb).1
  refine ⟨b, hb, hsql, hmark, rfl, (h.extent b hlog).1, ?_⟩
  intro c hc hlt _ _ _
  have hclog := (h.mem_admitted hc).1
  have := (h.extent c hclog).1
  rcases apart_of_ordered h.ordered hclog hlog with rfl | hcb | hbc
  · omega
  · exact hcb
  · omega

/-- A committed `kafgres_produce()` batch is in no shadow. -/
theorem committed_not_shadowed (hb : b ∈ admitted s offset maxBytes)
    (hsql : sqlData b = true) (hmark : b.baseOffset ∈ l.markers) :
    ¬ Shadowed aborts l (admitted s offset maxBytes) b := by
  rintro ⟨r, hr, hrsql, hrmark, hpid, hle, -⟩
  exact hrmark (h.sql_apart r (h.mem_admitted hr).1 b (h.mem_admitted hb).1
    hrsql hsql hpid hle hmark)

/-- Batch by batch, what is dropped is what is not committed exactly
when the fetch is honest. -/
theorem drops_iff_honest :
    (∀ b ∈ admitted s offset maxBytes, b.control = false →
      (¬ (b.transactional = true ∧ (Shadowed aborts l (admitted s offset maxBytes) b ∨
          InReported aborts s offset (admitted s offset maxBytes) b)) ↔ Committed l b)) ↔
      Honest aborts l s offset (admitted s offset maxBytes) := by
  constructor
  · intro hall
    refine ⟨fun b hb hk hcom => ?_, fun b hb hk hcom hin => ?_, fun b hb hk hcom hin => ?_⟩
    · simp only [kafkaData, Bool.and_eq_true, Bool.not_eq_true'] at hk
      have := (not_congr (hall b hb hk.1.2)).2 hcom
      exact (not_not.1 this).2.symm
    · simp only [sqlData, Bool.and_eq_true, Bool.not_eq_true'] at hk
      exact (hall b hb hk.1.2).2 hcom ⟨hk.1.1, Or.inr hin⟩
    · simp only [kafkaData, Bool.and_eq_true, Bool.not_eq_true'] at hk
      exact (hall b hb hk.1.2).2 hcom ⟨hk.1.1, Or.inl hin⟩
  · intro hon b hb hctl
    cases htxn : b.transactional with
    | false => simp [Committed, htxn]
    | true =>
      cases hmb : b.markerBacked with
      | false =>
        have hk : kafkaData b = true := by
          simp [kafkaData, htxn, hctl, hmb]
        constructor
        · intro hkeep
          by_contra hcom
          exact hkeep ⟨rfl, (hon.reported b hb hk hcom).symm⟩
        · rintro hcom ⟨-, hsh | hin⟩
          · exact hon.kafka_clear b hb hk hcom hsh
          · exact h.committed_not_reported hb hk hcom hin
      | true =>
        have hk : sqlData b = true := by
          simp [sqlData, htxn, hctl, hmb]
        have hiff : Committed l b ↔ b.baseOffset ∈ l.markers := by
          simp [Committed, htxn, hmb]
        constructor
        · intro hkeep
          rw [hiff]
          by_contra hmark
          exact hkeep ⟨rfl, Or.inl (h.shadowed_self hb hk hmark)⟩
        · rintro hcom ⟨-, hsh | hin⟩
          · exact h.committed_not_shadowed hb hk (hiff.1 hcom) hsh
          · exact hon.sql_clear b hb hk hcom hin

-- ==== the records

/-- The records tell which of the fetched batches they come from. -/
theorem delivered_inj {keep good : Batch B → Bool}
    (hkeep : ∀ b ∈ admitted s offset maxBytes, keep b = true → b.control = false)
    (hsame : delivered offset ((admitted s offset maxBytes).filter keep) =
      delivered offset ((admitted s offset maxBytes).filter good))
    (hb : b ∈ admitted s offset maxBytes) (hk : keep b = true) : good b = true := by
  obtain ⟨hlog, hoff, -⟩ := h.mem_admitted hb
  obtain ⟨r, hr, hlast⟩ := h.last_record b hlog (hkeep b hb hk)
  have hin : (b.offset r, r) ∈ delivered offset ((admitted s offset maxBytes).filter good) := by
    rw [← hsame]
    exact mem_delivered.2 ⟨b, mem_filter.2 ⟨hb, hk⟩, r, hr, by omega, rfl⟩
  obtain ⟨b', hb', r', hr', -, heq⟩ := mem_delivered.1 hin
  obtain ⟨hb', hg⟩ := mem_filter.1 hb'
  have hlog' := (h.mem_admitted hb').1
  have hwithin := h.records b' hlog' r' hr'
  have hwithin' := h.records b hlog r hr
  have heq : b.offset r = b'.offset r' := congrArg Prod.fst heq
  rcases apart_of_ordered h.ordered hlog hlog' with rfl | hlt | hlt
  · exact hg
  all_goals omega

/-- The log's batches of the answered range are the fetched ones. -/
theorem range_eq :
    s.log.filter (fun b => decide (offset ≤ b.lastOffset) &&
      decide (b.baseOffset < endOf offset (admitted s offset maxBytes)) &&
      decide (b.baseOffset < s.lastStableOffset)) = admitted s offset maxBytes := by
  have hsub : (admitted s offset maxBytes).Sublist s.log :=
    (admitted_start s offset maxBytes).sublist.trans filter_sublist
  have hnodup : s.log.Nodup := by
    refine nodup_iff_pairwise_ne.2 (h.ordered.imp_of_mem ?_)
    rintro b c hb - hlt rfl
    have := (h.extent b hb).1
    omega
  refine filter_eq_of_sublist hnodup hsub fun b hb => ?_
  rw [h.mem_admitted_iff]
  simp only [Bool.and_eq_true, decide_eq_true_eq, and_assoc]
  exact ⟨fun hr => ⟨hb, hr⟩, fun hr => hr.2⟩

end Consistent

-- ==== the fetch

/-- A `read_committed` consumer gets exactly the committed records of
the answered range if and only if the fetch is honest. -/
theorem consume_eq_expected_iff (h : Consistent aborts s l)
    (hread : read s offset maxBytes .readCommitted = .ok slice) :
    consume aborts offset slice = expected l s offset slice.nextOffset ↔
      Honest aborts l s offset (admitted s offset maxBytes) := by
  obtain ⟨hbatches, hnext, -⟩ := read_answer h.lined hread
  let dropped := fun b : Batch B => decide (Revoke.Revoked (item aborts)
    (slice.aborted.map fun a => ⟨a.producerId, a.firstOffset⟩)
    (admitted s offset maxBytes) b)
  let keep := fun b : Batch B => !b.control && !(b.transactional && dropped b)
  let good := fun b : Batch B => !b.control && decide (Committed l b)
  have hkept : kept aborts slice = (admitted s offset maxBytes).filter keep := by
    unfold kept
    rw [Revoke.read_eq, filter_map, map_map, hbatches]
    · exact map_id _
    · rw [hbatches]
      refine h.lined.admitted_ordered.imp_of_mem fun _ hc hlt => ?_
      exact lt_of_lt_of_le hlt (h.extent _ (h.mem_admitted hc).1).1
  have hexp : expected l s offset slice.nextOffset =
      delivered offset ((admitted s offset maxBytes).filter good) := by
    have hrange := congrArg (filter good) (h.range_eq : _ = admitted s offset maxBytes)
    rw [filter_filter] at hrange
    unfold expected
    rw [hnext, ← hrange]
    congr 2
    funext b
    rw [Bool.and_comm (good b), ← Bool.and_assoc]
  have hpoint : ∀ b ∈ admitted s offset maxBytes, b.control = false →
      (keep b = true ↔ ¬ (b.transactional = true ∧
        (Shadowed aborts l (admitted s offset maxBytes) b ∨
          InReported aborts s offset (admitted s offset maxBytes) b))) := by
    intro b hb hctl
    rw [← h.revoked_iff hread hb hctl, hbatches]
    simp [keep, dropped, hctl, imp_iff_not_or]
  have hgood : ∀ b : Batch B, b.control = false → (good b = true ↔ Committed l b) := by
    intro b hctl
    simp [good, hctl]
  unfold consume
  rw [hkept, hexp, ← h.drops_iff_honest]
  constructor
  · intro hsame b hb hctl
    rw [← hpoint b hb hctl, ← hgood b hctl]
    exact ⟨h.delivered_inj (fun x _ hx => by simp_all [keep]) hsame hb,
      h.delivered_inj (fun x _ hx => by simp_all [good]) hsame.symm hb⟩
  · intro hall
    congr 1
    refine filter_congr fun b hb => ?_
    cases hctl : b.control with
    | true => simp [keep, good, hctl]
    | false =>
      rw [Bool.eq_iff_iff, hpoint b hb hctl, hgood b hctl]
      exact hall b hb hctl

-- ==== small answers

/-- A batch of one record. -/
def oneRecord (base : ℤ) (producerId : BitVec 64) (producerEpoch : ℤ)
    (control : Bool) (value : ℕ) : Batch ℕ where
  baseOffset := base
  partitionLeaderEpoch := 0
  compressionType := 0
  transactional := true
  control
  lastOffsetDelta := 0
  baseTimestamp := 0
  maxTimestamp := 0
  producerId
  producerEpoch
  baseSequence := 0
  recordCount := 1
  records := [⟨0, 0, 0, none, some value, []⟩]
  storedCrc := 0
  len := 100

/-- A partition of one segment, all of it stable. -/
def oneSegment (bs : List (Batch ℕ)) (l : Ledger) : Store ℕ where
  disk := [⟨0, 0, bs⟩]
  nextOffset := bs.length
  logStart := 0
  pending := l.pending
  txns := l.tables

/-- A control record holds 0 in an abort marker. -/
def abortsZero (b : Batch ℕ) : Bool := b.records.any fun r => decide (r.value = some 0)

/-- Postgres transaction 1234 produced offset 0 and rolled back; then
Kafka's producer 1234 produced offset 1 and committed. A fetch from 0
hides the committed record. -/
theorem rolled_back_sql_hides_kafka :
    let l : Ledger := ⟨[⟨1234, 1, some (true, 2)⟩], [], []⟩
    let s := oneSegment [oneRecord 0 1234 (-1) false 7,
      oneRecord 1 1234 0 false 8, oneRecord 2 1234 0 true 1] l
    Consistent abortsZero s l ∧ ∃ slice, read s 0 1000 .readCommitted = .ok slice ∧
        consume abortsZero 0 slice = [] ∧
        expected l s 0 slice.nextOffset = [(1, ⟨0, 0, 0, none, some 8, []⟩)] := by
  intro l s
  refine ⟨?_, ⟨s.log, 3, 3, 0, 3, [⟨1234, 0⟩]⟩, by decide⟩
  constructor <;> decide

/-- An aborted Kafka transaction of producer 5 with a committed one of
producer 6 inside it, and a Postgres transaction that commits after it
rolled back its second batch, all told apart. -/
theorem consume_eq_expected_mixed :
    let l : Ledger := ⟨[⟨5, 0, some (false, 4)⟩, ⟨6, 1, some (true, 3)⟩], [5], []⟩
    let s := oneSegment [oneRecord 0 5 0 false 7, oneRecord 1 6 0 false 8,
      oneRecord 2 5 0 false 9, oneRecord 3 6 0 true 1,
      oneRecord 4 5 0 true 0, oneRecord 5 700 (-1) false 10,
      oneRecord 6 700 (-1) false 11] l
    ∃ slice, Consistent abortsZero s l ∧ read s 0 1000 .readCommitted = .ok slice ∧
      consume abortsZero 0 slice = expected l s 0 slice.nextOffset := by
  intro l s
  have hs : Consistent abortsZero s l := by
    constructor <;> decide
  have hread : read s 0 1000 .readCommitted =
      .ok ⟨s.log, 7, 7, 0, 7, [⟨700, 6⟩, ⟨5, 0⟩]⟩ := by decide
  have hon : Honest abortsZero l s 0 (admitted s 0 1000) := by
    constructor <;> decide
  exact ⟨_, hs, hread, (consume_eq_expected_iff hs hread).2 hon⟩

end Kafgres.Fetch
