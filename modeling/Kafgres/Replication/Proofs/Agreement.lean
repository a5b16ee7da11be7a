/-
What a follower has of its leader's log.

A follower asks where the epoch of its rows ended, which the WAL can have
raised past the one its log was copied under. It then keeps batches that
a failure took from the leader and that others have replaced; so it does
if it is answered with an error. And a promoted node does not know where
the epochs began that its rows are behind of.

A batch that was ever written is in the leader's log, or lies at or past
the start of an epoch newer than its own (`Lineage.kept`). The answer is
not past the start of any epoch above the one asked for; `Consistent`
speaks for the others.
-/
import Kafgres.Replication.Proofs.Matching
import Kafgres.LeaderEpoch.Proofs.History

namespace Kafgres.Replication

open LeaderEpoch List Function

variable {ι : Type} {s : System ι} {i : ι} {l n n' : Node} {b : Batch}
  {bs written all : List Batch} {begun begun' : List Entry} {epoch : ℤ} {m : Meta}

-- ==== the condition

/-- The leader answers a reconcile, and no batch of the follower is older
than an epoch that began at its offset or below and is not above the one
asked for. A promoted node's log is part of the leader's, and its rows
are as the leader's below its log end. -/
def Consistent (s : System ι) : Op ι → Prop
  | .act i (.reconcile refused) => refused = false ∧
      ∀ epoch ∈ (s.nodes i).want, ∀ b ∈ (s.nodes i).batches,
        ∀ r ∈ s.leading.info.history.rows, r.leaderEpoch ≤ epoch → r.startOffset ≤ b.baseOffset →
          r.leaderEpoch ≤ b.partitionLeaderEpoch
  | .promote i _ => (∀ b ∈ (s.nodes i).batches, b ∈ s.leading.batches) ∧
      (∀ r ∈ (s.nodes i).info.history.rows, r.startOffset < (s.nodes i).nextOffset →
        r ∈ s.leading.info.history.rows) ∧
      ∀ r ∈ s.leading.info.history.rows, r.startOffset < (s.nodes i).nextOffset →
        r ∈ (s.nodes i).info.history.rows
  | _ => True

-- ==== logs

/-- The node's batches lie end to end up to its log end, and are of some
list. -/
structure Copies (n : Node) (all : List Batch) : Prop where
  laid : Spans.Laid Batch.baseOffset Batch.stop 0 n.batches
  stop : n.nextOffset = Spans.stop Batch.stop 0 n.batches
  subset : ∀ b ∈ n.batches, b ∈ all

/-- One more batch at the log end. -/
theorem Copies.push (h : Copies n all) (hbase : b.baseOffset = n.nextOffset) (hb : b ∈ all) :
    Copies (n.push b) all := by
  constructor
  · exact h.laid.snoc (hbase.trans h.stop) b.baseOffset_lt_stop
  · show b.stop = Spans.stop Batch.stop 0 (n.batches ++ [b])
    rw [Spans.stop_append]
    rfl
  · exact forall_mem_append.2 ⟨h.subset, forall_mem_singleton.2 hb⟩

/-- A crash keeps the first batches. -/
theorem Copies.crash (h : Copies n all) (keep : ℕ) : Copies (n.crash keep) all :=
  ⟨h.laid.take keep, rfl, fun b hb => h.subset b (mem_of_mem_take hb)⟩

/-- A batch of a log is in the part of it another node has, or begins at
that node's log end or past it. -/
theorem Copies.mem_or_past (h : Copies l written) (hn : Copies n l.batches)
    (hb : b ∈ l.batches) : b ∈ n.batches ∨ n.nextOffset ≤ b.baseOffset := by
  obtain ⟨rest, hrest⟩ := Spans.prefix_of_subset hn.laid h.laid hn.subset
  have hlaid := h.laid
  rw [← hrest] at hb hlaid
  rw [hn.stop]
  exact (mem_append.1 hb).imp_right (Spans.laid_append.1 hlaid).2.le_lo

-- ==== the leader

/-- Where the batches and the epochs of the leader come from. -/
structure Lineage (l : Node) (written : List Batch) (begun : List Entry) : Prop where
  copies : Copies l written
  opened : ∃ r ∈ begun, r.leaderEpoch = l.info.leaderEpoch
  current : ∀ r ∈ begun, r.leaderEpoch ≤ l.info.leaderEpoch
  logStart : l.info.logStartOffset = 0
  recorded : ∀ r ∈ l.info.history.rows, r ∈ begun
  covered : ∀ r ∈ begun, ∃ r' ∈ l.info.history.rows,
    r.leaderEpoch ≤ r'.leaderEpoch ∧ r'.startOffset ≤ r.startOffset
  reached : ∀ r ∈ l.info.history.rows, 0 ≤ r.startOffset ∧ r.startOffset ≤ l.nextOffset
  whole : ∀ b ∈ l.batches, ∀ r ∈ l.info.history.rows,
    b.stop ≤ r.startOffset ∨ r.startOffset ≤ b.baseOffset
  epochs : ∀ b ∈ written, b.partitionLeaderEpoch ≤ l.info.leaderEpoch
  kept : ∀ b ∈ written, b ∈ l.batches ∨
    ∃ r ∈ begun, b.partitionLeaderEpoch < r.leaderEpoch ∧ r.startOffset ≤ b.baseOffset

/-- A batch at the leader's log end, new or copied from the leader
before. -/
theorem Lineage.push (h : Lineage l written begun) (hbase : b.baseOffset = l.nextOffset)
    (hepoch : b.partitionLeaderEpoch ≤ l.info.leaderEpoch)
    (hall : ∀ c, c ∈ all ↔ c ∈ written ∨ c = b) : Lineage (l.push b) all begun := by
  have hcopies : Copies l all :=
    { h.copies with subset := fun c hc => (hall c).2 (.inl (h.copies.subset c hc)) }
  refine ⟨hcopies.push hbase ((hall b).2 (.inr rfl)), h.opened, h.current, h.logStart, h.recorded,
    h.covered, ?_, ?_, ?_, ?_⟩
  · intro r hr
    obtain ⟨h0, hle⟩ := h.reached r hr
    have := b.baseOffset_lt_stop
    exact ⟨h0, show r.startOffset ≤ b.stop by omega⟩
  · refine forall_mem_append.2 ⟨h.whole, forall_mem_singleton.2 fun r hr => .inr ?_⟩
    exact (h.reached r hr).2.trans hbase.ge
  · intro c hc
    rcases (hall c).1 hc with hc | rfl
    · exact h.epochs c hc
    · exact hepoch
  · intro c hc
    rcases (hall c).1 hc with hc | rfl
    · exact (h.kept c hc).imp_left (mem_append_left _)
    · exact .inl (mem_append_right _ (mem_singleton_self _))

/-- What is known of the rows on any node. -/
structure Known (l : Node) (begun : List Entry) (m : Meta) : Prop where
  epoch : m.leaderEpoch ≤ l.info.leaderEpoch
  logStart : m.logStartOffset = 0
  recorded : ∀ r ∈ m.history.rows, r ∈ begun

/-- A node that has part of the leader's log, and the leader's epochs
below its end, begins a new epoch. -/
theorem Lineage.lead (h : Lineage l written begun) (hn : Copies n l.batches)
    (hknown : Known l begun n.info)
    (hrows : ∀ r ∈ n.info.history.rows, r.startOffset < n.nextOffset → r ∈ l.info.history.rows)
    (hrows' : ∀ r ∈ l.info.history.rows, r.startOffset < n.nextOffset → r ∈ n.info.history.rows)
    (hnew : ∀ r ∈ begun, r.leaderEpoch < epoch) :
    Lineage (n.raise epoch) written (begun ++ [⟨epoch, n.nextOffset⟩]) := by
  have hlast : (⟨epoch, n.nextOffset⟩ : Entry) ∈ begun ++ [⟨epoch, n.nextOffset⟩] :=
    mem_append_right _ (mem_singleton_self _)
  have hlt : l.info.leaderEpoch < epoch := by
    obtain ⟨r, hr, heq⟩ := h.opened
    exact heq ▸ hnew r hr
  have hrow : ∀ r ∈ (n.raise epoch).info.history.rows, r = ⟨epoch, n.nextOffset⟩ ∨
      (r ∈ l.info.history.rows ∧ r.startOffset < n.nextOffset) := by
    intro r hr
    rcases mem_recordEntry.1 hr with rfl | ⟨hmem, -, hkept⟩
    · exact .inl rfl
    · have hbelow : r.startOffset < n.nextOffset :=
        not_le.1 fun hc => hkept ⟨hc, hnew r (hknown.recorded r hmem)⟩
      exact .inr ⟨hrows r hmem hbelow, hbelow⟩
  have hnewMem : (⟨epoch, n.nextOffset⟩ : Entry) ∈ (n.raise epoch).info.history.rows :=
    mem_recordEntry.2 (.inl rfl)
  constructor
  · exact ⟨hn.laid, hn.stop, fun b hb => h.copies.subset b (hn.subset b hb)⟩
  · exact ⟨_, hlast, rfl⟩
  · exact forall_mem_append.2 ⟨fun r hr => (hnew r hr).le, forall_mem_singleton.2 le_rfl⟩
  · exact hknown.logStart
  · intro r hr
    rcases hrow r hr with rfl | ⟨hmem, -⟩
    · exact hlast
    · exact mem_append_left _ (h.recorded r hmem)
  · refine forall_mem_append.2 ⟨fun r hr => ?_, forall_mem_singleton.2 ⟨_, hnewMem, le_rfl, le_rfl⟩⟩
    -- what covered it is still there, or was replaced by the new entry
    obtain ⟨r', hr', hle, hstart⟩ := h.covered r hr
    have hold := hnew r' (h.recorded r' hr')
    by_cases hgone : n.nextOffset ≤ r'.startOffset
    · exact ⟨_, hnewMem, hle.trans hold.le, hgone.trans hstart⟩
    · have hkept := hrows' r' hr' (not_le.1 hgone)
      refine ⟨r', mem_recordEntry.2 (.inr ⟨hkept, hold.ne, ?_⟩), hle, hstart⟩
      exact fun hc => hgone hc.1
  · intro r hr
    rcases hrow r hr with rfl | ⟨hmem, hlt⟩
    · exact ⟨hn.laid.le_stop.trans hn.stop.ge, le_rfl⟩
    · exact ⟨(h.reached r hmem).1, hlt.le⟩
  · intro b hb r hr
    rcases hrow r hr with rfl | ⟨hmem, -⟩
    · exact .inl ((hn.laid.hi_le hb).trans hn.stop.ge)
    · exact h.whole b (hn.subset b hb) r hmem
  · exact fun b hb => (h.epochs b hb).trans hlt.le
  · intro b hb
    rcases h.kept b hb with hb' | ⟨r, hr, hlost⟩
    · refine (h.copies.mem_or_past hn hb').imp_right fun hpast => ?_
      exact ⟨_, hlast, (h.epochs b hb).trans_lt hlt, hpast⟩
    · exact .inr ⟨r, mem_append_left _ hr, hlost⟩

-- ==== the answer

/-- What the leader's answer means for a batch that was ever written. -/
theorem answer_sound (h : Lineage l written begun)
    (hepoch : epoch ≤ l.info.leaderEpoch) (hb : b ∈ written)
    (hcond : ∀ r ∈ l.info.history.rows, r.leaderEpoch ≤ epoch →
      r.startOffset ≤ b.baseOffset → r.leaderEpoch ≤ b.partitionLeaderEpoch)
    (hbelow : 0 ≤ b.baseOffset ∧
      b.baseOffset < (epochEndOffset l.info epoch l.nextOffset).endOffset) :
    b ∈ l.batches ∧ b.stop ≤ (epochEndOffset l.info epoch l.nextOffset).endOffset := by
  -- no recorded epoch above the one asked for begins below the answer
  have habove : ∀ r ∈ l.info.history.rows, epoch < r.leaderEpoch →
      (epochEndOffset l.info epoch l.nextOffset).endOffset ≤ r.startOffset := by
    intro r hr hlt
    have := h.current r (h.recorded r hr)
    unfold epochEndOffset epochEnd
    rw [if_neg (by omega), if_neg (by omega)]
    split
    · rw [h.logStart]
      exact (h.reached r hr).1
    next e hm => exact (minStart_spec hm _).1 r hr hlt
  have hin : b ∈ l.batches := by
    rcases h.kept b hb with hin | ⟨r, hr, hlt, hstart⟩
    · exact hin
    obtain ⟨r', hr', hle, hstart'⟩ := h.covered r hr
    by_cases hcase : r'.leaderEpoch ≤ epoch
    · have := hcond r' hr' hcase (by omega)
      omega
    · have := habove r' hr' (by omega)
      omega
  refine ⟨hin, ?_⟩
  -- the answer is the log end, the log start, or a recorded start
  have hend := (h.copies.laid.hi_le hin).trans h.copies.stop.ge
  revert hbelow
  unfold epochEndOffset epochEnd
  split
  · exact fun _ => hend
  split
  · intro hbelow
    omega
  split
  · intro hbelow
    rw [h.logStart] at hbelow
    exact absurd hbelow.2 (not_lt.2 hbelow.1)
  next e hm =>
    intro hbelow
    rcases (minStart_spec hm l.nextOffset).2 with heq | ⟨r, hr, -, heq⟩
    · rw [heq]
      exact hend
    rcases h.whole b hin r hr with hle | hle
    · exact hle.trans heq.ge
    · have := hbelow.2
      dsimp only at this
      omega

/-- The leader has an answer. -/
theorem answer_nonneg (h : Lineage l written begun) (hepoch : epoch ≤ l.info.leaderEpoch) :
    0 ≤ (epochEndOffset l.info epoch l.nextOffset).endOffset := by
  have hend : 0 ≤ l.nextOffset := h.copies.laid.le_stop.trans h.copies.stop.ge
  unfold epochEndOffset epochEnd
  split
  · exact hend
  split
  · omega
  split
  · exact h.logStart.ge
  next e hm =>
  rcases (minStart_spec hm l.nextOffset).2 with heq | ⟨r, hr, -, heq⟩
  · exact hend.trans heq.ge
  · exact (h.reached r hr).1.trans heq.ge

-- ==== the follower

/-- A node, seen from the leader. -/
structure Sound (l : Node) (written : List Batch) (begun : List Entry) (n : Node) : Prop where
  copies : Copies n written
  known : Known l begun n.info
  asked : ∀ e ∈ n.want, e ≤ l.info.leaderEpoch
  reply : ∀ b ∈ n.reply, b ∈ written
  agrees : n.reconciled = true →
    (∀ b ∈ n.batches, b ∈ l.batches) ∧ ∀ b ∈ n.reply, b ∈ l.batches

/-- The leader's log only grows while it leads. -/
theorem Sound.mono (h : Sound l written begun n) (hepoch : n'.info = l.info)
    (hlog : ∀ b ∈ l.batches, b ∈ n'.batches) (hall : ∀ b ∈ written, b ∈ all) :
    Sound n' all begun n := by
  constructor
  · exact { h.copies with subset := fun b hb => hall b (h.copies.subset b hb) }
  · exact { h.known with epoch := hepoch ▸ h.known.epoch }
  · exact hepoch ▸ h.asked
  · exact fun b hb => hall b (h.reply b hb)
  · intro hrec
    obtain ⟨hbatches, hreply⟩ := h.agrees hrec
    exact ⟨fun b hb => hlog b (hbatches b hb), fun b hb => hlog b (hreply b hb)⟩

theorem Sound.disconnect (h : Sound l written begun n) : Sound l written begun n.disconnect :=
  ⟨{ h.copies with }, h.known, nofun, nofun, nofun⟩

/-- The batches applied on a reconciled connection are the leader's. -/
theorem Sound.apply (h : Sound l written begun n) : Sound l written begun n.apply := by
  rcases apply_cases n with heq | heq | ⟨b, bs, hreply, heq | ⟨hbase, heq⟩⟩
  · rw [heq]
    exact h
  · rw [heq]
    exact h.disconnect
  all_goals
    have hmem : ∀ c ∈ bs, c ∈ n.reply := fun c hc => hreply ▸ mem_cons_of_mem b hc
    rw [heq]
  · refine ⟨{ h.copies with }, h.known, h.asked, fun c hc => h.reply c (hmem c hc), fun hrec => ?_⟩
    exact ⟨(h.agrees hrec).1, fun c hc => (h.agrees hrec).2 c (hmem c hc)⟩
  · have hb : b ∈ n.reply := hreply ▸ mem_cons_self
    refine ⟨{ h.copies.push hbase (h.reply b hb) with }, h.known, h.asked,
      fun c hc => h.reply c (hmem c hc), fun hrec => ?_⟩
    obtain ⟨hbatches, hall⟩ := h.agrees hrec
    exact ⟨forall_mem_append.2 ⟨hbatches, forall_mem_singleton.2 (hall b hb)⟩,
      fun c hc => hall c (hmem c hc)⟩

/-- A leader that was promoted may still apply what it had read. -/
theorem Lineage.apply (h : Lineage l written begun) (hreply : ∀ b ∈ l.reply, b ∈ written) :
    Lineage l.apply written begun := by
  rcases apply_cases l with heq | heq | ⟨b, bs, hcons, heq | ⟨hbase, heq⟩⟩ <;> rw [heq]
  · exact h
  · exact { h with copies := { h.copies with } }
  · exact { h with copies := { h.copies with } }
  · have hb : b ∈ written := hreply b (hcons ▸ mem_cons_self)
    have hpush : Lineage (l.push b) written begun := h.push hbase (h.epochs b hb) fun c =>
      ⟨.inl, Or.rec id fun hc => hc ▸ hb⟩
    exact { hpush with copies := { hpush.copies with } }

/-- What a reconcile leaves of the log, below an answer that no batch
reaches over. -/
theorem reconcile_spec {answer : EpochEnd} (h : Copies n all) (hpos : 0 ≤ answer.endOffset)
    (hwhole : ∀ b ∈ n.batches, b.baseOffset < answer.endOffset → b.stop ≤ answer.endOffset) :
    Copies (n.reconcile (some answer)) all ∧ ∀ b ∈ (n.reconcile (some answer)).batches,
      b ∈ n.batches ∧ b.baseOffset < answer.endOffset := by
  unfold Node.reconcile
  dsimp only
  rw [if_neg (not_lt.2 hpos)]
  split
  next hlt =>
    refine ⟨⟨h.laid.takeWhile _, ?_, fun b hb => h.subset b (takeWhile_subset _ hb)⟩, ?_⟩
    · rw [h.stop] at hlt
      exact (h.laid.stop_takeWhile hpos hlt hwhole).symm
    · intro b hb
      exact ⟨takeWhile_subset _ hb, by simpa using mem_takeWhile_imp hb⟩
  next hge =>
    refine ⟨{ h with }, fun b hb => ⟨hb, ?_⟩⟩
    have hlast := h.laid.hi_le hb
    have := b.baseOffset_lt_stop
    rw [h.stop] at hge
    omega

/-- A reconcile changes the log, and that it took place. -/
theorem reconcile_fields (n : Node) (answer : Option EpochEnd) :
    (n.reconcile answer).info = n.info ∧ (n.reconcile answer).want = n.want ∧
      (n.reconcile answer).reply = n.reply := by
  unfold Node.reconcile
  split
  · exact ⟨rfl, rfl, rfl⟩
  · split_ifs <;> exact ⟨rfl, rfl, rfl⟩

/-- A reconcile leaves batches of the leader's log. -/
theorem Sound.reconcile (hl : Lineage l written begun) (h : Sound l written begun n)
    (hwant : n.want = some epoch) (hreply : n.reply = [])
    (hok : ∀ b ∈ n.batches, ∀ r ∈ l.info.history.rows, r.leaderEpoch ≤ epoch →
      r.startOffset ≤ b.baseOffset → r.leaderEpoch ≤ b.partitionLeaderEpoch) :
    Sound l written begun
      (n.reconcile (some (epochEndOffset l.info epoch l.nextOffset))) := by
  have hepoch := h.asked epoch hwant
  have hbatch := fun b hb hlt => answer_sound hl hepoch (h.copies.subset b hb) (hok b hb)
    ⟨h.copies.laid.le_lo hb, hlt⟩
  obtain ⟨hinfo, hwant', hreply'⟩ := reconcile_fields n
    (some (epochEndOffset l.info epoch l.nextOffset))
  obtain ⟨hcopies, hmem⟩ := reconcile_spec h.copies (answer_nonneg hl hepoch)
    fun b hb hlt => (hbatch b hb hlt).2
  rw [hreply] at hreply'
  refine ⟨hcopies, hinfo ▸ h.known, hwant' ▸ h.asked, ?_, fun _ => ⟨fun b hb => ?_, ?_⟩⟩
  · rw [hreply']
    exact nofun
  · obtain ⟨hb', hlt⟩ := hmem b hb
    exact (hbatch b hb' hlt).1
  · rw [hreply']
    exact nofun

/-- Every act of a node, a reconcile under the condition. -/
theorem Sound.act (hl : Lineage l written begun) (h : Sound l written begun n) {wal : List Meta}
    (hwal : ∀ m ∈ wal, Known l begun m) (a : Act)
    (hok : ∀ refused, a = .reconcile refused → refused = false ∧ ∀ epoch ∈ n.want,
      ∀ b ∈ n.batches, ∀ r ∈ l.info.history.rows, r.leaderEpoch ≤ epoch →
        r.startOffset ≤ b.baseOffset → r.leaderEpoch ≤ b.partitionLeaderEpoch) :
    Sound l written begun (n.act l wal a) := by
  unfold Node.act
  cases a with
  | crash keep => exact ⟨h.copies.crash keep, h.known, nofun, nofun, nofun⟩
  | wal to_ =>
    dsimp only
    split
    next info hinfo =>
      split_ifs
      · exact { h with copies := { h.copies with }, known := hwal info (mem_of_getElem? hinfo) }
      · exact h
    · exact h
  | look =>
    dsimp only
    split_ifs
    · refine { h with copies := { h.copies with }, asked := fun e he => ?_ }
      cases he
      exact h.known.epoch
    · exact h
  | reconcile refused =>
    obtain ⟨rfl, hcond⟩ := hok refused rfl
    dsimp only
    split
    next epoch hwant =>
      by_cases hready : n.reply = [] ∧ ¬ n.reconciled
      · rw [if_pos hready]
        exact h.reconcile hl hwant hready.1 (hcond epoch hwant)
      · rw [if_neg hready]
        exact h
    · exact h
  | fetch count =>
    dsimp only
    split_ifs with hready
    · have hread : ∀ b ∈ l.fetch n.nextOffset count, b ∈ l.batches :=
        fun b hb => (mem_filter.1 (mem_of_mem_take hb)).1
      refine ⟨{ h.copies with }, h.known, h.asked, ?_, fun hrec => ⟨(h.agrees hrec).1, hread⟩⟩
      exact fun b hb => hl.copies.subset b (hread b hb)
    · exact h
  | apply => exact h.apply
  | disconnect => exact h.disconnect

-- ==== the invariant

structure Inv (s : System ι) : Prop where
  lineage : Lineage s.leading s.written s.begun
  wal : ∀ m ∈ s.wal, Known s.leading s.begun m
  nodes : ∀ i, Sound s.leading s.written s.begun (s.nodes i)

/-- The rows and the log of a new partition. -/
theorem Inv.init (leader : ι) (epoch : ℤ) : Inv (System.init leader epoch) := by
  have hknown : Known { info := createPartition epoch } [⟨epoch, 0⟩] (createPartition epoch) :=
    ⟨le_refl epoch, rfl, fun r hr => hr⟩
  have hcopies : Copies { info := createPartition epoch } [] := ⟨trivial, rfl, nofun⟩
  refine ⟨⟨hcopies, ⟨_, mem_singleton_self _, rfl⟩, ?_, rfl, fun r hr => hr,
    fun r hr => ⟨r, hr, le_rfl, le_rfl⟩, ?_, nofun, nofun, nofun⟩,
    forall_mem_singleton.2 hknown, fun i => ⟨hcopies, hknown, nofun, nofun, nofun⟩⟩
  · exact forall_mem_singleton.2 (le_refl epoch)
  · exact forall_mem_singleton.2 ⟨le_rfl, le_rfl⟩

/-- The invariant, with the leader named. -/
theorem Inv.of_leading (hs : s.leading = l) (hl : Lineage l s.written s.begun)
    (hwal : ∀ m ∈ s.wal, Known l s.begun m)
    (hnodes : ∀ i, Sound l s.written s.begun (s.nodes i)) : Inv s := by
  subst hs
  exact ⟨hl, hwal, hnodes⟩

variable [DecidableEq ι]

/-- The leader's own log grows. -/
theorem Inv.grow (h : Inv s) (hl : Lineage l all s.begun) (hself : Sound l all s.begun l)
    (hinfo : l.info = s.leading.info) (hlog : ∀ b ∈ s.leading.batches, b ∈ l.batches)
    (hall : ∀ b ∈ s.written, b ∈ all) :
    Inv { s with nodes := update s.nodes s.leader l, written := all } := by
  refine .of_leading (update_self ..) hl ?_ ?_
  · exact fun m hm => { h.wal m hm with epoch := hinfo ▸ (h.wal m hm).epoch }
  · exact (forall_update_iff _ fun _ n => Sound l all s.begun n).2
      ⟨hself, fun j _ => (h.nodes j).mono hinfo hlog hall⟩

/-- An append, at the leader's log end under its epoch. -/
theorem Inv.append (h : Inv s) (delta : ℕ) (data : List UInt8) :
    Inv (s.step (.append delta data)) := by
  have hl : Lineage (s.leading.push (s.nextBatch delta data))
      (s.written ++ [s.nextBatch delta data]) s.begun :=
    h.lineage.push rfl le_rfl fun c => mem_append.trans (or_congr_right mem_singleton)
  have hlog : ∀ b ∈ s.leading.batches, b ∈ (s.leading.push (s.nextBatch delta data)).batches :=
    fun b hb => mem_append_left _ hb
  have hall : ∀ b ∈ s.written, b ∈ s.written ++ [s.nextBatch delta data] :=
    fun b hb => mem_append_left _ hb
  have hself : Sound (s.leading.push (s.nextBatch delta data))
      (s.written ++ [s.nextBatch delta data]) s.begun s.leading :=
    (h.nodes s.leader).mono rfl hlog hall
  refine h.grow hl ⟨hl.copies, hself.known, hself.asked, hself.reply, fun hrec => ?_⟩ rfl hlog hall
  exact ⟨fun b hb => hb, (hself.agrees hrec).2⟩

/-- What is known of rows stays so under a leader with a later epoch. -/
theorem Known.mono (h : Known l begun m) (hle : l.info.leaderEpoch ≤ n.info.leaderEpoch)
    (hbegun : ∀ r ∈ begun, r ∈ begun') : Known n begun' m :=
  ⟨h.epoch.trans hle, h.logStart, fun r hr => hbegun r (h.recorded r hr)⟩

/-- A node that is left without its leader, under the next one. -/
theorem Sound.orphaned {next : Node} (h : Sound l written begun n)
    (hnext : Known l begun n'.info) (hle : l.info.leaderEpoch ≤ next.info.leaderEpoch)
    (hbegun : ∀ r ∈ begun, r ∈ begun') : Sound next written begun' (n.orphaned n') := by
  refine ⟨{ h.copies with }, ?_, fun e he => ?_, h.reply, nofun⟩
  · unfold Node.orphaned
    dsimp only
    split_ifs
    · exact hnext.mono hle hbegun
    · exact h.known.mono hle hbegun
  · have he' : e ∈ if n.reconciled then none else n.want := he
    split_ifs at he'
    · cases he'
    · exact (h.asked e he').trans hle

/-- A node that has part of the leader's log, and the leader's epochs
below its end, takes over. -/
theorem Inv.lead (h : Inv s) (i : ι) (epoch : ℤ) (hn : Copies n s.leading.batches)
    (hreply : ∀ b ∈ n.reply, b ∈ s.written) (hknown : Known s.leading s.begun n.info)
    (hrows : ∀ r ∈ n.info.history.rows, r.startOffset < n.nextOffset →
      r ∈ s.leading.info.history.rows)
    (hrows' : ∀ r ∈ s.leading.info.history.rows, r.startOffset < n.nextOffset →
      r ∈ n.info.history.rows) : Inv (s.lead i n epoch) := by
  unfold System.lead
  split_ifs with hnew
  swap
  · exact h
  have hl := h.lineage.lead hn hknown hrows hrows' hnew
  have hself : Known (n.raise epoch) (s.begun ++ [⟨epoch, n.nextOffset⟩]) (n.raise epoch).info :=
    ⟨le_rfl, hl.logStart, hl.recorded⟩
  have hle : s.leading.info.leaderEpoch ≤ (n.raise epoch).info.leaderEpoch := by
    obtain ⟨r, hr, heq⟩ := h.lineage.opened
    exact heq ▸ (hnew r hr).le
  have hbegun : ∀ r ∈ s.begun, r ∈ s.begun ++ [⟨epoch, n.nextOffset⟩] :=
    fun r hr => mem_append_left _ hr
  refine .of_leading (l := n.raise epoch) ?_ hl ?_ ?_
  · show update (fun j => (s.nodes j).orphaned n) i (n.raise epoch) i = _
    rw [update_self]
  · refine forall_mem_append.2 ⟨fun m hm => ?_, forall_mem_singleton.2 hself⟩
    exact (h.wal m (mem_of_mem_take hm)).mono hle hbegun
  · exact (forall_update_iff _ fun _ n => Sound _ _ _ n).2
      ⟨⟨hl.copies, hself, nofun, hreply, nofun⟩, fun j _ => (h.nodes j).orphaned hknown hle hbegun⟩

/-- Every step keeps the invariant, a reconcile and a promotion under
their conditions. -/
theorem Inv.step (s : System ι) (op : Op ι) (h : Inv s) (hok : Consistent s op) :
    Inv (s.step op) := by
  cases op with
  | append delta data => exact h.append delta data
  | restart keep epoch =>
    have hn : Copies (s.leading.crash keep) s.leading.batches :=
      Copies.crash { h.lineage.copies with subset := fun b hb => hb } keep
    exact h.lead s.leader epoch hn nofun (h.nodes s.leader).known (fun r hr _ => hr)
      fun r hr _ => hr
  | promote i epoch =>
    obtain ⟨hlog, hrows, hrows'⟩ := hok
    exact h.lead i epoch { (h.nodes i).copies with subset := hlog } (h.nodes i).reply
      (h.nodes i).known hrows hrows'
  | act i a =>
    unfold System.step
    dsimp only
    split_ifs with hidle
    · exact h
    have hact : Sound s.leading s.written s.begun ((s.nodes i).act s.leading s.wal a) := by
      refine (h.nodes i).act h.lineage h.wal a fun refused ha => ?_
      subst ha
      exact hok
    by_cases hi : i = s.leader
    · subst hi
      obtain rfl : a = .apply := not_not.1 fun hne => hidle ⟨rfl, hne⟩
      obtain ⟨hinfo, hlog, -⟩ := apply_grows s.leading
      exact h.grow (h.lineage.apply (h.nodes s.leader).reply)
        (hact.mono hinfo hlog fun b hb => hb) hinfo hlog fun b hb => hb
    · exact .of_leading (update_of_ne (Ne.symm hi) ..) h.lineage h.wal
        ((forall_update_iff _ fun _ n => Sound _ _ _ n).2 ⟨hact, fun j _ => h.nodes j⟩)

-- ==== the theorem

instance (s : System ι) (op : Op ι) : Decidable (Consistent s op) :=
  match op with
  | .act i (.reconcile refused) => inferInstanceAs (Decidable
      (refused = false ∧ ∀ epoch ∈ (s.nodes i).want, ∀ b ∈ _, ∀ r ∈ _, _ → _ → _))
  | .promote i _ => inferInstanceAs (Decidable
      ((∀ b ∈ (s.nodes i).batches, _) ∧ (∀ r ∈ _, _ → _) ∧ ∀ r ∈ _, _ → _))
  | .append .. | .restart .. | .act _ (.crash _) | .act _ (.wal _) | .act _ .look
  | .act _ (.fetch _) | .act _ .apply | .act _ .disconnect => isTrue trivial

/-- A round on a new connection that fetches once. -/
def oneRound (i : Fin 2) (refused : Bool) : List (Op (Fin 2)) :=
  [.act i .look, .act i (.reconcile refused), .act i (.fetch 5), .act i .apply, .act i .apply]

/-- The follower copies two batches. The leader loses the second, and
writes another one in its place under epoch 1. -/
def replaced : List (Op (Fin 2)) :=
  [.append 0 [1], .append 0 [2]] ++ oneRound 1 false ++ [.restart 1 1, .append 0 [3]]

/-- The follower is promoted as it is in `replaced`, with the batch that
the leader has lost and before it learns of epoch 1. -/
def behind : List (Op (Fin 2)) := replaced ++ [.promote 1 65536]

/-- The follower reconciles before it learns of the new epoch and copies
the batch that replaced the one it had; promoted then, it leads the node
it followed, which learns of nothing before it reconciles. -/
def settled : List (Op (Fin 2)) :=
  replaced ++ oneRound 1 false ++ [.act 1 (.wal 1), .append 0 [4], .promote 1 65536, .append 0 [5]]
    ++ oneRound 0 false

end Kafgres.Replication
