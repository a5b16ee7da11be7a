/-
A leader epoch and an offset name one batch, however nodes crash, follow
or are promoted: a leader appends at its log end under an epoch of its
own.
-/
import Kafgres.Replication.Follower
import Kafgres.Lib.Run
import Mathlib.Data.List.Pairwise
import Mathlib.Data.List.TakeWhile

namespace Kafgres.Replication

open LeaderEpoch List Function

variable {ι : Type} {s : System ι} {l n : Node} {written : List Batch} {epoch : ℤ}

-- ==== where batches come from

/-- What `apply` can do. -/
theorem apply_cases (n : Node) :
    n.apply = n ∨ n.apply = n.disconnect ∨ ∃ b bs,
    n.reply = b :: bs ∧ (n.apply = { n with reply := bs } ∨
      b.baseOffset = n.nextOffset ∧ n.apply = { n.push b with reply := bs }) := by
  unfold Node.apply Node.appendReplicated
  cases hreply : n.reply with
  | nil => exact .inl rfl
  | cons b bs =>
    dsimp only
    by_cases hbelow : b.baseOffset < n.nextOffset
    · exact .inr (.inr ⟨b, bs, rfl, .inl (if_pos hbelow)⟩)
    rw [if_neg hbelow]
    by_cases hnext : b.baseOffset = n.nextOffset
    · exact .inr (.inr ⟨b, bs, rfl, .inr ⟨hnext, by rw [if_pos hnext]⟩⟩)
    · exact .inr (.inl (by rw [if_neg hnext]))

/-- The rows stay, no batch goes, and the log end does not go back. -/
theorem apply_grows (n : Node) :
    n.apply.info = n.info ∧
    (∀ b ∈ n.batches, b ∈ n.apply.batches) ∧ n.nextOffset ≤ n.apply.nextOffset := by
  rcases apply_cases n with heq | heq | ⟨b, bs, -, heq | ⟨hbase, heq⟩⟩ <;> rw [heq]
  · exact ⟨rfl, fun c hc => hc, le_rfl⟩
  · exact ⟨rfl, fun c hc => hc, le_rfl⟩
  · exact ⟨rfl, fun c hc => hc, le_rfl⟩
  · exact ⟨rfl, fun c hc => mem_append_left _ hc, hbase ▸ b.baseOffset_lt_stop.le⟩

/-- What a node has, and what it is about to apply, was written. -/
def Node.From (n : Node) (written : List Batch) : Prop :=
  (∀ b ∈ n.batches, b ∈ written) ∧ ∀ b ∈ n.reply, b ∈ written

/-- Every act of a node copies batches, or drops some. -/
theorem Node.From.act (h : n.From written) (hl : l.From written) (wal : List Meta) (a : Act) :
    (n.act l wal a).From written := by
  unfold Node.act
  cases a with
  | crash keep => exact ⟨fun b hb => h.1 b (mem_of_mem_take hb), nofun⟩
  | wal to_ =>
    dsimp only
    split
    · split_ifs <;> exact h
    · exact h
  | look =>
    split_ifs <;> exact h
  | reconcile refused =>
    dsimp only
    split
    · split_ifs
      · exact h
      · unfold Node.reconcile
        dsimp only
        split_ifs
        · exact h
        · exact ⟨fun b hb => h.1 b (takeWhile_subset _ hb), h.2⟩
        · exact h
      · exact h
    · exact h
  | fetch count =>
    dsimp only
    split_ifs
    · exact ⟨h.1, fun b hb => hl.1 b (mem_filter.1 (mem_of_mem_take hb)).1⟩
    · exact h
  | apply =>
    rcases apply_cases n with heq | heq | ⟨b, bs, hreply, heq⟩
    · rw [heq]
      exact h
    · rw [heq]
      exact ⟨h.1, nofun⟩
    obtain ⟨hb, hbs⟩ := forall_mem_cons.1 (hreply ▸ h.2)
    rcases heq with heq | ⟨-, heq⟩ <;> rw [heq]
    · exact ⟨h.1, hbs⟩
    · exact ⟨forall_mem_append.2 ⟨h.1, forall_mem_singleton.2 hb⟩, hbs⟩
  | disconnect => exact ⟨h.1, nofun⟩

-- ==== the invariant

structure Matched (s : System ι) : Prop where
  nodes : ∀ i, (s.nodes i).From s.written
  begun : ∀ b ∈ s.written, ∃ r ∈ s.begun, r.leaderEpoch = b.partitionLeaderEpoch
  opened : ∃ r ∈ s.begun, r.leaderEpoch = s.leading.info.leaderEpoch
  last : ∀ b ∈ s.written, b.partitionLeaderEpoch = s.leading.info.leaderEpoch →
    b.stop ≤ s.leading.nextOffset
  apart : s.written.Pairwise fun b c => b.partitionLeaderEpoch = c.partitionLeaderEpoch →
    b.stop ≤ c.baseOffset

theorem Matched.init (leader : ι) (epoch : ℤ) : Matched (System.init leader epoch) :=
  ⟨fun _ => ⟨nofun, nofun⟩, nofun, ⟨_, mem_singleton_self _, rfl⟩, nofun, .nil⟩

variable [DecidableEq ι]

/-- A batch lies past all that were written under its epoch. -/
theorem Matched.append (h : Matched s) (delta : ℕ) (data : List UInt8) :
    Matched (s.step (.append delta data)) := by
  have hleading : (s.step (.append delta data)).leading =
      s.leading.push (s.nextBatch delta data) := update_self ..
  have hold : ∀ j, (s.nodes j).From (s.written ++ [s.nextBatch delta data]) := fun j =>
    ⟨fun b hb => mem_append_left _ ((h.nodes j).1 b hb),
      fun b hb => mem_append_left _ ((h.nodes j).2 b hb)⟩
  refine ⟨(forall_update_iff _ fun _ (n : Node) => n.From _).2 ⟨?_, fun j _ => hold j⟩, ?_,
    hleading ▸ h.opened, ?_, ?_⟩
  · exact ⟨forall_mem_append.2 ⟨(hold _).1, fun b hb => mem_append_right _ hb⟩, (hold _).2⟩
  · exact forall_mem_append.2 ⟨h.begun, forall_mem_singleton.2 h.opened⟩
  · rw [hleading]
    refine forall_mem_append.2 ⟨fun b hb heq => ?_, forall_mem_singleton.2 fun _ => le_rfl⟩
    exact (h.last b hb heq).trans (s.nextBatch delta data).baseOffset_lt_stop.le
  · refine pairwise_append.2 ⟨h.apart, pairwise_singleton .., fun b hb => ?_⟩
    exact forall_mem_singleton.2 (h.last b hb)

/-- Nothing has been written under a new epoch. -/
theorem Matched.lead (h : Matched s) (i : ι) (hn : n.From s.written) (epoch : ℤ) :
    Matched (s.lead i n epoch) := by
  unfold System.lead
  split_ifs with hnew
  · have hleading : update (fun j => (s.nodes j).orphaned n) i (n.raise epoch) i =
        n.raise epoch := update_self ..
    refine ⟨(forall_update_iff _ fun _ (n : Node) => n.From _).2 ⟨hn, fun j _ => h.nodes j⟩, ?_,
      ⟨_, mem_append_right _ (mem_singleton_self _), ?_⟩, fun b hb heq => ?_, h.apart⟩
    · intro b hb
      obtain ⟨r, hr, heq⟩ := h.begun b hb
      exact ⟨r, mem_append_left _ hr, heq⟩
    · exact (congrArg (·.info.leaderEpoch) hleading).symm
    · obtain ⟨r, hr, hb'⟩ := h.begun b hb
      have hepoch : b.partitionLeaderEpoch = epoch :=
        heq.trans (congrArg (·.info.leaderEpoch) hleading)
      exact absurd (hb'.trans hepoch) (hnew r hr).ne
  · exact h

theorem Matched.step (s : System ι) (op : Op ι) (h : Matched s) : Matched (s.step op) := by
  cases op with
  | append delta data => exact h.append delta data
  | restart keep epoch =>
    exact h.lead (n := s.leading.crash keep) _
      ⟨fun b hb => (h.nodes _).1 b (mem_of_mem_take hb), nofun⟩ epoch
  | promote i epoch => exact h.lead i (h.nodes i) epoch
  | act i a =>
    unfold System.step
    dsimp only
    split_ifs with hidle
    · exact h
    have hleading : (update s.nodes i ((s.nodes i).act s.leading s.wal a) s.leader).info =
        s.leading.info ∧ s.leading.nextOffset ≤
        (update s.nodes i ((s.nodes i).act s.leading s.wal a) s.leader).nextOffset := by
      rcases eq_or_ne s.leader i with rfl | hi
      · obtain rfl : a = .apply := not_not.1 fun hne => hidle ⟨rfl, hne⟩
        rw [update_self]
        exact ⟨(apply_grows _).1, (apply_grows _).2.2⟩
      · rw [update_of_ne hi]
        exact ⟨rfl, le_rfl⟩
    refine ⟨(forall_update_iff _ fun _ (n : Node) => n.From _).2 ⟨?_, fun j _ => h.nodes j⟩,
      h.begun, ?_, fun b hb heq => ?_, h.apart⟩
    · exact (h.nodes i).act (h.nodes _) s.wal a
    · exact hleading.1 ▸ h.opened
    · exact (h.last b hb (heq.trans (congrArg _ hleading.1))).trans hleading.2

-- ==== every run

end Kafgres.Replication
