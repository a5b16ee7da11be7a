/-
Responses leave in the order of the requests.
-/
import Kafgres.Broker.Replies
import Kafgres.Lib.Run
import Mathlib.Data.List.Perm.Subperm

namespace Kafgres.Replies

open Reorder List Function

variable {conns : ℕ → Option Conn} {nextId id n : ℕ} {c : Conn} {keys keys' : List (ℕ × ℕ)}

structure Inv (conns : ℕ → Option Conn) (nextId : ℕ)
    (keys : List (ℕ × ℕ)) : Prop where
  live : ∀ id c, conns id = some c →
    id ≤ nextId ∧ Ordered c.answers c.queue
  known : ∀ k ∈ keys, k.1 ≤ nextId
  distinct : keys.Nodup
  waits : ∀ k ∈ keys, ∀ c, conns k.1 = some c →
    k.2 < c.queue.next ∧ c.answers.lookup k.2 = none

/-- Fewer numbers wait, or the same in another order. -/
theorem Inv.subperm (h : Inv conns nextId keys)
    (hs : keys'.Subperm keys) : Inv conns nextId keys' := by
  have hmem := hs.subset
  obtain ⟨l, hperm, hsub⟩ := hs
  exact ⟨h.live, fun k hk => h.known k (hmem hk), hperm.nodup_iff.1 (h.distinct.sublist hsub),
    fun k hk => h.waits k (hmem hk)⟩

theorem Inv.drop (h : Inv conns nextId keys) (id : ℕ) :
    Inv (update conns id none) nextId keys := by
  have hold : ∀ id' c, update conns id none id' = some c → conns id' = some c := by
    intro id' c hc
    rw [update_apply] at hc
    split at hc
    · cases hc
    · exact hc
  exact ⟨fun id' c hc => h.live id' c (hold id' c hc), h.known, h.distinct,
    fun k hk c hc => h.waits k hk c (hold k.1 c hc)⟩

/-- A connection changes, and its numbers that wait go on waiting. -/
theorem Inv.put (h : Inv conns nextId keys) (hid : id ≤ nextId) (hc : Ordered c.answers c.queue)
    (hw : ∀ k ∈ keys, k.1 = id → k.2 < c.queue.next ∧ c.answers.lookup k.2 = none) :
    Inv (update conns id (some c)) nextId keys := by
  refine ⟨fun id' c' hc' => ?_, h.known, h.distinct, fun k hk c' hc' => ?_⟩
  · rw [update_apply] at hc'
    split at hc'
    next he =>
      cases hc'
      exact ⟨he ▸ hid, hc⟩
    next => exact h.live id' c' hc'
  · rw [update_apply] at hc'
    split at hc'
    next he =>
      cases hc'
      exact hw k hk he
    next => exact h.waits k hk c' hc'

/-- A request takes the next number of its connection. -/
theorem Inv.take (h : Inv conns nextId keys) (hc : conns id = some c) (retrying : Bool) :
    Inv (update conns id (some { c with
      queue := { c.queue with next := c.queue.next + 1 }
      retrying := retrying })) nextId ((id, c.queue.next) :: keys) := by
  obtain ⟨hid, hord⟩ := h.live id c hc
  have hnew : (id, c.queue.next) ∉ keys := fun hmem =>
    absurd (h.waits _ hmem c hc).1 (lt_irrefl _)
  have hput : Inv (update conns id (some { c with
      queue := { c.queue with next := c.queue.next + 1 }
      retrying := retrying })) nextId keys := by
    refine h.put hid hord.take fun k hk he => ?_
    obtain ⟨hlt, hnone⟩ := h.waits k hk c (he ▸ hc)
    exact ⟨Nat.lt_succ_of_lt hlt, hnone⟩
  refine ⟨hput.live, forall_mem_cons.2 ⟨hid, h.known⟩, nodup_cons.2 ⟨hnew, h.distinct⟩,
    forall_mem_cons.2 ⟨fun c' hc' => ?_, hput.waits⟩⟩
  rw [update_self] at hc'
  cases hc'
  exact ⟨Nat.lt_succ_self _, hord.taken _ le_rfl⟩

/-- A number that waits is answered. -/
theorem Inv.answer (h : Inv conns nextId ((id, n) :: keys))
    (hc : conns id = some c) (b : Response) (retrying : Bool) :
    Inv (update conns id (some { (c.record n b).complete n b with
      retrying := retrying })) nextId keys := by
  obtain ⟨hid, hord⟩ := h.live id c hc
  obtain ⟨hlt, hnone⟩ := h.waits _ mem_cons_self c hc
  refine (h.subperm (sublist_cons_self _ _).subperm).put hid
    (hord.complete b hlt hnone) fun k hk he => ?_
  obtain ⟨hlt', hnone'⟩ := h.waits k (.tail _ hk) c (he ▸ hc)
  have hne : (k.2 == n) = false := beq_false_of_ne fun hn =>
    (nodup_cons.1 h.distinct).1 (he ▸ hn ▸ hk)
  refine ⟨?_, ?_⟩
  · show k.2 < (Queue.release _ _).next
    rwa [Queue.release_next]
  · show (c.answers ++ [(n, b)]).lookup k.2 = none
    simp [lookup_append, hnone', lookup_cons, hne]

-- ==== the server

def Parked.key (p : Parked) : ℕ × ℕ := (p.connId, p.seq)

/-- The invariant, with entries set aside. -/
abbrev Good (s : Server) (aside : List Parked) : Prop :=
  Inv s.conns s.nextId ((s.parked ++ aside).map Parked.key)

variable {s : Server} {p q : Parked} {aside : List Parked}

theorem Good.skip (h : Good s (p :: aside)) : Good s aside :=
  Inv.subperm h (((sublist_cons_self p aside).append_left s.parked).map _).subperm

theorem Good.next (h : Good s (p :: aside)) :
    Inv s.conns s.nextId (p.key :: (s.parked ++ aside).map Parked.key) :=
  Inv.subperm h (perm_middle.map _).symm.subperm

theorem Good.drop (h : Good s aside) (id : ℕ) : Good (s.dropConn id) aside :=
  (Inv.drop h id).subperm ((filter_sublist.append_right aside).map _).subperm

theorem Good.park (h : Good s (p :: aside)) (hq : q.key = p.key) : Good (s.park q) aside := by
  refine Inv.subperm h.next ?_
  show (((s.parked ++ [q]) ++ aside).map Parked.key).Subperm _
  rw [← hq, append_assoc]
  exact (perm_middle.map Parked.key).subperm

/-- An entry set aside is answered. -/
theorem Good.answer (h : Good s (p :: aside))
    (hc : s.conns p.connId = some c) (b : Response) (retrying : Bool) :
    Good (s.setConn p.connId { (c.record p.seq b).complete p.seq b with
      retrying := retrying }) aside :=
  Inv.answer h.next hc b retrying

theorem Good.touch (h : Good s aside) (hc : s.conns id = some c) (retrying : Bool) :
    Good (s.setConn id { c with retrying := retrying }) aside := by
  obtain ⟨hid, hord⟩ := h.live id c hc
  exact Inv.put h hid hord fun k hk he => h.waits k hk c (he ▸ hc)

theorem Good.serveOne (h : Good s []) (id : ℕ) (r : Result) : Good (s.serveOne id r) [] := by
  unfold Server.serveOne
  cases hc : s.conns id with
  | none => exact h
  | some c =>
    dsimp only
    split
    · exact h
    have htake : ∀ retrying again, Good (s.setConn id { c with
        queue := { c.queue with next := c.queue.next + 1 }
        retrying := retrying }) [⟨id, c.queue.next, again⟩] := by
      intro retrying again
      exact Inv.subperm (Inv.take h hc retrying) (perm_middle.map Parked.key).subperm
    have hanswer := fun b => (htake c.retrying false).answer (update_self ..) b c.retrying
    simp only [Server.setConn, update_idem] at hanswer
    cases r with
    | reply b => exact hanswer b
    | noReply => exact hanswer []
    | parked => exact (htake c.retrying false).park rfl
    | busy =>
      dsimp only
      split
      · exact (htake c.retrying false).skip.drop id
      · exact (htake true true).park rfl
    | failed => exact (htake c.retrying false).skip.drop id

/-- The request that is looked at, before those that stay parked. -/
theorem Good.front {still : List Parked} (h : Good s (still ++ p :: aside)) :
    Good s (p :: (still ++ aside)) :=
  Inv.subperm h ((perm_middle.symm.append_left s.parked).map _).subperm

/-- A round of `retry_parked`. -/
theorem Good.retryOne {env : Retrying} {st : Server × List Parked × Bool}
    (h : Good st.1 (st.2.1 ++ p :: aside)) :
    Good (Server.retryOne env st p).1 ((Server.retryOne env st p).2.1 ++ aside) := by
  obtain ⟨s, still, locked⟩ := st
  have hfirst : Good s (p :: (still ++ aside)) := h.front
  have hkeep : Good s ((still ++ [p]) ++ aside) := by
    rwa [append_assoc]
  unfold Server.retryOne
  dsimp only
  cases hc : s.conns p.connId with
  | none => exact hfirst.skip
  | some c =>
    dsimp only
    split
    · exact hkeep
    cases env.dispatch p with
    | busy =>
      dsimp only
      split
      · exact hfirst.skip.drop _
      · exact hkeep
    | failed => exact hfirst.skip.drop _
    | parked => exact (hfirst.touch hc false).park rfl
    | reply b => exact hfirst.answer hc b false
    | noReply => exact hfirst.answer hc [] false

/-- A round of `complete_parked`. -/
theorem Good.completeOne {env : Parked → Swept}
    {st : Server × List Parked} (h : Good st.1 (st.2 ++ p :: aside)) :
    Good (Server.completeOne env st p).1 ((Server.completeOne env st p).2 ++ aside) := by
  obtain ⟨s, still⟩ := st
  have hfirst : Good s (p :: (still ++ aside)) := h.front
  have hkeep : Good s ((still ++ [p]) ++ aside) := by
    rwa [append_assoc]
  unfold Server.completeOne
  cases hc : s.conns p.connId with
  | none => exact hfirst.skip
  | some c =>
    dsimp only
    split
    · exact hkeep
    cases env p with
    | stays => exact hkeep
    | answers b => exact hfirst.answer hc b c.retrying
    | fails => exact hfirst.skip.drop _

theorem Good.retries {env : Retrying} {ps : List Parked}
    {st : Server × List Parked × Bool} (h : Good st.1 (st.2.1 ++ ps)) :
    Good (ps.foldl (Server.retryOne env) st).1 (ps.foldl (Server.retryOne env) st).2.1 := by
  induction ps generalizing st with
  | nil => rwa [append_nil] at h
  | cons p ps ih => exact ih (Good.retryOne h)

theorem Good.completes {env : Parked → Swept} {ps : List Parked}
    {st : Server × List Parked} (h : Good st.1 (st.2 ++ ps)) :
    Good (ps.foldl (Server.completeOne env) st).1 (ps.foldl (Server.completeOne env) st).2 := by
  induction ps generalizing st with
  | nil => rwa [append_nil] at h
  | cons p ps ih => exact ih (Good.completeOne h)

theorem Good.step (h : Good s []) (op : Op) : Good (s.step op) [] := by
  cases op with
  | accept =>
    have hnew : Inv s.conns (s.nextId + 1) ((s.parked ++ []).map Parked.key) :=
      ⟨fun id c hc => ⟨Nat.le_succ_of_le (h.live id c hc).1,
        (h.live id c hc).2⟩, fun k hk => Nat.le_succ_of_le (h.known k hk),
        h.distinct, h.waits⟩
    refine hnew.put le_rfl Ordered.start fun k hk he => ?_
    have := h.known k hk
    omega
  | serve id r => exact h.serveOne id r
  | drop id => exact h.drop id
  | retry env =>
    have hsplit : Good { s with parked := s.parked.filter (!·.retry) }
        ([] ++ s.parked.filter (·.retry)) := by
      refine Inv.subperm h ((List.Perm.map _ ?_).subperm)
      rw [nil_append, append_nil]
      exact perm_append_comm.trans (filter_append_perm _ _)
    have hloop := @Good.retries env _ (_, [], env.locksHeld) hsplit
    show Inv _ _ ((_ ++ []).map Parked.key)
    rwa [append_nil]
  | sweep env =>
    have hstart : Good { s with parked := [] } ([] ++ s.parked) := by
      rw [nil_append]
      exact Inv.subperm h ((List.Perm.map _ (by simp)).subperm)
    have hloop := @Good.completes env _ (_, []) hstart
    refine Inv.subperm hloop (List.Sublist.subperm ?_)
    rw [append_nil]
    exact (sublist_append_right _ _).map _

-- ==== runs

theorem Good.start : Good {} [] := ⟨nofun, nofun, nodup_nil, nofun⟩

theorem inOrder_of_ordered (h : Ordered c.answers c.queue) : c.InOrder := by
  have hmem : ∀ n, n ∈ c.answers.map (·.1) ↔ lookup n c.answers ≠ none := by
    intro n
    rw [ne_eq, lookup_eq_none_iff]
    simp
  refine ⟨h.once, c.queue.flushed, fun n hn => (hmem n).2 (h.given n hn),
    fun hk => (hmem _).1 hk h.waits, h.out⟩

/-- In whatever order the requests of a connection are answered, and
whatever becomes of other connections meanwhile. -/
theorem responses_in_order (ops : List Op) :
    Run.Always Server.step {} ops fun s => ∀ id c, s.conns id = some c → c.InOrder := by
  intro pre _ id c hc
  have hgood : Good (pre.foldl Server.step {}) [] :=
    Run.foldl_inv (fun s => Good s []) (fun _ op h => h.step op) Good.start pre
  exact inOrder_of_ordered (hgood.live id c hc).2

-- The first waits for data, the second is answered at once, the third
-- waits for a lock and has no reply.
example : (([.accept, .serve 1 .parked, .serve 1 (.reply [2]),
      .serve 1 .busy, .retry ⟨fun _ => false, false, fun _ => .noReply⟩,
      .sweep fun _ => .answers [1]].foldl Server.step {}).conns 1).map
      (·.queue.out) = some [[1], [2], []] := by decide

end Kafgres.Replies
