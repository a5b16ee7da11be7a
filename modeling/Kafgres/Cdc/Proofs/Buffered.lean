/-
What a drain counts as buffered (cdc.rs). Every element is a JSON object,
never an empty text, so `before == 1` in `offer` is a new run.
-/
import Kafgres.Cdc.Proofs.Offer
import Kafgres.Lib.Run
import Mathlib.Algebra.BigOperators.Fin

open Run

namespace Kafgres.Cdc

open Function Finset

variable {n : ℕ} {d d' : Drain n} {cfg : Config n} {w : World} {lane : Fin n} {o : Offer n}

-- ==== the counter

def Balanced (d : Drain n) : Prop := d.buffered = ∑ i, d.runBytes i

theorem sum_update (f : Fin n → ℕ) (i : Fin n) (b : ℕ) :
    ∑ j, update f i b j + f i = ∑ j, f j + b := by
  rw [sum_update_of_mem (mem_univ i), ← sum_erase_add _ f (mem_univ i), sdiff_singleton_eq_erase]
  omega

theorem Balanced.le (h : Balanced d) (i : Fin n) : d.runBytes i ≤ d.buffered := by
  have := sum_update d.runBytes i 0
  unfold Balanced at h
  omega

/-- One lane's run is replaced, and the counter moves with it. -/
theorem Balanced.of_update (h : Balanced d) (lane : Fin n) {b : ℕ}
    (hruns : d'.runBytes = update d.runBytes lane b)
    (hbuffered : d'.buffered = d.buffered - d.runBytes lane + b) : Balanced d' := by
  have hle := h.le lane
  have hsum := sum_update d.runBytes lane b
  unfold Balanced at h ⊢
  rw [hruns, hbuffered]
  omega

theorem Flushed.balanced (hf : Flushed d d' lane) (h : Balanced d) : Balanced d' := by
  refine h.of_update lane (b := 0) (funext fun i => ?_) hf.buffered
  by_cases hi : i = lane
  · simp [hi, Drain.runBytes, hf.run]
  · simp [hi, Drain.runBytes, (hf.others i hi).1]

theorem flush_balanced (h : Balanced d) (lane : Fin n) : Balanced (d.flush cfg w lane) := by
  have hrun : ∀ held (d : Drain n) i, Balanced d → Balanced (d.flushRun cfg w i held) :=
    fun held d i hd => (flushRun_flushed cfg i held).balanced hd
  unfold Drain.flush
  split_ifs
  · exact hrun _ _ _ (foldl_inv Balanced (hrun none) h cfg.tableLanes)
  · exact hrun _ _ _ h

theorem join_balanced (h : Balanced d) : Balanced (d.join o) := by
  refine h.of_update o.lane (b := d.runBytes o.lane + o.len + 1) (funext fun i => ?_) ?_
  · by_cases hi : i = o.lane
    · subst hi
      cases hrun : (d.lanes o.lane).run <;>
        simp [Drain.join, Drain.runBytes, Run.push, Run.bytes, hrun]
      omega
    · simp [Drain.join, Drain.runBytes, setLane_of_ne _ hi, hi]
  · have := h.le o.lane
    show d.buffered + o.len + 1 = _
    omega

theorem stop_balanced (h : Balanced d) (hold : Option ℕ) (why : Why) :
    Balanced (d.stop lane hold why) := by
  have hruns : (d.stop lane hold why).runBytes = d.runBytes :=
    funext (forall_setLane (P := fun i l => l.run.elim 0 Run.bytes = d.runBytes i) rfl
      fun _ _ => rfl)
  unfold Balanced
  rw [hruns]
  exact h

-- ==== making room

/-- `max_by_key` finds a largest run. -/
theorem foldl_largest (f : Fin n → ℕ) (l : List (Fin n)) (first : Fin n) :
    ∀ i ∈ first :: l,
    f i ≤ f (l.foldl (fun best i => if f best ≤ f i then i else best) first) := by
  induction l generalizing first with
  | nil => simp
  | cons a l ih =>
    simp only [List.forall_mem_cons, List.foldl_cons] at ih ⊢
    split_ifs with hle
    · exact ⟨hle.trans (ih a).1, ih a⟩
    · exact ⟨(ih first).1, (not_le.1 hle).le.trans (ih first).1, (ih first).2⟩

/-- The lanes with a run. -/
def live (d : Drain n) : Finset (Fin n) := {i | (d.lanes i).run.isSome}

/-- The loop that makes room is over. -/
def Room (cfg : Config n) (len : ℕ) (d : Drain n) : Prop :=
  d.buffered = 0 ∨ d.buffered + len + 2 ≤ cfg.chunkBytes

/-- Each turn ends a run, so one turn for each live lane makes room. -/
theorem makeRoom_turns {len turns : ℕ} (h : Balanced d) (hturns : #(live d) ≤ turns) :
    Balanced (d.makeRoom cfg w lane len turns) ∧
      Room cfg len (d.makeRoom cfg w lane len turns) := by
  induction turns generalizing d with
  | zero =>
    refine ⟨h, .inl (h.trans (sum_eq_zero fun i _ => ?_))⟩
    have hi : i ∉ live d := by
      rw [card_eq_zero.1 (Nat.le_zero.1 hturns)]
      exact notMem_empty i
    rw [live, mem_filter_univ, Option.not_isSome_iff_eq_none] at hi
    rw [Drain.runBytes, hi]
    rfl
  | succ turns ih =>
    unfold Drain.makeRoom
    split_ifs with hguard
    · cases hrun : (d.lanes (d.largest lane)).run with
      | none =>
        -- the largest run has no bytes, so none has
        have hmax := fun i => foldl_largest d.runBytes _ ((List.finRange n).head?.getD lane) i
          (.tail _ (List.mem_finRange i))
        have hzero : d.buffered = 0 := by
          refine h.trans (sum_eq_zero fun i _ => Nat.le_zero.1 ((hmax i).trans ?_))
          exact (congrArg (·.elim 0 Run.bytes) hrun).le
        omega
      | some run =>
        obtain ⟨hshrink, hnone⟩ := flush_runs cfg w d (d.largest lane)
        refine ih (flush_balanced h _) (Nat.lt_succ_iff.1 ((card_lt_card ?_).trans_le hturns))
        refine (ssubset_iff_of_subset fun i hi => ?_).2 ⟨d.largest lane, ?_, ?_⟩
        · rcases hshrink i with hi' | hi'
          · simp [live, hi'] at hi
          · simpa [live, hi'] using hi
        · simp [live, hrun]
        · simp [live, hnone]
    · exact ⟨h, by unfold Room; omega⟩

variable (cfg w)

theorem makeRoom_done (lane : Fin n) (len : ℕ) (h : Balanced d) :
    Balanced (d.makeRoom cfg w lane len n) ∧ Room cfg len (d.makeRoom cfg w lane len n) :=
  makeRoom_turns h ((card_le_univ _).trans_eq (Fintype.card_fin n))

-- ==== every run

/-- What happens to a drain. `flushRun` is the part of a flush after
`changes_first`, whatever that found, so the states in the middle of a
flush are reached too; `stop` is a lane that fails. -/
inductive Op (n : ℕ) where
  | offer (o : Offer n)
  | flush (lane : Fin n)
  | flushRun (lane : Fin n) (held : Option (Option ℕ × Why))
  | stop (lane : Fin n) (hold : Option ℕ) (why : Why)

def Drain.step (cfg : Config n) (w : World) (d : Drain n) : Op n → Drain n
  | .offer o => d.offer cfg w o
  | .flush lane => d.flush cfg w lane
  | .flushRun lane held => d.flushRun cfg w lane held
  | .stop lane hold why => d.stop lane hold why

/-- The lane is stopped, or has delivered the position already. -/
def Drain.Ignores (d : Drain n) (o : Offer n) : Prop :=
  (d.lanes o.lane).stopped.isSome ∨ (d.lanes o.lane).delivered.any fun p => o.pos ≤ p

/-- The end of `offer`: what was there fits with the element, or is
gone. -/
theorem makeRoom_join (h : Balanced d) (o : Offer n) :
    let d' := d.makeRoom cfg w o.lane o.len n
    let d'' := if (d'.lanes o.lane).stopped.isSome then d' else d'.join o
    Balanced d'' ∧ d''.buffered ≤ max cfg.chunkBytes (o.len + 1) := by
  obtain ⟨hbal, hroom⟩ := makeRoom_done cfg w o.lane o.len h
  unfold Room at hroom
  dsimp only
  split_ifs
  · exact ⟨hbal, by omega⟩
  · refine ⟨join_balanced hbal, ?_⟩
    show _ + o.len + 1 ≤ _
    omega

/-- An offer keeps the counter exact, and within the bound unless ignored. -/
theorem offer_balanced (h : Balanced d) (o : Offer n) :
    Balanced (d.offer cfg w o) ∧
    (¬ d.Ignores o → (d.offer cfg w o).buffered ≤ max cfg.chunkBytes (o.len + 1)) := by
  by_cases hout : d.Ignores o
  · rw [show d.offer cfg w o = d from if_pos hout]
    exact ⟨h, absurd hout⟩
  · have hclosed : Balanced (if (d.lanes o.lane).run.any (fun r => r.cols ≠ o.cols) then
        d.flush cfg w o.lane else d) := by
      split_ifs
      · exact flush_balanced h o.lane
      · exact h
    rw [show d.offer cfg w o = _ from if_neg hout]
    obtain ⟨hbal, hle⟩ := makeRoom_join cfg w hclosed o
    exact ⟨hbal, fun _ => hle⟩

/-- Every operation keeps the counter exact. -/
theorem step_balanced (h : Balanced d) (op : Op n) : Balanced (d.step cfg w op) := by
  cases op with
  | offer o => exact (offer_balanced cfg w h o).1
  | flush lane => exact flush_balanced h lane
  | flushRun lane held => exact (flushRun_flushed cfg lane held).balanced h
  | stop lane hold why => exact stop_balanced h hold why

/-- What is sure of one operation: no subtraction is cut off, room can be
made, and an offer is ignored or leaves at most the budget or its own
element. -/
structure Accounted (cfg : Config n) (w : World) (d : Drain n) (op : Op n) : Prop where
  fits : ∀ i r, (d.lanes i).run = some r → r.bytes ≤ d.buffered
  room : ∀ lane len, Room cfg len (d.makeRoom cfg w lane len n)
  ignored : ∀ o, op = .offer o → d.Ignores o → d.step cfg w op = d
  bound : ∀ o, op = .offer o → ¬ d.Ignores o →
    (d.step cfg w op).buffered ≤ max cfg.chunkBytes (o.len + 1)

/-- The counter is exact in every run, and each operation is accounted for. -/
theorem buffered_exact (s : System n) (ops : List (Op n)) :
    Always (Drain.step cfg w) (s.load cfg) ops Balanced ∧
      EachStep (Drain.step cfg w) (s.load cfg) ops (Accounted cfg w) := by
  have hstart : Balanced (s.load cfg) := (sum_eq_zero fun _ _ => rfl).symm
  have hrun := foldl_inv Balanced (fun d op h => step_balanced cfg w h op) hstart
  refine ⟨fun pre _ => hrun pre, fun pre op _ => ?_⟩
  have h := hrun pre
  refine ⟨fun i r hr => ?_, fun lane len => ?_, ?_, ?_⟩
  · have := h.le i
    rwa [Drain.runBytes, hr] at this
  · exact (makeRoom_done cfg w lane len h).2
  · rintro o rfl hout
    exact if_pos hout
  · rintro o rfl
    exact (offer_balanced cfg w h o).2

end Kafgres.Cdc
