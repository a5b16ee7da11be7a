/-
What the drains guarantee, over any number of them.
-/
import Kafgres.Cdc.Proofs.Read
import Kafgres.Lib.Run

namespace Kafgres.Cdc

open Ledger List

variable {n : ℕ} {cfg : Config n} {st : Stream} {C : Prop} {s : System n} {a : Drainage}

-- ==== between the drains

/-- What holds between drains; `C` says that none has failed. -/
structure SInv (cfg : Config n) (st : Stream) (C : Prop) (s : System n) :
    Prop where
  kept : Kept cfg st s
  saved : ∀ i q, s.saved i = some q → ∀ p, Due cfg st i p → p ≤ q →
    Settled cfg s.journal i p
  justified : Justified (Ready cfg st) s.journal
  filtered : Filtered cfg s.journal
  once : C → (s.journal.map fun e => (e.lane, e.pos)).Nodup
  fresh : C → ∀ e ∈ s.journal,
    (e.verdict = .produced ∨ e.verdict = .passed) ∧ e.pos ≤ ⟨s.slot, summarySeq⟩

theorem SInv.init : SInv cfg st C {} where
  kept := fun i p hdue hle => by
    obtain ⟨t, ht, hend, -⟩ := hdue
    have := st.positive t ht
    have hle : p.endLsn ≤ 0 := hle
    omega
  saved := nofun
  justified := justified_nil
  filtered := nofun
  once := fun _ => List.nodup_nil
  fresh := nofun

/-- The setting of a drain. -/
abbrev setting (cfg : Config n) (st : Stream) (C : Prop) (s : System n) : Setting n :=
  ⟨cfg, st, s.slot, C⟩

theorem SInv.load (h : SInv cfg st C s) :
    Inv (setting cfg st C s) (fun _ => ⟨s.slot, summarySeq⟩) (s.load cfg) :=
  { h with
    mapping := fun _ => rfl
    base := h.kept
    delivered := h.saved
    stopped := nofun
    covers := fun i _ p hdue hle =>
      .inl (h.kept i p hdue ((Due.le_end_iff (S := setting cfg st C s) hdue).1 hle))
    running := fun _ _ => rfl
    fresh := fun hC e he => ⟨(h.fresh hC e he).1, (h.fresh hC e he).2, List.not_mem_nil⟩
    runs := nofun
    shapes := nofun }

theorem level_at_slot (S : Setting n) : Level S fun _ => ⟨S.slot, summarySeq⟩ := by
  intro lane q _ hdue hle i p _ hdue' hle'
  exact hdue'.le_end_iff.2 (hle'.trans (hdue.le_end_iff.1 hle))

variable {front : Fin n → Pos} {d : Drain n} {S : Setting n} {w : World} {high : ℕ}

/-- A drain that ends without moving the slot. -/
theorem SInv.of_inv (hd : Inv (setting cfg st C s) front d)
    (hfront : C → ∀ i, front i ≤ ⟨s.slot, summarySeq⟩) :
    SInv cfg st C ⟨s.slot, d.saved, d.journal⟩ :=
  { hd with
    kept := hd.base
    fresh := fun hC e he => ⟨(hd.fresh hC e he).1,
      (hd.fresh hC e he).2.1.trans (hfront hC e.lane)⟩ }

theorem SInv.failed {X : Prop} (hd : Inv (setting cfg st C s) front d) (hnot : ¬ C) :
    SInv cfg st C ⟨s.slot, d.saved, d.journal⟩ ∧ (C → X) :=
  ⟨SInv.of_inv hd fun hC => absurd hC hnot, fun hC => absurd hC hnot⟩

-- ==== one drain

/-- The positions of the lanes that moved are positions delivered. -/
theorem saveMoved_spec (h : Inv S front d) :
    Inv S front (d.saveMoved w).1 ∧ (d.saveMoved w).1.journal = d.journal := by
  unfold Drain.saveMoved
  split_ifs
  · exact ⟨h, rfl⟩
  · refine ⟨{ h with saved := fun i q hq => ?_ }, rfl⟩
    dsimp only at hq
    split_ifs at hq
    · cases hdel : (d.lanes i).delivered with
      | none =>
        rw [hdel] at hq
        exact h.saved i q hq
      | some q' =>
        rw [hdel] at hq
        cases hq
        exact h.delivered i q hdel
    · exact h.saved i q hq
  · exact ⟨{ h with }, rfl⟩

theorem Inv.syncAll (h : Inv S front d) (w : World) (dirty : Bool) :
    Inv S front (d.syncAll w dirty).1 ∧ (d.syncAll w dirty).1.journal = d.journal := by
  unfold Drain.syncAll
  split_ifs
  · exact ⟨{ h with }, rfl⟩
  · exact ⟨h, rfl⟩

/-- Where the slot may go when no lane has a run: all of it is settled. -/
theorem Inv.target {t : ℕ} (h : Inv S front d) (hruns : ∀ i, (d.lanes i).run = none)
    (hfront : ∀ i, front i = ⟨high, summarySeq⟩) (ht : advanceTarget (some high) d.holds = some t) :
    ∀ i p, Due S.cfg S.st i p → p.endLsn ≤ t → Settled S.cfg d.journal i p := by
  intro i p hdue hle
  have hin : ∀ j hold why, (d.lanes j).stopped = some (hold, why) → hold ∈ d.holds := by
    intro j hold why hs
    exact mem_filterMap.2 ⟨j, mem_finRange j, by rw [hs]; rfl⟩
  by_cases hnil : d.holds = []
  · -- no lane stopped, and the target is the last end
    have hthigh : t = high := by
      unfold advanceTarget at ht
      rw [if_pos hnil] at ht
      exact (Option.some.inj ht).symm
    refine h.upTo ?_ (hruns i) p hdue ?_
    · cases hs : (d.lanes i).stopped with
      | none => rfl
      | some st =>
        have := hin i st.1 st.2 hs
        simp [hnil] at this
    · rw [hfront i, hdue.le_end_iff]
      exact hle.trans hthigh.le
  · have hcases := advanceTarget_cases (some high) hnil
    rw [ht] at hcases
    cases hs : (d.lanes i).stopped with
    | none =>
      -- some other lane stopped, at or past the target
      obtain ⟨hold, hmem⟩ := exists_mem_of_ne_nil _ hnil
      obtain ⟨j, -, hj⟩ := mem_filterMap.1 hmem
      obtain ⟨st, hst, rfl⟩ := Option.map_eq_some_iff.1 hj
      obtain ⟨x, hx, htx⟩ := hcases st.1 hmem
      refine h.upTo hs (hruns i) p hdue ((h.stopped j st.1 st.2 hst).offered i p hdue ?_)
      rw [hx]
      exact hle.trans htx
    | some st =>
      obtain ⟨x, hx, htx⟩ := hcases st.1 (hin i st.1 st.2 hs)
      refine (h.stopped i st.1 st.2 hs).settled p hdue ?_
      rw [hx]
      exact hle.trans htx

theorem holds_eq_nil (h : Inv S front d) (hC : S.clean) : d.holds = [] := by
  refine filterMap_eq_nil_iff.2 fun i _ => ?_
  rw [h.running hC i]
  rfl

/-- The end of a drain. -/
theorem conclude_spec (hd : Inv (setting cfg st C s) (fun _ => ⟨high, summarySeq⟩) d)
    (hruns : ∀ i, (d.lanes i).run = none) (hhigh : s.slot ≤ high) (hw : C → ∀ i, (w i).Fine) :
    SInv cfg st C (d.conclude w s.slot high) ∧
      (C → (d.conclude w s.slot high).slot = high) := by
  obtain ⟨hsync, hjournal⟩ := hd.syncAll w d.dirty
  obtain ⟨hmoved, hjournal'⟩ := saveMoved_spec (w := w) hsync
  unfold Drain.conclude
  dsimp only
  split_ifs with hok hok'
  · generalize hclock : (w ((d.syncAll w d.dirty).1.saveMoved w).1.clock) = o
    have hslot : ∀ t, advanceTarget (some high) d.holds = some t →
        ∀ i p, Due cfg st i p → p.endLsn ≤ t →
          Settled cfg ((d.syncAll w d.dirty).1.saveMoved w).1.journal i p := by
      intro t ht
      rw [hjournal', hjournal]
      exact hd.target hruns (fun _ => rfl) ht
    have hclean : C → advanceTarget (some high) d.holds = some high := by
      intro hC
      rw [holds_eq_nil hd hC]
      rfl
    have hdone : C → o.advances = true := fun hC => by
      rw [← hclock]
      exact (hw hC _).advances
    constructor
    · exact {
        kept := fun i p hdue hle => by
          cases ht : advanceTarget (some high) d.holds with
          | none =>
            rw [ht] at hle
            exact hmoved.base i p hdue hle
          | some t =>
            rw [ht] at hle
            dsimp only at hle
            split_ifs at hle
            · exact hslot t ht i p hdue hle
            · exact hmoved.base i p hdue hle
        saved := hmoved.saved
        justified := hmoved.justified
        filtered := hmoved.filtered
        once := hmoved.once
        fresh := fun hC e he => by
          refine ⟨(hmoved.fresh hC e he).1, ?_⟩
          rw [hclean hC]
          dsimp only
          rw [if_pos ⟨hdone hC, hhigh⟩]
          exact (hmoved.fresh hC e he).2.1 }
    · intro hC
      rw [hclean hC]
      dsimp only
      rw [if_pos ⟨hdone hC, hhigh⟩]
  · have hnot : ¬ C := fun hC => hok' (by
      unfold Drain.saveMoved
      split_ifs with hnone hsave
      · rfl
      · rfl
      · exact absurd (hw hC _).ok hsave)
    exact SInv.failed hmoved hnot
  · have hnot : ¬ C := fun hC => hok (by
      unfold Drain.syncAll
      split_ifs
      · exact (hw hC _).ok
      · rfl)
    exact SInv.failed hsync hnot

/-- Transactions in order end at the last of them. -/
theorem le_endOf {e : ℕ} {txs : List Tx} (hsorted : txs.Pairwise fun t t' => t.endLsn < t'.endLsn)
    (hpast : ∀ t ∈ txs, e < t.endLsn) : e ≤ endOf e txs ∧ ∀ t ∈ txs, t.endLsn ≤ endOf e txs := by
  induction txs generalizing e with
  | nil => exact ⟨le_rfl, nofun⟩
  | cons t txs ih =>
    obtain ⟨hlater, hrest⟩ := pairwise_cons.1 hsorted
    obtain ⟨hle, hall⟩ := ih hrest hlater
    have ht := hpast t mem_cons_self
    refine ⟨ht.le.trans hle, ?_⟩
    exact forall_mem_cons.2 ⟨hle, hall⟩

theorem peek_sorted (st : Stream) (slot k : ℕ) :
    (st.peek slot k).Pairwise (fun t t' => t.endLsn < t'.endLsn) ∧
      ∀ t ∈ st.peek slot k, slot < t.endLsn := by
  refine ⟨(st.ordered.filter _).sublist (take_sublist k _), ?_⟩
  intro t ht
  simpa using (mem_filter.1 (mem_of_mem_take ht)).2

/-- How reading the peek ends: in an error, with nothing read, or with
all of it offered and flushed. -/
theorem stream_spec (h : SInv cfg st C s) (ha : C → a.Fine) (hread : C → cfg.Readable st) :
    let r := (s.load cfg).stream cfg a.world ((st.peek s.slot a.peek).flatMap Tx.rows) a.broken
    match r.2 with
    | none => ¬ C ∧ ∃ front, Inv (setting cfg st C s) front r.1
    | some none => st.peek s.slot a.peek = [] ∧
        Inv (setting cfg st C s) (fun _ => ⟨s.slot, summarySeq⟩) r.1
    | some (some high) => high = endOf s.slot (st.peek s.slot a.peek) ∧
        Inv (setting cfg st C s) (fun _ => ⟨high, summarySeq⟩) r.1 ∧
        ∀ i, (r.1.lanes i).run = none := by
  have hw : (setting cfg st C s).clean → ∀ i, (a.world i).Fine := fun hC => (ha hC).steps
  obtain ⟨os, r', hrows, hchain, hr'⟩ := read_peek (setting cfg st C s) a.peek hread
  dsimp only [setting] at hrows hr'
  unfold Drain.stream
  dsimp only
  cases hbroken : a.broken with
  | some k =>
    -- a part of the offers, and nothing after them
    obtain ⟨m, hm⟩ : ∃ m, (readRows cfg {} (((st.peek s.slot a.peek).flatMap Tx.rows).take k)).1 =
        os.take m := by
      have hpre := readRows_take cfg {} ((st.peek s.slot a.peek).flatMap Tx.rows) k
      rw [hrows] at hpre
      exact ⟨_, prefix_iff_eq_take.1 hpre⟩
    obtain ⟨front, hpart⟩ := hchain.take m
    refine ⟨fun hC => ?_, front, ?_⟩
    · simp [(ha hC).unbroken] at hbroken
    · rw [Option.elim_some, hm]
      exact (hpart.inv h.load (level_at_slot _) hw).1
  | none =>
    rw [Option.elim_none, hrows]
    obtain ⟨hinv, hlevel⟩ := hchain.inv h.load (level_at_slot _) hw
    obtain ⟨hfin, hruns⟩ := finish_spec hinv hlevel hw
    rcases hr' with ⟨hnil, rfl⟩ | hhigh
    · rw [hnil] at hfin
      exact ⟨hnil, hfin⟩
    · dsimp only
      rw [hhigh]
      exact ⟨rfl, hfin, hruns⟩

/-- One drain: what holds between drains holds after it, and if nothing
fails the slot is past all it peeked. -/
theorem drain_spec (h : SInv cfg st C s) (ha : C → a.Fine) (hread : C → cfg.Readable st) :
    SInv cfg st C (s.drain cfg st a) ∧ (C → ∀ t ∈ st.peek s.slot a.peek,
        t.endLsn ≤ (s.drain cfg st a).slot) := by
  have hw : C → ∀ i, (a.world i).Fine := fun hC => (ha hC).steps
  obtain ⟨hsorted, hpast⟩ := peek_sorted st s.slot a.peek
  obtain ⟨hle, hall⟩ := le_endOf hsorted hpast
  unfold System.drain
  split_ifs with hopen
  · have hstream := stream_spec h ha hread
    generalize (s.load cfg).stream cfg a.world
      ((st.peek s.slot a.peek).flatMap Tx.rows) a.broken = r at hstream ⊢
    obtain ⟨d, res⟩ := r
    dsimp only at hstream ⊢
    cases res with
    | none =>
      obtain ⟨hnot, front, hinv⟩ := hstream
      exact SInv.failed hinv hnot
    | some high =>
      cases high with
      | none =>
        obtain ⟨hnil, hinv⟩ := hstream
        refine ⟨SInv.of_inv hinv fun _ _ => le_rfl, ?_⟩
        intro _ t ht
        simp [hnil] at ht
      | some high =>
        obtain ⟨rfl, hinv, hruns⟩ := hstream
        cases hclose : (a.world d.clock).ok with
        | false =>
          have hnot : ¬ C := fun hC => by
            simp [(hw hC d.clock).ok] at hclose
          exact SInv.failed hinv hnot
        | true =>
          obtain ⟨hs, hslot⟩ := conclude_spec (w := a.world) (d := { d with clock := d.clock + 1 })
            { hinv with } hruns hle hw
          refine ⟨hs, fun hC t ht => ?_⟩
          rw [hslot hC]
          exact hall t ht
  · have hnot : ¬ C := fun hC => hopen (hw hC 0).ok
    exact ⟨h, fun hC => absurd hC hnot⟩

theorem slot_le_drain (cfg : Config n) (st : Stream) (s : System n)
    (a : Drainage) : s.slot ≤ (s.drain cfg st a).slot := by
  unfold System.drain
  split_ifs
  · dsimp only
    split
    · unfold Drain.conclude
      dsimp only
      split_ifs
      · split
        · split_ifs with hle
          · exact hle.2
          · exact le_rfl
        · exact le_rfl
      · exact le_rfl
      · exact le_rfl
    · exact le_rfl
  · exact le_rfl

-- ==== the runs

theorem SInv.run (ds : List Drainage) (h : SInv cfg st C s)
    (hfine : C → ∀ a ∈ ds, a.Fine) (hread : C → cfg.Readable st) :
    SInv cfg st C (ds.foldl (System.drain cfg st) s) := by
  induction ds generalizing s with
  | nil => exact h
  | cons a ds ih =>
    refine ih (drain_spec h (fun hC => hfine hC a mem_cons_self)
      hread).1 fun hC b hb => hfine hC b (.tail _ hb)

/-- Whatever fails in the drains. -/
theorem SInv.drained (ds : List Drainage) :
    SInv cfg st False (ds.foldl (System.drain cfg st) {}) :=
  SInv.init.run ds False.elim False.elim

theorem slot_le_run (ds : List Drainage) (s : System n) :
    s.slot ≤ (ds.foldl (System.drain cfg st) s).slot := by
  induction ds generalizing s with
  | nil => exact le_rfl
  | cons a ds ih => exact (slot_le_drain cfg st s a).trans (ih _)

/-- In drains that do not fail, what is past the slot has one entry. -/
theorem SInv.entriesOf_eq {lane : Fin n} {p : Pos} (h : SInv cfg st C s)
    (hC : C) (hdue : Due cfg st lane p) (hle : p.endLsn ≤ s.slot) :
    entriesOf s.journal lane p = [⟨lane, .ofFilter (cfg.keeps lane p), p⟩] := by
  obtain ⟨e, he, rfl, rfl, -⟩ := h.kept lane p hdue hle
  rw [← h.filtered e he (h.fresh hC e he).1]
  unfold entriesOf
  have hin := h.once hC
  obtain ⟨pre, post, hsplit⟩ := append_of_mem he
  rw [hsplit, map_append, map_cons, nodup_middle, nodup_cons, ← map_append] at hin
  -- no other entry is for the same change on the same lane
  have hout : ∀ e' ∈ pre ++ post, ¬ (e'.lane = e.lane ∧ e'.pos = e.pos) :=
    fun e' he' hkey => hin.1 (mem_map.2 ⟨e', he', Prod.ext hkey.1 hkey.2⟩)
  rw [hsplit, filter_append, filter_cons, if_pos (by simp)]
  rw [filter_eq_nil_iff.2 fun e' he' => by
      simpa using hout e' (mem_append_left _ he'),
    filter_eq_nil_iff.2 fun e' he' => by
      simpa using hout e' (mem_append_right _ he')]
  rfl

-- ==== results

/-- Over any drains, whatever fails in them: the slot is not past a
change that is not settled, a change is produced after every earlier one
of its mapping has been rendered, and only what the filter keeps is
produced. If nothing fails, each change peeked is past the slot and has
one entry: it is produced if the filter keeps it, and else left out. -/
theorem changes_delivered (cfg : Config n) (st : Stream) (ds : List Drainage) :
    Kept cfg st (ds.foldl (System.drain cfg st) {}) ∧
    InOrder cfg st (ds.foldl (System.drain cfg st) {}).journal ∧
    Filtered cfg (ds.foldl (System.drain cfg st) {}).journal ∧
    (cfg.Readable st → (∀ a ∈ ds, a.Fine) →
      (∀ lane p, Due cfg st lane p → p.endLsn ≤ (ds.foldl (System.drain cfg st) {}).slot →
        entriesOf (ds.foldl (System.drain cfg st) {}).journal lane p =
          [⟨lane, .ofFilter (cfg.keeps lane p), p⟩]) ∧
      ∀ before a after, ds = before ++ a :: after →
        ∀ t ∈ st.peek (before.foldl (System.drain cfg st) {}).slot a.peek,
          t.endLsn ≤ (ds.foldl (System.drain cfg st) {}).slot) := by
  have hany : SInv cfg st False _ := .drained ds
  refine ⟨hany.kept, fun pre e post hsplit hprod =>
    (hany.justified pre e post hsplit hprod).1, hany.filtered, fun hread hfine => ?_⟩
  have hclean : SInv cfg st True (ds.foldl (System.drain cfg st) {}) :=
    SInv.init.run ds (fun _ => hfine) fun _ => hread
  refine ⟨fun lane p => hclean.entriesOf_eq trivial, ?_⟩
  intro before a after hds t ht
  subst hds
  have hbefore : SInv cfg st True (before.foldl (System.drain cfg st) {}) :=
    SInv.init.run before (fun _ b hb => hfine b (mem_append_left _ hb)) fun _ => hread
  have hpast := (drain_spec hbefore (fun _ => hfine a (by simp)) fun _ => hread).2 trivial t ht
  rw [foldl_append, foldl_cons]
  exact hpast.trans (slot_le_run after _)

/-- What lies at or below a saved position has its outcome. -/
def Resumable (cfg : Config n) (st : Stream) (s : System n) : Prop := ∀ i q, s.saved i = some q →
  ∀ p, Due cfg st i p → p ≤ q → Settled cfg s.journal i p

/-- Over any drains, whatever fails in them: a summary is produced after
all changes of its transaction and of earlier ones are settled on every
table mapping. -/
theorem summaries_follow (cfg : Config n) (st : Stream) (ds : List Drainage) :
    SummariesLast cfg st (ds.foldl (System.drain cfg st) {}).journal := by
  intro pre e post hsplit hprod
  exact ((SInv.drained ds).justified pre e post hsplit hprod).2

-- ==== fixed drains

/-- One skipping mapping of one table, on the table engine. -/
def orders : Config 1 where
  mapping := fun _ => ⟨"orders-cdc", "public.orders", .skip⟩
  keeps := fun _ _ => true
  chunkBytes := 1024
  summaryLen := fun _ => 0
  readable := fun _ => true
  engine := .table

/-- One transaction with two changes of the table. -/
def twoOrders : Stream where
  txs := [⟨5, 10, [(6, ⟨"public", "orders", "[]", 8⟩),
    (7, ⟨"public", "orders", "[]", 8⟩)]⟩]
  ordered := List.pairwise_singleton _ _
  ends := by decide
  positive := by decide
  counted := by decide

theorem due_order {cfg : Config 1} (hm : cfg.mapping = orders.mapping) (i : Fin 2) :
    Due cfg twoOrders 0 ⟨10, i + 1⟩ := by
  refine ⟨_, mem_singleton.2 rfl, rfl, ?_⟩
  rw [hm, if_neg (by decide +kernel)]
  match i with
  | 0 => exact ⟨0, _, rfl, by decide +kernel, rfl⟩
  | 1 => exact ⟨1, _, rfl, by decide +kernel, rfl⟩

/-- A drain in which nothing fails. -/
def fineDrain : Drainage where
  peek := 1
  world := fun _ => {}

/-- A drain in which the first change does not render, and what it
appended cannot be synced. -/
def unsyncedDrain : Drainage where
  peek := 1
  world := fun i =>
    if i = 1 then
      { batch := false, one := fun p => p.seq != 1 }
    else { ok := decide (i ≠ 3) }

/-- The same mapping with a filter that leaves the first change out. -/
def laterOrders : Config 1 := { orders with keeps := fun _ p => p.seq != 1 }

theorem changes_delivered_orders :
    laterOrders.Readable twoOrders ∧ (∀ a ∈ [fineDrain], a.Fine) ∧
    entriesOf ([fineDrain].foldl (System.drain laterOrders twoOrders) {}).journal 0 ⟨10, 1⟩ =
      [⟨0, .passed, ⟨10, 1⟩⟩] ∧
    entriesOf ([fineDrain].foldl (System.drain laterOrders twoOrders) {}).journal 0 ⟨10, 2⟩ =
      [⟨0, .produced, ⟨10, 2⟩⟩] := by
  have hread : laterOrders.Readable twoOrders := ⟨fun _ _ _ _ => rfl, rfl⟩
  have hfine : ∀ a ∈ [fineDrain], a.Fine := by
    intro a ha
    cases mem_singleton.1 ha
    exact ⟨rfl, fun _ => ⟨rfl, rfl, rfl, fun _ => rfl, rfl⟩⟩
  have hentries := ((changes_delivered laterOrders twoOrders [fineDrain]).2.2.2 hread hfine).1
  exact ⟨hread, hfine, hentries 0 ⟨10, 1⟩ (due_order rfl 0) (by decide +kernel),
    hentries 0 ⟨10, 2⟩ (due_order rfl 1) (by decide +kernel)⟩

/-- The first change is dead-lettered and then, on the replay, produced
after the second; and a SQL drain rolled back after the slot moved loses
both. -/
theorem replayed_after_dead_letter :
    ¬ (firstProductions ([unsyncedDrain, fineDrain].foldl
      (System.drain orders twoOrders) {}).journal 0).Pairwise (· < ·) ∧
    ¬ Kept orders twoOrders (System.rolledBackDrain orders twoOrders {} fineDrain) := by
  constructor
  · decide +kernel
  intro hkept
  obtain ⟨e, he, -⟩ := hkept 0 ⟨10, 1⟩ (due_order rfl 0) (by decide +kernel)
  exact nomatch he

end Kafgres.Cdc
