/-
What a peek offers: every change due past the slot comes next on its
lane, with a hold at the end of the transaction before its own.
-/
import Kafgres.Cdc.Proofs.Offer
import Mathlib.Data.List.Infix

namespace Kafgres.Cdc

open List

variable {n : ℕ} {S : Setting n} {front front' : Fin n → Pos}
  {d : Drain n} {w : World} {os : List (Offer n)} {hold : Option ℕ}

-- ==== the chain

/-- Offers that come next one after another; where nothing is due the
frontier moves by itself. -/
inductive Chain (S : Setting n) : (Fin n → Pos) → List (Offer n) → (Fin n → Pos) → Prop where
  | nil (front : Fin n → Pos) : Chain S front [] front
  | offer {front front' : Fin n → Pos} {o : Offer n} {os : List (Offer n)}
      (fits : Fits S front o)
      (rest : Chain S (Function.update front o.lane o.pos) os front') :
      Chain S front (o :: os) front'
  | raise {front front₁ front' : Fin n → Pos} {os : List (Offer n)}
      (le : ∀ i, front i ≤ front₁ i)
      (none_due : ∀ i p, Due S.cfg S.st i p → p ≤ front₁ i → p ≤ front i)
      (rest : Chain S front₁ os front') : Chain S front os front'

theorem Chain.append {os' : List (Offer n)} {front'' : Fin n → Pos}
    (h : Chain S front os front') (h' : Chain S front' os' front'') :
    Chain S front (os ++ os') front'' := by
  induction h with
  | nil front => exact h'
  | offer fits _ ih => exact .offer fits (ih h')
  | raise le none_due _ ih => exact .raise le none_due (ih h')

theorem Chain.take (h : Chain S front os front') (k : ℕ) :
    ∃ front₁, Chain S front (os.take k) front₁ := by
  induction h generalizing k with
  | nil front =>
    rw [take_nil]
    exact ⟨front, .nil front⟩
  | offer fits _ ih =>
    cases k with
    | zero => exact ⟨_, .nil _⟩
    | succ k =>
      obtain ⟨front₁, hrest⟩ := ih k
      exact ⟨front₁, .offer fits hrest⟩
  | raise le none_due _ ih =>
    obtain ⟨front₁, hrest⟩ := ih k
    exact ⟨front₁, .raise le none_due hrest⟩

/-- The offers of a chain in turn. -/
theorem Chain.inv (h : Chain S front os front') (hd : Inv S front d)
    (hlevel : Level S front) (hw : S.clean → ∀ i, (w i).Fine) :
    Inv S front' (os.foldl (fun d o => d.offer S.cfg w o) d) ∧ Level S front' := by
  induction h generalizing d with
  | nil front => exact ⟨hd, hlevel⟩
  | offer fits _ ih =>
    exact ih (offer_spec hd hlevel hw fits) (fits.level hlevel)
  | raise le none_due _ ih =>
    refine ih (hd.raise le fun i hs p hdue hle =>
      hd.covers i hs p hdue (none_due i p hdue hle)) ?_
    intro lane q hsum hdue hle i p ht hdue' hle'
    exact (hlevel lane q hsum hdue (none_due lane q hdue hle) i p ht hdue' hle').trans (le i)

-- ==== one row

/-- A row's offers: the lanes on which its position is due, from one
frontier to the next. -/
theorem chain_row {f pos : Pos} {cols : String} {len : ℕ}
    {lanes : List (Fin n)} (hnodup : lanes.Nodup)
    (hdue : ∀ i, i ∈ lanes ↔ Due S.cfg S.st i pos) (hlt : f < pos)
    (hnext : ∀ i p, Due S.cfg S.st i p → p < pos → p ≤ f) (hhold : HoldOk S (fun _ => f) hold)
    (hbefore : hold.getD S.slot < pos.endLsn)
    (hshape : S.clean → lanes ≠ [] → S.cfg.readable cols = true)
    (hchanges : ∀ i ∈ lanes, (S.cfg.mapping i).summary = true →
      ∀ j p, (S.cfg.mapping j).summary = false → Due S.cfg S.st j p →
        p.endLsn ≤ pos.endLsn → p ≤ f) :
    Chain S (fun _ => f) (lanes.map fun lane => ⟨lane, pos, hold, cols, len⟩) fun _ => pos := by
  -- the lanes already offered, then the others
  have hmid : ∀ done todo, done ++ todo = lanes → Chain S (fun i => if i ∈ done then pos else f)
        (todo.map fun lane => ⟨lane, pos, hold, cols, len⟩)
        fun i => if i ∈ lanes then pos else f := by
    intro done todo hsplit
    induction todo generalizing done with
    | nil =>
      rw [append_nil] at hsplit
      subst hsplit
      exact .nil _
    | cons lane todo ih =>
      have hle' : ∀ i, f ≤ if i ∈ done then pos else f := by
        intro i
        split_ifs
        · exact hlt.le
        · exact le_rfl
      have hin : lane ∈ lanes := hsplit ▸ by simp
      have hnew : lane ∉ done := by
        intro hmem
        rw [← hsplit] at hnodup
        exact (nodup_append.1 hnodup).2.2 lane hmem lane (by simp) rfl
      refine .offer ⟨(hdue lane).1 hin, ?_, ?_, hhold.raise hle', hbefore,
        fun hC => hshape hC (ne_nil_of_mem hin), ?_⟩ ?_
      · rw [if_neg hnew]
        exact hlt
      · intro p hp hpos
        rw [if_neg hnew]
        exact hnext lane p hp hpos
      · intro hsum j p ht hp hpos
        exact (hchanges lane hin hsum j p ht hp hpos).trans (hle' j)
      · have hupdate : Function.update (fun i => if i ∈ done then pos else f) lane pos =
            fun i => if i ∈ done ++ [lane] then pos else f := by
          funext i
          rcases eq_or_ne i lane with rfl | hi
          · simp
          · simp [hi]
        rw [hupdate]
        exact ih (done ++ [lane]) (by simpa using hsplit)
  have hall := hmid [] lanes rfl
  simp only [not_mem_nil, if_false] at hall
  rw [← append_nil (lanes.map _)]
  refine hall.append (.raise (fun i => ?_) (fun i p hp hpos => ?_) (.nil _))
  · split_ifs
    · exact le_rfl
    · exact hlt.le
  split_ifs with hi
  · exact hpos
  · rcases hpos.lt_or_eq with hlt' | rfl
    · exact hnext i p hp hlt'
    · exact absurd ((hdue i).2 hp) hi

-- ==== what is due

variable {t : Tx} {i : Fin n} {p : Pos} {e : ℕ} {cfg : Config n} {txs : List Tx} {r r' : Reader}
  {st : Stream}

theorem Stream.eq_of_end {t t' : Tx} (ht : t ∈ st.txs)
    (ht' : t' ∈ st.txs) (heq : t.endLsn = t'.endLsn) : t = t' := by
  have hnodup : (st.txs.map (·.endLsn)).Nodup := (pairwise_map.2 st.ordered).imp fun h => h.ne
  exact inj_on_of_nodup_map hnodup ht ht' heq

/-- What is due of a transaction: the summary, or a change at its place. -/
theorem Due.cases (h : Due S.cfg S.st i p) (ht : t ∈ S.st.txs) (heq : p.endLsn = t.endLsn) :
    (S.cfg.mapping i).summary = true ∧ t.changes ≠ [] ∧ p.seq = summarySeq ∨
    (S.cfg.mapping i).summary = false ∧ ∃ k c, t.changes[k]? = some c ∧
      (S.cfg.mapping i).takes c.2 = true ∧ p.seq = k + 1 ∧ k < t.changes.length := by
  obtain ⟨t', ht', hend, howes⟩ := h
  obtain rfl := Stream.eq_of_end ht ht' (heq.symm.trans hend)
  split_ifs at howes with hsum
  · exact .inl ⟨hsum, howes⟩
  · obtain ⟨k, c, hk, htakes, hseq⟩ := howes
    exact .inr ⟨by simpa using hsum, k, c, hk, htakes, hseq, (List.getElem?_eq_some_iff.1 hk).1⟩

/-- A due position is a change's place, or the summary's. -/
theorem Due.seq (h : Due S.cfg S.st i p) : 1 ≤ p.seq ∧ p.seq ≤ summarySeq := by
  obtain ⟨t, ht, howes⟩ := id h
  have hcount := S.st.counted t ht
  rcases h.cases ht howes.1 with ⟨-, -, hseq⟩ | ⟨-, k, -, -, -, hseq, hk⟩
  · omega
  · omega

theorem Due.le_end_iff (h : Due S.cfg S.st i p) : p ≤ ⟨e, summarySeq⟩ ↔ p.endLsn ≤ e := by
  have := h.seq
  rw [Pos.le_iff]
  dsimp only
  omega

/-- The next transaction past an LSN. -/
structure Next (st : Stream) (e : ℕ) (t : Tx) : Prop where
  mem : t ∈ st.txs
  past : e < t.endLsn
  first : ∀ x ∈ st.txs, e < x.endLsn → t.endLsn ≤ x.endLsn

/-- What is due before a transaction is up to the LSN before it. -/
theorem Next.due_le (h : Next S.st e t) (hdue : Due S.cfg S.st i p)
    (hlt : p.endLsn < t.endLsn) : p ≤ ⟨e, summarySeq⟩ := by
  rw [hdue.le_end_iff]
  obtain ⟨t', ht', hend, -⟩ := hdue
  by_contra hgt
  have := h.first t' ht' (by omega)
  omega

theorem HoldOk.at_end (he : hold.getD S.slot = e) : HoldOk S (fun _ => ⟨e, summarySeq⟩) hold := by
  intro i p hdue hle
  rw [he] at hle
  exact hdue.le_end_iff.2 hle

-- ==== a transaction

theorem readRows_cons {row : Row} {os : List (Offer n)} (h : r.read cfg row = .ok (r', os))
    (rows : List Row) :
    readRows cfg r (row :: rows) = (os ++ (readRows cfg r' rows).1, (readRows cfg r' rows).2) := by
  rw [readRows, h]

theorem readRows_append {rows : List Row} {os : List (Offer n)}
    (h : readRows cfg r rows = (os, .ok r')) (rows' : List Row) :
    readRows cfg r (rows ++ rows') =
      (os ++ (readRows cfg r' rows').1, (readRows cfg r' rows').2) := by
  induction rows generalizing r os with
  | nil =>
    cases h
    rfl
  | cons row rows ih =>
    cases hread : r.read cfg row with
    | error err =>
      simp [readRows, hread] at h
    | ok out =>
      obtain ⟨r₁, os₁⟩ := out
      rw [readRows_cons hread] at h
      obtain ⟨rfl, hrest⟩ := Prod.mk.inj h
      rw [cons_append, readRows_cons hread, ih (Prod.ext rfl hrest), append_assoc]

/-- The changes of a transaction from one on, each next on its lanes. -/
theorem read_changes {prev : Option ℕ} (ht : Next S.st e t) (hprev : prev.getD S.slot = e)
    (hread : S.clean → S.cfg.Readable S.st) (cs pre : List (ℕ × Change))
    (hsplit : t.changes = pre ++ cs) {h : ℕ} (hhigh : h ≤ t.endLsn) :
    ∃ os h', h' ≤ t.endLsn ∧ readRows S.cfg ⟨some h, prev,
          some ⟨t.endLsn, prev, pre.length, pre.length⟩⟩ (cs.map fun c => ⟨c.1, .change c.2⟩) =
        (os, .ok ⟨some h', prev, some ⟨t.endLsn, prev, t.changes.length, t.changes.length⟩⟩) ∧
      Chain S (fun _ => ⟨t.endLsn, pre.length⟩) os fun _ => ⟨t.endLsn, t.changes.length⟩ := by
  induction cs generalizing pre h with
  | nil =>
    rw [append_nil] at hsplit
    subst hsplit
    exact ⟨[], h, hhigh, rfl, .nil _⟩
  | cons c cs ih =>
    have hc : t.changes[pre.length]? = some c := by
      rw [hsplit, getElem?_append_right le_rfl]
      simp
    have hcmem : c ∈ t.changes := by simp [hsplit]
    have hends := (S.st.ends t ht.mem).2 c hcmem
    obtain ⟨os, h', hh', hrows, hchain⟩ := ih (pre ++ [c])
      (by simpa using hsplit) (h := max h c.1) (max_le hhigh hends)
    rw [length_append, length_singleton] at hrows hchain
    refine ⟨((S.cfg.lanesFor c.2).map fun lane => ⟨lane,
      ⟨t.endLsn, pre.length + 1⟩, prev, c.2.cols, c.2.len⟩) ++ os, h', hh',
      ?_, ?_⟩
    · rw [map_cons, readRows_cons (by rfl)]
      simp only [Option.elim_some]
      rw [hrows]
    · -- the lanes of the change's table
      refine Chain.append (chain_row ((nodup_finRange n).filter _)
        (fun i => ?_) ?_ (fun i p hdue hlt => ?_) ?_ ?_ (fun hC _ => ?_)
        fun i hi hsum => ?_) hchain
      · unfold Config.lanesFor
        simp only [mem_filter, mem_finRange, true_and]
        constructor
        · intro htakes
          refine ⟨t, ht.mem, rfl, ?_⟩
          rw [if_neg fun hsum => by simp [Mapping.takes, hsum] at htakes]
          exact ⟨pre.length, c, hc, htakes, rfl⟩
        · intro hdue
          have hcount := S.st.counted t ht.mem
          have hlen := (List.getElem?_eq_some_iff.1 hc).1
          rcases hdue.cases ht.mem rfl with ⟨-, -, hseq⟩ | ⟨-, k, c', hk, htakes, hseq, -⟩
          · dsimp only at hseq
            omega
          obtain rfl := Nat.succ.inj hseq
          cases hc.symm.trans hk
          exact htakes
      · exact .inr ⟨rfl, Nat.lt_succ_self _⟩
      · rw [Pos.lt_iff] at hlt
        rcases hlt with hlt | ⟨heq, hlt⟩
        · exact .inl hlt
        · exact .inr ⟨heq, Nat.lt_succ_iff.1 hlt⟩
      · exact (HoldOk.at_end hprev).raise fun _ => .inl ht.past
      · rw [hprev]
        exact ht.past
      · exact (hread hC).changes t ht.mem c hcmem
      · have htakes := (mem_filter.1 hi).2
        simp [Mapping.takes, hsum] at htakes

/-- A transaction's rows: all that is due of it is offered in order, and
the reader is past it. -/
theorem read_tx (ht : Next S.st e t) (hprev : r.lastEnd.getD S.slot = e)
    (hhigh : ∀ h, r.high = some h → h ≤ t.endLsn) (hread : S.clean → S.cfg.Readable S.st) :
    ∃ os, readRows S.cfg r t.rows = (os, .ok ⟨some t.endLsn, some t.endLsn, none⟩) ∧
      Chain S (fun _ => ⟨e, summarySeq⟩) os fun _ => ⟨t.endLsn, summarySeq⟩ := by
  have hbegin := (S.st.ends t ht.mem).1
  have hcount := S.st.counted t ht.mem
  have hfirst : r.high.elim t.beginLsn (fun h => max h t.beginLsn) ≤ t.endLsn := by
    cases hh : r.high with
    | none => exact hbegin
    | some h => exact max_le (hhigh h hh) hbegin
  obtain ⟨os, h', hh', hrows, hchain⟩ := read_changes ht hprev hread t.changes [] rfl hfirst
  have hmax : max h' t.endLsn = t.endLsn := max_eq_right hh'
  -- nothing is due between the transactions
  have hopen : Chain S (fun _ => ⟨e, summarySeq⟩) [] fun _ => ⟨t.endLsn, 0⟩ := by
    refine .raise (fun _ => .inl ht.past) (fun i p hdue hle => ?_) (.nil _)
    refine ht.due_le hdue ?_
    have := hdue.seq
    rw [Pos.le_iff] at hle
    dsimp only at hle
    omega
  -- past the changes only the summary is due
  have hlast : ∀ i p, Due S.cfg S.st i p → p < ⟨t.endLsn, summarySeq⟩ →
      p ≤ ⟨t.endLsn, t.changes.length⟩ := by
    intro i p hdue hlt
    rw [Pos.lt_iff] at hlt
    rcases hlt with hlt | ⟨heq, hlt⟩
    · exact .inl hlt
    dsimp only at heq hlt
    rcases hdue.cases ht.mem heq with ⟨-, -, hseq⟩ | ⟨-, k, -, -, -, hseq, hk⟩
    · omega
    · exact .inr ⟨heq, hseq.trans_le hk⟩
  have hclose : ∃ os', readRows S.cfg ⟨some h', r.lastEnd,
        some ⟨t.endLsn, r.lastEnd, t.changes.length, t.changes.length⟩⟩
        [⟨t.endLsn, .commit⟩] = (os', .ok ⟨some t.endLsn, some t.endLsn, none⟩) ∧
      Chain S (fun _ => ⟨t.endLsn, t.changes.length⟩) os' fun _ => ⟨t.endLsn, summarySeq⟩ := by
    by_cases hempty : t.changes = []
    · refine ⟨[], ?_, .raise (fun _ => ?_) (fun i p hdue hle => ?_) (.nil _)⟩
      · simp [readRows, Reader.read, hempty, hmax]
      · exact .inr ⟨rfl, hcount.le⟩
      rcases hle.lt_or_eq with hlt | rfl
      · exact hlast i p hdue hlt
      rcases hdue.cases ht.mem rfl with ⟨-, hne, -⟩ | ⟨-, k, c, hk, -⟩
      · exact absurd hempty hne
      · simp [hempty] at hk
    · have hpos : 0 < t.changes.length := length_pos_iff.2 hempty
      refine ⟨_, by simp only [readRows, Reader.read, hpos, if_true,
        Option.elim_some, hmax, append_nil]; rfl, ?_⟩
      refine chain_row ((nodup_finRange n).filter _) (fun i => ?_)
        (.inr ⟨rfl, hcount⟩) hlast ?_ ?_ (fun hC _ => (hread hC).summary)
        fun i hi hsum j p htable hdue hle => ?_
      · rw [mem_summaryLanes]
        constructor
        · intro hsum
          refine ⟨t, ht.mem, rfl, ?_⟩
          rw [if_pos hsum]
          exact ⟨hempty, rfl⟩
        · intro hdue
          rcases hdue.cases ht.mem rfl with ⟨hsum, -⟩ | ⟨-, k, -, -, -, hseq, hk⟩
          · exact hsum
          · dsimp only at hseq
            omega
      · exact (HoldOk.at_end hprev).raise fun _ => .inl ht.past
      · rw [hprev]
        exact ht.past
      · -- a change of this transaction or an earlier one
        rcases lt_or_eq_of_le hle with hlt | heq
        · exact .inl hlt
        rcases hdue.cases ht.mem heq with ⟨hsum', -⟩ | ⟨-, k, -, -, -, hseq, hk⟩
        · exact absurd (htable.symm.trans hsum') nofun
        · exact .inr ⟨heq, hseq.trans_le hk⟩
  obtain ⟨os', hcommit, hchain'⟩ := hclose
  refine ⟨os ++ os', ?_, ?_⟩
  · have hbody := readRows_append hrows [⟨t.endLsn, .commit⟩]
    rw [hcommit] at hbody
    unfold readRows
    simp only [Reader.read]
    exact Prod.ext (congrArg Prod.fst hbody) (congrArg Prod.snd hbody)
  · have := hopen.append (hchain.append hchain')
    simpa using this

-- ==== a peek

/-- Past the first of the transactions past an LSN are the others. -/
theorem filter_past (h : st.txs.filter (fun x => e < x.endLsn) = t :: txs) :
    Next st e t ∧ st.txs.filter (fun x => t.endLsn < x.endLsn) = txs := by
  have hmem := mem_filter.1 (h ▸ mem_cons_self : t ∈ st.txs.filter fun x => e < x.endLsn)
  have hpast : e < t.endLsn := by simpa using hmem.2
  have hsorted : (t :: txs).Pairwise fun a b => a.endLsn < b.endLsn := h ▸ st.ordered.filter _
  have hlater := (pairwise_cons.1 hsorted).1
  refine ⟨⟨hmem.1, hpast, fun x hx hgt => ?_⟩, ?_⟩
  · have hin : x ∈ t :: txs := h ▸ mem_filter.2 ⟨hx, by simpa using hgt⟩
    rcases mem_cons.1 hin with rfl | hin
    · exact le_rfl
    · exact (hlater x hin).le
  · have htwice : st.txs.filter (fun x => t.endLsn < x.endLsn) =
        (st.txs.filter fun x => e < x.endLsn).filter fun x => t.endLsn < x.endLsn := by
      rw [filter_filter]
      apply filter_congr
      intro x _
      by_cases hx : t.endLsn < x.endLsn
      · simp [hx, hpast.trans hx]
      · simp [hx]
    rw [htwice, h, filter_cons, if_neg (by simp)]
    exact filter_eq_self.2 fun x hx => by simpa using hlater x hx

/-- Where transactions read from an LSN leave off. -/
def endOf (e : ℕ) (txs : List Tx) : ℕ := txs.foldl (fun _ t => t.endLsn) e

theorem read_txs (htxs : txs <+: S.st.txs.filter fun x => e < x.endLsn)
    (hprev : r.lastEnd.getD S.slot = e) (hhigh : ∀ h, r.high = some h → h ≤ e)
    (hread : S.clean → S.cfg.Readable S.st) :
    ∃ os r', readRows S.cfg r (txs.flatMap Tx.rows) = (os, .ok r') ∧
      Chain S (fun _ => ⟨e, summarySeq⟩) os (fun _ => ⟨endOf e txs, summarySeq⟩) ∧
      (txs = [] ∧ r' = r ∨ r'.high = some (endOf e txs)) := by
  induction txs generalizing e r with
  | nil => exact ⟨[], r, rfl, .nil _, .inl ⟨rfl, rfl⟩⟩
  | cons t txs ih =>
    obtain ⟨more, hmore⟩ := htxs
    obtain ⟨hnext, hrest⟩ := filter_past (hmore.symm : _ = t :: (txs ++ more))
    obtain ⟨os, hrows, hchain⟩ := read_tx hnext hprev
      (fun h hh => (hhigh h hh).trans hnext.past.le) hread
    obtain ⟨os', r', hrows', hchain', hr'⟩ := ih
      (r := ⟨some t.endLsn, some t.endLsn, none⟩) (e := t.endLsn)
      ⟨more, hrest.symm⟩ rfl (fun h hh => (Option.some.inj hh).ge)
    refine ⟨os ++ os', r', ?_, hchain.append hchain', .inr ?_⟩
    · rw [flatMap_cons, readRows_append hrows, hrows']
    · rcases hr' with ⟨rfl, rfl⟩ | hr'
      · rfl
      · exact hr'

/-- A peek from the slot. -/
theorem read_peek (S : Setting n) (k : ℕ) (hread : S.clean → S.cfg.Readable S.st) :
    ∃ os r', readRows S.cfg {} ((S.st.peek S.slot k).flatMap Tx.rows) = (os, .ok r') ∧
      Chain S (fun _ => ⟨S.slot, summarySeq⟩) os
        (fun _ => ⟨endOf S.slot (S.st.peek S.slot k), summarySeq⟩) ∧
      (S.st.peek S.slot k = [] ∧ r' = {} ∨ r'.high = some (endOf S.slot (S.st.peek S.slot k))) := by
  apply read_txs
  · exact take_prefix k _
  · rfl
  · exact nofun
  · exact hread

/-- Rows cut short offer a part of what they would. -/
theorem readRows_take (cfg : Config n) (r : Reader) (rows : List Row) (k : ℕ) :
    (readRows cfg r (rows.take k)).1 <+: (readRows cfg r rows).1 := by
  induction rows generalizing r k with
  | nil => rw [take_nil]
  | cons row rows ih =>
    cases k with
    | zero => exact nil_prefix
    | succ k =>
      rw [take_succ_cons]
      cases hread : r.read cfg row with
      | error err =>
        rw [readRows, readRows, hread]
      | ok out =>
        obtain ⟨r', os⟩ := out
        rw [readRows_cons hread, readRows_cons hread]
        exact (prefix_append_right_inj os).2 (ih r' k)

end Kafgres.Cdc
