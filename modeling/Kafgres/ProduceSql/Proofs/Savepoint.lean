/-
Savepoint isolation: a batch left behind by a rolled-back savepoint
shares its producer id with no batch that is appended after it and
survives.

Generations separate the two. A live batch of the current generation
belongs to a subtransaction no younger than `maxSubid`, so the abort of
its owner bumps the generation; and later live batches belong to younger
subtransactions, so an abort takes with every batch it undoes all live
ones after it.
-/
import Kafgres.Lib.Run
import Kafgres.ProduceSql.Session
import Mathlib.Data.List.Pairwise
import Mathlib.Tactic.IntervalCases

namespace Kafgres.ProduceSql

open Storage List Session

-- ==== producer ids

/-- An xid the tag leaves room for has no bit at or above the tag. -/
theorem getLsbD_of_sshiftRight {xid : Xid} (h : xid.sshiftRight xidBits = 0)
    {i : ℕ} (hi : xidBits ≤ i) : xid.getLsbD i = false := by
  by_cases hlt : i < 64
  · have hb := congrArg (fun v : BitVec 64 => v.getLsbD (i - xidBits)) h
    simp only [BitVec.getLsbD_sshiftRight] at hb
    have h1 : xidBits + (i - xidBits) = i := by omega
    simpa [h1, hlt, show ¬ 64 ≤ i - xidBits by omega] using hb
  · exact BitVec.getLsbD_of_ge _ _ (by omega)

theorem getLsbD_generationFlag (i : ℕ) : generationFlag.getLsbD i = decide (i = 62) := by
  rw [generationFlag, BitVec.getLsbD_shiftLeft, BitVec.getLsbD_one]
  by_cases h : i = 62
  · simp [h]
  · simp [h]
    omega

theorem getLsbD_lowMask (i : ℕ) : ((1#64 <<< xidBits) - 1#64).getLsbD i = decide (i < xidBits) := by
  by_cases h : i < 64
  · have hall : ∀ j : Fin 64, ((1#64 <<< xidBits) - 1#64).getLsbD j = decide (j.val < xidBits) := by
      decide
    exact hall ⟨i, h⟩
  · rw [BitVec.getLsbD_of_ge _ _ (by omega)]
    exact (decide_eq_false (by simp only [xidBits]; omega)).symm

/-- The tag test reads bit 62. -/
theorem and_generationFlag_ne_zero (x : BitVec 64) :
    x &&& generationFlag ≠ 0 ↔ x.getLsbD 62 = true := by
  constructor
  · intro h
    by_contra hx
    refine h (BitVec.eq_of_getLsbD_eq fun i _ => ?_)
    rw [BitVec.getLsbD_and, getLsbD_generationFlag]
    by_cases hi : i = 62
    · simpa [hi] using hx
    · simp [hi]
  · intro h he
    have h62 := congrArg (fun v : BitVec 64 => v.getLsbD 62) he
    simp only [BitVec.getLsbD_and, getLsbD_generationFlag, h] at h62
    cases h62

variable {id : BitVec 64} {xid : BitVec 64} {g : ℕ}

section

variable (hg : g ≠ 0) (h : sqlProducerId xid g = some id)
include hg h

/-- What an assigned id looks like under a nonzero generation. -/
theorem sqlProducerId_tagged :
    xid.sshiftRight xidBits = 0 ∧ g < 2 ^ 22 ∧
    id = generationFlag ||| (BitVec.ofNat 64 g <<< xidBits) ||| xid := by
  simp only [sqlProducerId, if_neg hg] at h
  split at h
  · cases h
  rename_i hfit
  simp only [ne_eq, not_or, not_not, gt_iff_lt, not_lt] at hfit
  refine ⟨hfit.1, ?_, (Option.some.inj h).symm⟩
  have := hfit.2
  simp only [maxGeneration, xidBits] at this
  omega

/-- The generation sits in bits 40 to 61 of a tagged id. -/
theorem generation_of_tagged : id.extractLsb' xidBits 22 = BitVec.ofNat 22 g := by
  obtain ⟨hx, -, rfl⟩ := sqlProducerId_tagged hg h
  refine BitVec.eq_of_getLsbD_eq fun i hi => ?_
  have hxi := getLsbD_of_sshiftRight hx (Nat.le_add_right xidBits i)
  have h62 : ¬ xidBits + i = 62 := by simp only [xidBits]; omega
  have hlt : xidBits + i < 64 := by simp only [xidBits]; omega
  simp only [BitVec.getLsbD_extractLsb', BitVec.getLsbD_or,
    getLsbD_generationFlag, BitVec.getLsbD_shiftLeft, BitVec.getLsbD_ofNat,
    hxi, hi, h62, hlt, decide_true, decide_false, Bool.true_and,
    Bool.false_or, Bool.or_false, Nat.add_sub_cancel_left,
    show i < 64 by omega, show ¬ xidBits + i < xidBits by omega,
    Bool.not_false]

theorem tagged_getLsbD_62 : id.getLsbD 62 = true := by
  obtain ⟨-, -, rfl⟩ := sqlProducerId_tagged hg h
  simp [getLsbD_generationFlag]

end

/-- Different generations of one transaction have different ids. -/
theorem sqlProducerId_inj {g' : ℕ} (h : sqlProducerId xid g = some id)
    (h' : sqlProducerId xid g' = some id) : g = g' := by
  -- An untagged id is the xid, which has no bit 62 if any tag fits it.
  have hmixed : ∀ {g : ℕ}, g ≠ 0 → sqlProducerId xid g = some id → id ≠ xid := by
    intro g hg h he
    have h62 := tagged_getLsbD_62 hg h
    have hx := (sqlProducerId_tagged hg h).1
    rw [he, getLsbD_of_sshiftRight hx (by decide)] at h62
    cases h62
  have hzero : sqlProducerId xid 0 = some xid := by simp [sqlProducerId]
  by_cases hg : g = 0 <;> by_cases hg' : g' = 0
  · rw [hg, hg']
  · subst hg
    rw [hzero] at h
    exact absurd (Option.some.inj h).symm (hmixed hg' h')
  · subst hg'
    rw [hzero] at h'
    exact absurd (Option.some.inj h').symm (hmixed hg h)
  have he := (generation_of_tagged hg h).symm.trans (generation_of_tagged hg' h')
  have hn := congrArg BitVec.toNat he
  have hlt := (sqlProducerId_tagged hg h).2.1
  have hlt' := (sqlProducerId_tagged hg' h').2.1
  rwa [BitVec.toNat_ofNat, BitVec.toNat_ofNat, Nat.mod_eq_of_lt hlt, Nat.mod_eq_of_lt hlt'] at hn

/-- An assigned id names its transaction exactly when the xid leaves the
tag bit alone. -/
theorem xidOfSqlProducerId_iff (h : sqlProducerId xid g = some id) :
    xidOfSqlProducerId id = xid ↔ xid.getLsbD 62 = false := by
  rcases eq_or_ne g 0 with rfl | hg
  · obtain rfl : xid = id := by simpa [sqlProducerId] using h
    rw [xidOfSqlProducerId]
    cases hb : xid.getLsbD 62 with
    | false =>
      have hflag := (and_generationFlag_ne_zero xid).not.2 (hb ▸ by decide)
      rw [if_neg hflag]
      simp
    | true =>
      rw [if_pos ((and_generationFlag_ne_zero _).2 hb)]
      simp only [Bool.true_eq_false, iff_false]
      intro he
      have h62 := congrArg (fun v : BitVec 64 => v.getLsbD 62) he
      simp only [BitVec.getLsbD_and, getLsbD_lowMask, hb] at h62
      cases h62
  · obtain ⟨hx, -, hid⟩ := sqlProducerId_tagged hg h
    have hflag := (and_generationFlag_ne_zero id).2 (tagged_getLsbD_62 hg h)
    rw [xidOfSqlProducerId, if_pos hflag]
    simp only [getLsbD_of_sshiftRight hx (show xidBits ≤ 62 by decide), iff_true]
    refine BitVec.eq_of_getLsbD_eq fun i _ => ?_
    rw [BitVec.getLsbD_and, getLsbD_lowMask, hid]
    by_cases hi : i < xidBits
    · have : i ≠ 62 := by simp only [xidBits] at hi; omega
      simp [getLsbD_generationFlag, hi, this]
    · simp [hi, getLsbD_of_sshiftRight hx (not_lt.1 hi)]

-- ==== the invariant

/-- What every state of a transaction satisfies. -/
structure SessionInv (s : Session) : Prop where
  /-- Subtransaction ids shrink outward. -/
  sorted : s.txn.stack.Pairwise (· > ·)
  nonempty : s.txn.stack ≠ []
  below : ∀ sub ∈ s.txn.stack, sub < s.txn.nextSubid
  /-- Once this transaction entered a produce, the hook is in place. -/
  hooked : s.producing.xid = s.txn.xid →
    s.producing.hooked = true ∧ s.txn.hook = true
  untouched : s.producing.xid ≠ s.txn.xid → s.txn.batches = []
  gen_le : ∀ b ∈ s.txn.batches, b.generation ≤ s.producing.generation
  gen_lt_of_dead : ∀ b ∈ s.txn.batches, b.live = false →
    b.generation < s.producing.generation
  owner_le : ∀ b ∈ s.txn.batches, b.live = true →
    b.generation = s.producing.generation → b.owner ≤ s.producing.maxSubid
  owner_mem : ∀ b ∈ s.txn.batches, b.live = true → b.owner ∈ s.txn.stack
  owner_mono : s.txn.batches.Pairwise fun b b' =>
    b.live = true → b'.live = true → b.owner ≤ b'.owner
  isolated : s.txn.batches.Pairwise fun b b' =>
    b.live = false → b'.live = true → b.generation < b'.generation
  ids : ∀ b ∈ s.txn.batches,
    sqlProducerId s.txn.xid b.generation = some b.producerId

variable {s : Session}

/-- A transaction that begins on a backend whose `PRODUCING` is another
transaction's. -/
theorem sessionInv_start {p : Producing} {xid : Xid} (h : p.xid ≠ xid) :
    SessionInv ⟨p, .start xid⟩ where
  sorted := List.pairwise_singleton ..
  nonempty := by simp [Txn.start]
  below := by simp [Txn.start]
  hooked he := absurd he h
  untouched _ := rfl
  gen_le := by simp [Txn.start]
  gen_lt_of_dead := by simp [Txn.start]
  owner_le := by simp [Txn.start]
  owner_mem := by simp [Txn.start]
  owner_mono := .nil
  isolated := .nil
  ids := by simp [Txn.start]

theorem sessionInv_savepoint (h : SessionInv s) : SessionInv s.savepoint := { h with
    sorted := List.pairwise_cons.2 ⟨h.below, h.sorted⟩
    nonempty := List.cons_ne_nil _ _
    below := by
      intro sub hsub
      rcases mem_cons.1 hsub with rfl | hsub
      · exact Nat.lt_succ_self _
      · exact (h.below sub hsub).trans (Nat.lt_succ_self _)
    owner_mem := fun b hb hl => .tail _ (h.owner_mem b hb hl) }

/-- The innermost level is the youngest. -/
theorem owner_le_innermost (h : SessionInv s) {sub : ℕ} {rest : List ℕ}
    (hstack : s.txn.stack = sub :: rest) {b : SqlBatch}
    (hb : b ∈ s.txn.batches) (hl : b.live = true) : b.owner ≤ sub := by
  have hmem := h.owner_mem b hb hl
  have hsorted := h.sorted
  rw [hstack] at hmem hsorted
  rcases mem_cons.1 hmem with he | hmem
  · exact he.le
  · exact ((pairwise_cons.1 hsorted).1 _ hmem).le

theorem sessionInv_releaseInnermost (h : SessionInv s) : SessionInv s.releaseInnermost := by
  rw [releaseInnermost]
  split
  swap
  · exact h
  rename_i sub parent rest hstack
  have hsorted := h.sorted
  rw [hstack] at hsorted
  have hparent : parent ≤ sub := ((pairwise_cons.1 hsorted).1 parent (.head _)).le
  constructor
  case sorted => exact (pairwise_cons.1 hsorted).2
  case nonempty => exact cons_ne_nil _ _
  case below =>
    intro x hx
    exact h.below x (hstack ▸ .tail _ hx)
  case hooked => exact h.hooked
  case untouched => intro hne; simp [h.untouched hne]
  case gen_le =>
    simp only [forall_mem_map]
    intro b hb
    have := h.gen_le b hb
    split <;> exact this
  case gen_lt_of_dead =>
    simp only [forall_mem_map]
    intro b hb
    have := h.gen_lt_of_dead b hb
    split <;> exact this
  case owner_le =>
    simp only [forall_mem_map]
    intro b hb
    have := h.owner_le b hb
    split
    · rename_i ho
      exact fun hl hg => hparent.trans (ho ▸ this hl hg)
    · exact this
  case owner_mem =>
    simp only [forall_mem_map]
    intro b hb
    have := h.owner_mem b hb
    rw [hstack] at this
    split
    · exact fun _ => .head _
    · rename_i ho
      exact fun hl => (mem_cons.1 (this hl)).resolve_left ho
  case owner_mono =>
    refine pairwise_map.2 (h.owner_mono.imp_of_mem ?_)
    intro b b' hb hb' hle
    -- A live owner that is not `sub` is the parent's or further out.
    have hout : ∀ b ∈ s.txn.batches, b.live = true → b.owner ≠ sub → b.owner ≤ parent := by
      intro b hb hl hne
      have hmem := h.owner_mem b hb hl
      rw [hstack] at hmem
      have hmem := (mem_cons.1 hmem).resolve_left hne
      rcases mem_cons.1 hmem with he | hmem
      · exact he.le
      · exact ((pairwise_cons.1 (pairwise_cons.1 hsorted).2).1 _ hmem).le
    by_cases ho : b.owner = sub <;> by_cases ho' : b'.owner = sub
    · simp [ho, ho']
    · simp only [ho, if_true, if_neg ho']
      intro hl hl'
      have := hle hl hl'
      omega
    · simp only [ho', if_true, if_neg ho]
      exact fun hl _ => hout b hb hl ho
    · simpa only [if_neg ho, if_neg ho'] using hle
  case isolated =>
    refine pairwise_map.2 (h.isolated.imp ?_)
    intro b b' hiso
    split <;> split <;> exact hiso
  case ids =>
    simp only [forall_mem_map]
    intro b hb
    have := h.ids b hb
    split <;> exact this

/-- The hook's effect at the abort of the innermost level: no live batch
of that level keeps the generation that comes out. -/
theorem rolledBack_spec (h : SessionInv s) (sub : ℕ) :
    let p := if s.txn.hook then rolledBack s.producing s.txn.xid sub
      else s.producing
    p.xid = s.producing.xid ∧ p.hooked = s.producing.hooked ∧
      s.producing.generation ≤ p.generation ∧
      (∀ b ∈ s.txn.batches, b.live = true → b.owner = sub → b.generation < p.generation) ∧
      (∀ b ∈ s.txn.batches, b.live = true → b.generation = p.generation →
        b.owner ≤ p.maxSubid) := by
  intro p
  by_cases hx : s.producing.xid = s.txn.xid
  swap
  · -- Nothing produced yet: no batches, and the hook, if any, passes.
    have hp : p = s.producing := by
      simp only [p, rolledBack, hx, false_and, if_false, ite_self]
    simp [hp, h.untouched hx]
  have hhook := (h.hooked hx).2
  by_cases hm : s.producing.maxSubid ≥ sub
  · have hp : p = { s.producing with
        generation := s.producing.generation + 1, maxSubid := 0 } := by
      simp [p, hhook, rolledBack, hx, hm]
    rw [hp]
    refine ⟨rfl, rfl, Nat.le_succ _, fun b hb _ _ => ?_, fun b hb _ hg => ?_⟩
    · exact Nat.lt_succ_of_le (h.gen_le b hb)
    · have := h.gen_le b hb
      simp only at hg
      omega
  · have hp : p = s.producing := by
      simp [p, hhook, rolledBack, hm]
    rw [hp]
    refine ⟨rfl, rfl, le_rfl, fun b hb hl ho => ?_, h.owner_le⟩
    -- A batch of the current generation would have raised the watermark.
    rcases (h.gen_le b hb).lt_or_eq with hlt | he
    · exact hlt
    · have := h.owner_le b hb hl he
      omega

theorem sessionInv_abortInnermost (h : SessionInv s) : SessionInv s.abortInnermost := by
  rw [abortInnermost]
  split
  swap
  · exact h
  rename_i sub parent rest hstack
  have hsorted := h.sorted
  rw [hstack] at hsorted
  obtain ⟨hxid, hhooked, hgen, hdead, howner⟩ := rolledBack_spec h sub
  constructor
  case sorted => exact (pairwise_cons.1 hsorted).2
  case nonempty => exact cons_ne_nil _ _
  case below =>
    intro x hx
    exact h.below x (hstack ▸ .tail _ hx)
  case hooked =>
    rw [hxid, hhooked]
    exact h.hooked
  case untouched =>
    rw [hxid]
    intro hne
    simp [h.untouched hne]
  case gen_le =>
    simp only [forall_mem_map]
    intro b hb
    have := (h.gen_le b hb).trans hgen
    split <;> exact this
  case gen_lt_of_dead =>
    simp only [forall_mem_map]
    intro b hb
    have hold := h.gen_lt_of_dead b hb
    split
    · rename_i ho
      intro _
      cases hl : b.live with
      | false => exact (hold hl).trans_le hgen
      | true => exact hdead b hb hl ho
    · exact fun hl => (hold hl).trans_le hgen
  case owner_le =>
    simp only [forall_mem_map]
    intro b hb
    split
    · simp
    · exact howner b hb
  case owner_mem =>
    simp only [forall_mem_map]
    intro b hb
    have := h.owner_mem b hb
    rw [hstack] at this
    split
    · simp
    · rename_i ho
      exact fun hl => (mem_cons.1 (this hl)).resolve_left ho
  case owner_mono =>
    refine pairwise_map.2 (h.owner_mono.imp ?_)
    intro b b' hle
    split <;> split <;> simp_all
  case isolated =>
    have hboth := h.isolated.and h.owner_mono
    refine pairwise_map.2 (hboth.imp_of_mem ?_)
    rintro b b' hb hb' ⟨hiso, hle⟩
    by_cases ho' : b'.owner = sub
    · simp [ho']
    by_cases ho : b.owner = sub
    · simp only [ho, if_true, if_neg ho']
      intro _ hl'
      cases hl : b.live with
      | false => exact hiso hl hl'
      | true =>
        -- Undone just now: what is live after it goes with it.
        have := hle hl hl'
        have := owner_le_innermost h hstack hb' hl'
        omega
    · simpa only [if_neg ho, if_neg ho'] using hiso
  case ids =>
    simp only [forall_mem_map]
    intro b hb
    have := h.ids b hb
    split <;> exact this

/-- A loop over levels keeps what one level keeps. -/
theorem sessionInv_iterate {f : Session → Session}
    (hf : ∀ s, SessionInv s → SessionInv (f s)) (n : ℕ)
    (h : SessionInv s) : SessionInv (f^[n] s) := by
  induction n generalizing s with
  | zero => exact h
  | succ n ih => exact ih (hf s h)

/-- `enter_produce` keeps the invariant, and leaves the hook armed and
the watermark at or above the current level. -/
theorem sessionInv_enter (h : SessionInv s) (k : Key) :
    let e := enterProduce s.producing s.txn.xid s.txn.subid k
    SessionInv ⟨e.producing, { s.txn with hook := s.txn.hook || e.hook }⟩ ∧
      e.producing.xid = s.txn.xid ∧ s.txn.subid ≤ e.producing.maxSubid ∧
      e.id = sqlProducerId s.txn.xid e.producing.generation := by
  intro e
  by_cases hx : s.producing.xid = s.txn.xid
  · have he : e.producing = { s.producing with
        maxSubid := max s.producing.maxSubid s.txn.subid
        hooked := true } := by
      simp [e, enterProduce, hx]
    obtain ⟨-, hhook⟩ := h.hooked hx
    refine ⟨?_, by simp [he, hx], by simp [he], by
      simp [e, enterProduce, hx]⟩
    rw [he]
    exact { h with
        hooked := fun _ => ⟨rfl, by simp [hhook]⟩
        owner_le := fun b hb hl hg =>
          (h.owner_le b hb hl hg).trans (le_max_left ..) }
  · -- The first produce of the transaction: no batch to account for.
    have he : e.producing = ⟨s.txn.xid, ∅, 0, s.txn.subid, true⟩ := by
      simp [e, enterProduce, hx]
    have hnil := h.untouched hx
    refine ⟨?_, by simp [he], by simp [he], by simp [e, enterProduce, hx]⟩
    rw [he]
    exact { h with
        hooked := fun _ => ⟨rfl, by simp [e, enterProduce, hx]⟩
        untouched := fun _ => hnil
        gen_le := by simp [hnil]
        gen_lt_of_dead := by simp [hnil]
        owner_le := by simp [hnil] }

/-- Recording an append made under the current generation by the
innermost level. -/
theorem sessionInv_append (h : SessionInv s) (hx : s.producing.xid = s.txn.xid)
    (hm : s.txn.subid ≤ s.producing.maxSubid)
    (hid : sqlProducerId s.txn.xid s.producing.generation = some id)
    (reserved : Finset Key) (callbacks : List (Key × ℤ)) (k : Key) (base : ℤ) :
    SessionInv ⟨{ s.producing with reserved := reserved }, { s.txn with
        callbacks := callbacks
        batches := s.txn.batches ++
          [⟨k, base, id, s.producing.generation, s.txn.subid, true⟩] }⟩ := by
  have htop : s.txn.subid ∈ s.txn.stack := by
    obtain ⟨sub, rest, hstack⟩ := exists_cons_of_ne_nil h.nonempty
    simp [Txn.subid, hstack]
  have hmono : ∀ b ∈ s.txn.batches, b.live = true → b.owner ≤ s.txn.subid := by
    intro b hb hl
    obtain ⟨sub, rest, hstack⟩ := exists_cons_of_ne_nil h.nonempty
    simpa [Txn.subid, hstack] using owner_le_innermost h hstack hb hl
  exact {
    sorted := h.sorted
    nonempty := h.nonempty
    below := h.below
    hooked := h.hooked
    untouched := fun hne => absurd hx hne
    gen_le := forall_mem_append.2 ⟨h.gen_le, forall_mem_singleton.2 le_rfl⟩
    gen_lt_of_dead := forall_mem_append.2 ⟨h.gen_lt_of_dead, by simp⟩
    owner_le := forall_mem_append.2 ⟨h.owner_le, forall_mem_singleton.2 fun _ _ => hm⟩
    owner_mem := forall_mem_append.2 ⟨h.owner_mem, forall_mem_singleton.2 fun _ => htop⟩
    owner_mono := pairwise_append.2 ⟨h.owner_mono, by simp, fun b hb =>
      forall_mem_singleton.2 fun hl _ => hmono b hb hl⟩
    isolated := pairwise_append.2 ⟨h.isolated, by simp, fun b hb =>
      forall_mem_singleton.2 fun hl _ => h.gen_lt_of_dead b hb hl⟩
    ids := forall_mem_append.2 ⟨h.ids, forall_mem_singleton.2 hid⟩ }

theorem sessionInv_produce (h : SessionInv s) (k : Key)
    (append : Option ℤ) : SessionInv (s.produce k append) := by
  obtain ⟨hinv, hx, hm, hid⟩ := sessionInv_enter h k
  simp only [produce]
  split
  · rename_i id base he
    have := sessionInv_append hinv hx hm (hid.symm.trans he)
    split <;> exact this _ _ k base
  · exact hinv

theorem sessionInv_step (h : SessionInv s) (op : SqlOp) : SessionInv (s.step op) := by
  cases op with
  | savepoint => exact sessionInv_savepoint h
  | release sub =>
    exact sessionInv_iterate (fun _ => sessionInv_releaseInnermost) _ h
  | rollback sub =>
    exact sessionInv_iterate (fun _ => sessionInv_abortInnermost) _ h
  | produce k append => exact sessionInv_produce h k append

theorem sessionInv_run (h : SessionInv s) (ops : List SqlOp) :
    SessionInv (ops.foldl step s) :=
  Run.foldl_inv SessionInv (fun _ op hs => sessionInv_step hs op) h ops

-- ==== the results

theorem step_xid (op : SqlOp) : (s.step op).txn.xid = s.txn.xid := by
  have hiter : ∀ (f : Session → Session), (∀ s, (f s).txn.xid = s.txn.xid) → ∀ n s,
      (f^[n] s).txn.xid = s.txn.xid := by
    intro f hf n
    induction n with
    | zero => exact fun _ => rfl
    | succ n ih => exact fun s => (ih (f s)).trans (hf s)
  cases op with
  | savepoint => rfl
  | release sub =>
    refine hiter _ (fun s => ?_) _ s
    rw [releaseInnermost]
    split <;> rfl
  | rollback sub =>
    refine hiter _ (fun s => ?_) _ s
    rw [abortInnermost]
    split <;> rfl
  | produce k append =>
    simp only [step, produce]
    split <;> rfl

theorem run_xid (ops : List SqlOp) : (ops.foldl step s).txn.xid = s.txn.xid := by
  have hstep : ∀ (s' : Session) (op : SqlOp), s'.txn.xid = s.txn.xid →
      (s'.step op).txn.xid = s.txn.xid :=
    fun s' op h => (step_xid op).trans h
  exact Run.foldl_inv _ hstep rfl ops

/-- **Orphan isolation.** In any run of a transaction, a batch undone by
a savepoint shares its producer id with no batch appended after it that
still stands; and every id handed out names the transaction exactly
when the xid leaves bit 62 clear. -/
theorem savepoint_orphans_isolated (p : Producing) (xid : Xid)
    (hfresh : p.xid ≠ xid) (ops : List SqlOp) :
    let t := (ops.foldl Session.step ⟨p, .start xid⟩).txn
    (t.batches.Pairwise fun orphan later =>
      orphan.live = false → later.live = true → orphan.producerId ≠ later.producerId) ∧
    ∀ b ∈ t.batches, xidOfSqlProducerId b.producerId = xid ↔ xid.getLsbD 62 = false := by
  intro t
  have hinv := sessionInv_run (sessionInv_start hfresh) ops
  have hxid : t.xid = xid := run_xid ops
  refine ⟨hinv.isolated.imp_of_mem ?_, fun b hb => ?_⟩
  · intro orphan later ho hl hiso hdead hlive heq
    have hlt := hiso hdead hlive
    have hid := hinv.ids orphan ho
    rw [heq] at hid
    exact hlt.ne (sqlProducerId_inj hid (hinv.ids later hl))
  · have hid := hinv.ids b hb
    rw [show _ = xid from hxid] at hid
    exact xidOfSqlProducerId_iff hid

/-- A savepoint that produced, rolled back, and a produce after it. -/
def orphanRun : List SqlOp := [.savepoint, .produce ⟨1, 0, Key.one_ne_zero⟩ (some 0), .rollback 2,
   .produce ⟨1, 0, Key.one_ne_zero⟩ (some 1)]

theorem savepoint_orphans_isolated_orphanRun :
    ({} : Producing).xid ≠ 7 ∧ let t := (orphanRun.foldl Session.step ⟨{}, .start 7⟩).txn
    t.batches.map SqlBatch.live = [false, true] ∧
    (t.batches.Pairwise fun orphan later =>
      orphan.live = false → later.live = true → orphan.producerId ≠ later.producerId) ∧
    ∀ b ∈ t.batches, xidOfSqlProducerId b.producerId = 7 ↔ (7 : Xid).getLsbD 62 = false :=
  ⟨by decide, by decide +kernel, savepoint_orphans_isolated {} 7 (by decide) orphanRun⟩

/-- An xid that itself has bit 62 is handed out untagged and read back
as a tagged id: the transaction it names is another one. -/
theorem untagged_id_misread :
    let xid : Xid := (1#64 <<< 62) + 3
    let t := ([SqlOp.produce ⟨1, 0, by decide⟩ (some 0)].foldl Session.step ⟨{}, .start xid⟩).txn
    ∃ b ∈ t.batches, b.generation = 0 ∧ xidOfSqlProducerId b.producerId ≠ xid := by
  decide +kernel

end Kafgres.ProduceSql
