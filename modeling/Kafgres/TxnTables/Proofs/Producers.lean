/-
Calls on `kafgres_producers`, row by row.
-/
import Kafgres.Lib.Run
import Kafgres.TxnTables.Producers

namespace Kafgres.TxnTables

open Function Option

namespace Producers

variable {ps ps' ps'' : Producers} {p p' : Producer} {id : String} {q pid : ℤ} {r : Option Retired}

-- ==== lookups

theorem ofId_eq_some : ps.ofId q = some p ↔ p ∈ ps.rows.rows ∧ p.producerId = q :=
  Table.find?_eq_some

theorem ofTxn_eq_some :
    ps.ofTxn id = some p ↔ ps.ofId p.producerId = some p ∧ p.transactionalId = some id := by
  rw [ofId_eq_some]
  constructor
  · intro h
    have hid := List.find?_some h
    exact ⟨⟨List.mem_of_find?_eq_some h, rfl⟩, of_decide_eq_true hid⟩
  rintro ⟨⟨hp, -⟩, hid⟩
  cases hf : ps.ofTxn id with
  | none => exact absurd hid (free_of_ofTxn hf p hp (by simp))
  | some r =>
    have hr := List.mem_of_find?_eq_some hf
    have hrid := List.find?_some hf
    rw [decide_eq_true_eq] at hrid
    rw [ps.unique p hp r hr (hid.trans hrid.symm) (by simp [hid])]

theorem ofId_id (h : ps.ofId q = some p) : p.producerId = q := (ofId_eq_some.1 h).2

theorem lt_next (h : ps.ofId q = some p) : q < ps.next := by
  obtain ⟨hp, rfl⟩ := ofId_eq_some.1 h
  exact ps.below p hp

/-- A transactional id has one row. -/
theorem owner_unique (h : ps.ofId q = some p) (h' : ps.ofId pid = some p')
    (hid : p.transactionalId = some id)
    (hid' : p'.transactionalId = some id) : q = pid ∧ p = p' := by
  obtain ⟨hp, rfl⟩ := ofId_eq_some.1 h
  obtain ⟨hp', rfl⟩ := ofId_eq_some.1 h'
  have := ps.unique p hp p' hp' (hid.trans hid'.symm) (by simp [hid])
  exact ⟨congrArg _ this, this⟩

theorem ofTxn_of_ofId (h : ps.ofId q = some p)
    (hid : p.transactionalId = some id) : ps.ofTxn id = some p := by
  rw [ofTxn_eq_some, ofId_id h]
  exact ⟨h, hid⟩

-- ==== statements

theorem ofId_set {e : Epoch} (h : ps.ofId pid = some p) :
    (ps.set pid e r).ofId = update ps.ofId pid
      (some { p with epoch := e, retired := r }) := by
  funext q
  unfold set ofId
  rw [Table.find?_updateWhere]
  rcases eq_or_ne q pid with rfl | hq
  · rw [update_self]
    show (ps.ofId q).map _ = _
    rw [h, map_some, if_pos (decide_eq_true (ofId_id h))]
  rw [update_of_ne hq]
  show (ps.ofId q).map _ = ps.ofId q
  cases hf : ps.ofId q with
  | none => rfl
  | some r =>
    have hne : r.producerId ≠ pid := ofId_id hf ▸ hq
    rw [map_some, if_neg (by simpa using hne)]

theorem ofId_insert {txn : Option String}
    {free : ∀ r ∈ ps.rows.rows, txn ≠ none → r.transactionalId ≠ txn} :
    (ps.insert txn r free).ofId = update ps.ofId ps.next
      (some ⟨ps.next, .zero, txn, r⟩) := by
  funext q
  unfold insert ofId
  rw [Table.find?_insert]
  by_cases hq : q = ps.next
  · rw [if_pos hq, hq, update_self]
  · rw [if_neg hq, update_of_ne hq]

theorem ofId_remove {gone : Producer → Bool} :
    (ps.remove gone).ofId q = (ps.ofId q).filter fun p => !gone p :=
  Table.find?_delete ..

theorem ofId_removeOne :
    (ps.remove fun r => r.producerId = pid).ofId = update ps.ofId pid none := by
  funext q
  rw [ofId_remove]
  rcases eq_or_ne q pid with rfl | hq
  · rw [update_self]
    cases hf : ps.ofId q with
    | none => rfl
    | some r => simp [ofId_id hf]
  · rw [update_of_ne hq]
    cases hf : ps.ofId q with
    | none => rfl
    | some r =>
      have hne : r.producerId ≠ pid := ofId_id hf ▸ hq
      simp [hne]

end Producers

theorem Epoch.next_eq_some {e e' : Epoch} : e.next = some e' ↔ e'.1 = e.1 + 1 := by
  unfold Epoch.next
  split
  next => rw [some_inj, Subtype.ext_iff]; exact eq_comm
  next h =>
  refine ⟨nofun, fun he => absurd e'.2.2 ?_⟩
  rw [he]
  omega

namespace Producers

variable {ps ps' ps'' : Producers} {p p' : Producer} {id : String}
  {q pid e : ℤ} {committed : Bool} {c : Call}

-- ==== calls

/-- `init_producer_id` writes one row of the id: the next epoch of the
one it had, or a fresh one. -/
theorem initProducerId_cases (h : ps.initProducerId id = some (ps', pid, e)) :
    ∃ p', ps'.ofId = update ps.ofId pid (some p') ∧ p'.producerId = pid ∧ p'.epoch.1 = e ∧
      p'.transactionalId = some id ∧ p'.retired = none ∧
      ps'.next = ps.next + 1 ∧
      ((∃ p, ps.ofTxn id = some p ∧ p.producerId = pid ∧ e = p.epoch.1 + 1) ∨
        ps.ofTxn id = none ∧ pid = ps.next ∧ e = 0) := by
  unfold initProducerId at h
  split at h
  next p hp =>
    obtain ⟨e', he', heq⟩ := map_eq_some_iff.1 h
    cases heq
    obtain ⟨hrow, hid⟩ := ofTxn_eq_some.1 hp
    exact ⟨{ p with epoch := e', retired := none }, ofId_set hrow, rfl, rfl, hid, rfl, rfl,
      .inl ⟨p, hp, rfl, Epoch.next_eq_some.1 he'⟩⟩
  next hnone =>
    cases h
    exact ⟨_, ofId_insert, rfl, rfl, rfl, rfl, rfl, .inr ⟨hnone, rfl, rfl⟩⟩

/-- `bump_epoch_for_next_txn` of a row there is: the next epoch, or a
fresh row in its place. -/
theorem rotate_cases (committed : Bool) (h : ps.ofId pid = some p) :
    (∃ e', (ps.rotate pid committed).2 = (pid, e'.1) ∧ e'.1 = p.epoch.1 + 1 ∧
      (ps.rotate pid committed).1.ofId = update ps.ofId pid (some { p with
          epoch := e'
          retired := some ⟨pid, p.epoch.1, committed⟩ }) ∧
      (ps.rotate pid committed).1.next = ps.next) ∨
    ((ps.rotate pid committed).2 = (ps.next, 0) ∧ (ps.rotate pid committed).1.ofId =
        update (update ps.ofId pid none) ps.next
          (some ⟨ps.next, .zero, p.transactionalId, some ⟨pid, p.epoch.1, committed⟩⟩) ∧
      (ps.rotate pid committed).1.next = ps.next + 1) := by
  unfold rotate
  split
  next hnone =>
    simp [h] at hnone
  next p₀ hp₀ =>
  cases h.symm.trans hp₀
  split
  next => exact .inl ⟨_, rfl, rfl, ofId_set h, rfl⟩
  next =>
  refine .inr ⟨rfl, ?_, rfl⟩
  rw [ofId_insert, ofId_removeOne]
  rfl

theorem rotate_none (h : ps.ofId pid = none) : ps.rotate pid committed = (ps, pid, -1) := by
  unfold rotate
  split
  next => rfl
  next p₀ hp₀ =>
    simp [h] at hp₀

/-- `fence` of a row, if there is one. -/
theorem fence_cases (h : ps.fence pid = some ps') :
    (ps.ofId pid = none ∧ ps' = ps) ∨
    ∃ p e', ps.ofId pid = some p ∧ e'.1 = p.epoch.1 + 1 ∧ ps'.ofId = update ps.ofId pid
        (some { p with epoch := e', retired := none }) ∧
      ps'.next = ps.next := by
  unfold fence at h
  split at h
  next hnone =>
    cases h
    exact .inl ⟨hnone, rfl⟩
  next p hp =>
  obtain ⟨e', he', rfl⟩ := map_eq_some_iff.1 h
  exact .inr ⟨p, e', hp, Epoch.next_eq_some.1 he', ofId_set hp, rfl⟩

/-- Rows keep their owner, epochs do not fall, and ids below the sequence
are not given out again. -/
structure Later (ps ps' : Producers) : Prop where
  next : ps.next ≤ ps'.next
  rows : ∀ q p', ps'.ofId q = some p' → ps.next ≤ q ∨
    ∃ p, ps.ofId q = some p ∧ p.transactionalId = p'.transactionalId ∧ p.epoch.1 ≤ p'.epoch.1

theorem Later.refl (ps : Producers) : Later ps ps :=
  ⟨le_rfl, fun _ p' h => .inr ⟨p', h, rfl, le_rfl⟩⟩

theorem Later.trans (h : Later ps ps') (h' : Later ps' ps'') : Later ps ps'' := by
  refine ⟨h.next.trans h'.next, fun q p'' hq => ?_⟩
  rcases h'.rows q p'' hq with hnew | ⟨p', hp', howner', hle'⟩
  · exact .inl (h.next.trans hnew)
  · rcases h.rows q p' hp' with hnew | ⟨p, hp, howner, hle⟩
    · exact .inl hnew
    · exact .inr ⟨p, hp, howner.trans howner', hle.trans hle'⟩

theorem Later.skip : Later ps ps.skip :=
  ⟨(Int.lt_succ _).le, fun _ p' h => .inr ⟨p', h, rfl, le_rfl⟩⟩

/-- A row is written over one with its owner and no greater epoch. -/
theorem Later.put (hrow : ps'.ofId = update ps.ofId pid (some p'))
    (hnext : ps.next ≤ ps'.next) (hpid : ps.next ≤ pid ∨ ∃ p, ps.ofId pid = some p ∧
      p.transactionalId = p'.transactionalId ∧ p.epoch.1 ≤ p'.epoch.1) : Later ps ps' := by
  refine ⟨hnext, fun q r hr => ?_⟩
  rw [hrow] at hr
  rcases eq_or_ne q pid with rfl | hq
  · rw [update_self, some_inj] at hr
    exact hr ▸ hpid
  · rw [update_of_ne hq] at hr
    exact .inr ⟨r, hr, rfl, le_rfl⟩

theorem Later.remove {gone : Producer → Bool} : Later ps (ps.remove gone) := by
  refine ⟨le_rfl, fun q r hr => .inr ⟨r, ?_, rfl, le_rfl⟩⟩
  rw [ofId_remove, filter_eq_some_iff] at hr
  exact hr.1

theorem Later.init (h : ps.initProducerId id = some (ps', pid, e)) : Later ps ps' := by
  obtain ⟨p', hrow, hpid, he, hid, -, hnext, hold⟩ := initProducerId_cases h
  apply Later.put hrow
  · omega
  rcases hold with ⟨p, hp, rfl, hnew⟩ | ⟨-, hfresh, -⟩
  · obtain ⟨hp, hid'⟩ := ofTxn_eq_some.1 hp
    exact .inr ⟨p, hp, hid'.trans hid.symm, by omega⟩
  · exact .inl hfresh.ge

theorem Later.rotate : Later ps (ps.rotate pid committed).1 := by
  cases hp : ps.ofId pid with
  | none =>
    rw [rotate_none hp]
    exact .refl ps
  | some p =>
    rcases rotate_cases committed hp with
      ⟨e', -, he', hrow, hnext⟩ | ⟨-, hrow, hnext⟩
    · apply Later.put hrow hnext.ge
      exact .inr ⟨p, hp, rfl, by dsimp only; omega⟩
    -- the row goes and another is put above the sequence
    have hgone : Later ps (ps.remove fun r => r.producerId = pid) := .remove
    rw [← ofId_removeOne] at hrow
    refine hgone.trans (.put hrow ?_ (.inl le_rfl))
    show ps.next ≤ _
    omega

theorem Later.fence (h : ps.fence pid = some ps') : Later ps ps' := by
  rcases fence_cases h with ⟨-, rfl⟩ | ⟨p, e', hp, he', hrow, hnext⟩
  · exact .refl ps'
  · apply Later.put hrow hnext.ge
    exact .inr ⟨p, hp, rfl, by dsimp only; omega⟩

theorem Later.call (h : ps.call c = some ps') : Later ps ps' := by
  cases c with
  | init id =>
    obtain ⟨r, hr, rfl⟩ := map_eq_some_iff.1 h
    exact .init hr
  | rotate pid committed =>
    cases h
    exact .rotate
  | fence pid => exact .fence h
  | allocate =>
    cases h
    exact .put ofId_insert (Int.lt_succ _).le (.inl le_rfl)
  | evict gone =>
    cases h
    exact .remove
  | skip =>
    cases h
    exact .skip

theorem Later.step (c : Call) : Later ps (ps.step c) := by
  unfold Producers.step
  cases h : ps.call c with
  | none => exact .refl ps
  | some ps' => exact .call h

theorem Later.run (cs : List Call) : Later ps (cs.foldl Producers.step ps) := by
  induction cs generalizing ps with
  | nil => exact .refl ps
  | cons c cs ih => exact (Later.step c).trans ih

-- ==== renewal

end Producers

end Kafgres.TxnTables
