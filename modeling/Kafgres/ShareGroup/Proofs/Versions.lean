/-
What one transaction on a share partition keeps to.
-/
import Kafgres.ShareGroup.Sessions
import Kafgres.ShareGroup.Proofs.Delivery

namespace Kafgres.ShareGroup

open List Write CellStore

variable {db old mid new snap : Db} {b c : Backend} {r : Row} {w : Write}
  {k : Key} {o now lock : ℤ} {task : Task} {phase : Phase}

-- ==== versions

/-- What the tables of one time keep to: finished rows name no member,
and no unfinished one is below the start offset. -/
structure Db.Ok (db : Db) : Prop where
  idle : Idle db.rows
  ahead : ∀ o r, db.rows.find? o = some r → r.state = .acquired →
    db.start ≤ o

/-- What later versions keep of earlier ones: the start offset does not
move back, a row goes only when it is passed, and until then what is
finished stays finished. -/
structure Since (old new : Db) : Prop where
  start_le : old.start ≤ new.start
  finished : ∀ o, Finished old.rows o → Finished new.rows o ∨ o < new.start
  there : ∀ o r, old.rows.find? o = some r → new.rows.find? o = none →
    o < new.start

theorem Since.refl (db : Db) : Since db db :=
  ⟨le_rfl, fun _ h => .inl h, fun _ _ hr hn => nomatch hr.symm.trans hn⟩

theorem Since.trans (h : Since old mid) (h' : Since mid new) : Since old new := by
  refine ⟨h.start_le.trans h'.start_le, fun o hf => ?_, fun o r hr hn => ?_⟩
  · rcases h.finished o hf with hf | hlt
    · exact h'.finished o hf
    · exact .inr (lt_of_lt_of_le hlt h'.start_le)
  · cases hm : mid.rows.find? o with
    | none => exact lt_of_lt_of_le (h.there o r hr hm) h'.start_le
    | some r' => exact h'.there o r' hm hn

/-- Where every row is the old one, or has come as a row of other versions
has. -/
theorem Since.of_rows {base : Db} (h : Since base mid) (hmid : mid.start ≤ new.start)
    (hold : old.start ≤ new.start) (hrows : ∀ o, new.rows.find? o = old.rows.find? o ∨
      old.rows.find? o = base.rows.find? o ∧ new.rows.find? o = mid.rows.find? o) :
    Since old new := by
  refine ⟨hold, fun o hf => ?_, fun o r hr hn => ?_⟩
  · unfold Finished at hf ⊢
    rcases hrows o with heq | ⟨hbase, hnew⟩
    · exact .inl (heq ▸ hf)
    rw [hbase] at hf
    rw [hnew]
    exact (h.finished o hf).imp_right hmid.trans_lt'
  · rcases hrows o with heq | ⟨hbase, hnew⟩
    · exact nomatch hr.symm.trans (heq.symm.trans hn)
    · exact (h.there o r (hbase.symm.trans hr) (hnew.symm.trans hn)).trans_le hmid

/-- A row that is finished in one version and unfinished in a later one
would have to lie both before and past the start offset. -/
theorem Since.not_acquired (h : Since old new) (hok : new.Ok)
    (hf : Finished old.rows o) (hr : new.rows.find? o = some r) : r.state ≠ .acquired := by
  intro hs
  rcases h.finished o hf with ⟨r', hr', hs'⟩ | hlt
  · cases hr.symm.trans hr'
    exact hs' hs
  · have := hok.ahead o r hr hs
    omega

-- ==== writes

/-- What a statement may write over the version it sees. -/
inductive Allowed (db : Db) : Write → Prop
  | settle {r r' : Row} (hr : db.rows.find? r'.recordOffset = some r)
      (hs : r.state = .acquired)
      (hidle : r'.state ≠ .acquired → r'.memberId = none) :
      Allowed db (.put r')
  | fresh {r' : Row} (hr : db.rows.find? r'.recordOffset = none)
      (hs : r'.state = .acquired) (hle : db.start ≤ r'.recordOffset) :
      Allowed db (.put r')
  | gone {o : ℤ} (hlt : o < db.start) : Allowed db (.gone o)
  | start {o : ℤ} (hle : db.start ≤ o)
      (hf : ∀ o', db.start ≤ o' → o' < o → Finished db.rows o') :
      Allowed db (.start o)

/-- A row it puts is not below the start offset. -/
theorem Allowed.put_le (hok : db.Ok) (h : Allowed db (.put r)) : db.start ≤ r.recordOffset := by
  cases h with
  | settle hr hs => exact hok.ahead _ _ hr hs
  | fresh _ _ hle => exact hle

theorem Allowed.since (h : Allowed db w) : Since db (w.apply db) := by
  cases w with
  | put r' =>
    refine ⟨le_rfl, fun o hf => ?_, fun o r hr hn => ?_⟩
    · unfold Finished
      rw [find?_apply_put]
      split
      next he =>
        -- the row it overwrites is not a finished one
        subst he
        obtain ⟨r₀, hr₀, hs₀⟩ := hf
        cases h with
        | settle hr hs =>
          cases hr.symm.trans hr₀
          exact absurd hs hs₀
        | fresh hr => simp [hr] at hr₀
      next => exact .inl hf
    · rw [find?_apply_put] at hn
      split at hn
      · cases hn
      · simp [hr] at hn
  | gone o' =>
    cases h with
    | gone hlt =>
      have hpast : ∀ o r, db.rows.find? o = some r →
          (apply db (.gone o')).rows.find? o = some r ∨ o < db.start := by
        intro o r hr
        rw [find?_apply_gone]
        split
        next he => exact .inr (he ▸ hlt)
        next => exact .inl hr
      refine ⟨le_rfl, fun o hf => ?_, fun o r hr hn => ?_⟩
      · obtain ⟨r, hr, hs⟩ := hf
        rcases hpast o r hr with hr' | hlt'
        · exact .inl ⟨r, hr', hs⟩
        · exact .inr hlt'
      · rcases hpast o r hr with hr' | hlt'
        · simp [hr'] at hn
        · exact hlt'
  | start o' =>
    cases h with
    | start hle =>
      refine ⟨hle, fun _ hf => .inl hf, fun _ _ hr hn => ?_⟩
      exact absurd (hr.symm.trans hn) (Option.some_ne_none _)

theorem Allowed.ok (hok : db.Ok) (h : Allowed db w) : (w.apply db).Ok := by
  cases w with
  | put r' =>
    constructor
    · intro o r hr
      rw [find?_apply_put] at hr
      split at hr
      · cases hr
        cases h with
        | settle _ _ hidle => exact hidle
        | fresh _ hs => exact fun hs' => absurd hs hs'
      · exact hok.idle o r hr
    · intro o r hr hs
      rw [find?_apply_put] at hr
      split at hr
      next he =>
        have hle : db.start ≤ r'.recordOffset := h.put_le hok
        exact he.symm ▸ hle
      next => exact hok.ahead o r hr hs
  | gone o' =>
    have hrows : ∀ o r, (apply db (.gone o')).rows.find? o = some r →
        db.rows.find? o = some r := by
      intro o r hr
      rw [find?_apply_gone] at hr
      split at hr
      · cases hr
      · exact hr
    exact ⟨fun o r hr => hok.idle o r (hrows o r hr), fun o r hr => hok.ahead o r (hrows o r hr)⟩
  | start o' =>
    cases h with
    | start hle hf =>
      refine ⟨hok.idle, fun o r hr hs => ?_⟩
      show o' ≤ o
      by_contra hlt
      obtain ⟨r', hr', hs'⟩ := hf o (hok.ahead o r hr hs) (by omega)
      cases (show db.rows.find? o = some r from hr).symm.trans hr'
      exact hs' hs

-- ==== statements

/-- What the write of a statement to a row has to find. -/
def Task.current (task : Task) (snap cur : Db) : Key → Prop
  | .start => cur.start = snap.start
  | .record o =>
    match task with
    | .take .. => cur.start ≤ o
    | _ => True

/-- An UPDATE of a call finds unfinished rows only, and unlocks what it
finishes. -/
theorem Task.update_settles {u : Update} (hu : task.update now lock snap = some u)
    (hidle : r.state ≠ .acquired → r.memberId = none) (hp : u.applies r = true) :
    r.state = .acquired ∧ (u.set r).recordOffset = r.recordOffset ∧
      ((u.set r).state ≠ .acquired → (u.set r).memberId = none) := by
  have hack : ∀ (kind : Ack) member first last, some (kind.update member first last lock) = some u →
      r.state = .acquired ∧ (u.set r).recordOffset = r.recordOffset ∧
        ((u.set r).state ≠ .acquired → (u.set r).memberId = none) := by
    intro kind member first last he
    cases he
    have hs := Ack.applies_acquired hidle hp
    exact ⟨hs, kind.set_recordOffset lock r, kind.set_idle lock hs⟩
  unfold Task.update at hu
  split at hu
  case h_1 | h_2 | h_3 => exact hack _ _ _ _ hu
  next =>
    cases hu
    simp only [Bool.and_eq_true, decide_eq_true_eq] at hp
    exact ⟨hp.2, rfl, fun _ => rfl⟩
  next =>
    cases hu
    simp only [Bool.and_eq_true, decide_eq_true_eq] at hp
    exact ⟨hp.1.1.2, rfl, fun _ => rfl⟩
  next => cases hu

theorem Row.again_idle (r : Row) (member : String) (lock : ℤ) :
    (r.again member lock).state ≠ .acquired → (r.again member lock).memberId = none := by
  unfold Row.again
  split
  · exact fun _ => rfl
  · exact fun h => absurd rfl h

/-- The rows a prune gets to are below the start offset of its
snapshot. -/
theorem Task.mem_targets_prune (h : .record o ∈ Task.targets now lock snap .prune) :
    o < snap.start := by
  unfold Task.targets at h
  cases hoff : snap.offset with
  | none =>
    simp only [hoff] at h
    cases h
  | some start =>
    simp only [hoff] at h
    obtain ⟨r, hr, he⟩ := mem_map.1 h
    cases he
    have hlt := of_decide_eq_true (mem_filter.1 hr).2
    unfold Db.start
    rw [hoff]
    exact hlt

/-- What a statement writes to a row, and over what. -/
inductive Task.Writes (now lock : ℤ) (snap cur : Db) : Task → Key → Write → Prop
  | advance : Task.Writes now lock snap cur .advance .start
      (.start (ShareGroup.advance snap).start)
  | hand {member : String} {first upto : ℤ} {limit : ℕ} {o : ℤ}
      (hr : cur.rows.find? o = none) :
      Task.Writes now lock snap cur (.take member first upto limit)
        (.record o) (.put ⟨o, .acquired, 1, some member, some lock⟩)
  | again {member : String} {first upto : ℤ} {limit : ℕ} {o : ℤ} {r : Row}
      (hr : cur.rows.find? o = some r) (hl : r.lapsed now = true) :
      Task.Writes now lock snap cur (.take member first upto limit)
        (.record o) (.put (r.again member lock))
  | prune {o : ℤ} {r : Row} (hr : cur.rows.find? o = some r) :
      Task.Writes now lock snap cur .prune (.record o) (.gone o)
  | update {task : Task} {u : Update} {o : ℤ} {r : Row}
      (hu : task.update now lock snap = some u)
      (hr : cur.rows.find? o = some r) (hp : u.applies r = true) :
      Task.Writes now lock snap cur task (.record o) (.put (u.set r))

theorem Task.writes_of_write (h : task.write now lock snap db k = some w) :
    Task.Writes now lock snap db task k w := by
  unfold Task.write at h
  split at h
  next =>
    split at h
    next =>
      cases h
      exact .advance
    next => cases h
  next o =>
    split at h
    next =>
      split at h
      next hr =>
        cases h
        exact .hand hr
      next r hr =>
      split at h
      next hl =>
        cases h
        exact .again hr hl
      next => cases h
    next =>
      obtain ⟨r, hr, hw⟩ := Option.map_eq_some_iff.1 h
      cases hw
      exact .prune hr
    next =>
      split at h
      next u r hu hr =>
        split at h
        next hp =>
          cases h
          exact .update hu hr hp
        next => cases h
      next => cases h

theorem Task.Writes.key (hok : db.Ok) (h : Task.Writes now lock snap db task k w) : w.key = k := by
  cases h with
  | advance | hand => rfl
  | @again _ _ _ _ _ r hr =>
    show Key.record (r.again _ lock).recordOffset = _
    rw [r.again_recordOffset, (Table.find?_eq_some.1 hr).2]
  | prune => rfl
  | @update _ u _ r hu hr hp =>
    show Key.record (u.set r).recordOffset = _
    rw [(Task.update_settles hu (hok.idle _ r hr) hp).2.1, (Table.find?_eq_some.1 hr).2]

/-- Every write of a statement that meets the condition is allowed. -/
theorem Task.Writes.allowed (hok : db.Ok) (hsince : Since snap db)
    (hk : k ∈ task.targets now lock snap) (hcur : task.current snap db k)
    (h : Task.Writes now lock snap db task k w) : Allowed db w := by
  have hkey := h.key hok
  cases h with
  | advance =>
    have hstart : db.start = snap.start := hcur
    obtain ⟨hle, hf⟩ := advance_finished snap
    refine .start (hstart ▸ hle) fun o ho hlt => ?_
    rcases hsince.finished o (hf o (hstart ▸ ho) hlt) with hf' | hlt'
    · exact hf'
    · omega
  | hand hr => exact .fresh hr rfl hcur
  | @again _ _ _ _ o r hr hl =>
    have ho : (r.again _ lock).recordOffset = o := Key.record.inj hkey
    exact .settle (ho.symm ▸ hr) (r.lapsed_state hl) (r.again_idle _ lock)
  | prune =>
    have hlt := Task.mem_targets_prune hk
    exact .gone (lt_of_lt_of_le hlt hsince.start_le)
  | @update _ u o r hu hr hp =>
    have ho : (u.set r).recordOffset = o := Key.record.inj hkey
    obtain ⟨hs, -, hidle⟩ := Task.update_settles hu (hok.idle o r hr) hp
    exact .settle (ho.symm ▸ hr) hs hidle

-- ==== backends

theorem Backend.view_find? (h : .record o ∉ b.keys) (db : Db) :
    (b.view db).rows.find? o = db.rows.find? o :=
  read_replay_of_notMem (S := store) h

theorem Backend.view_find?_of_mem (h : .record o ∈ b.keys) (db db' : Db) :
    (b.view db).rows.find? o = (b.view db').rows.find? o :=
  read_replay_of_mem (S := store) h

theorem Backend.view_start (h : .start ∉ b.keys) (db : Db) : (b.view db).start = db.start :=
  congrArg (Option.getD · 0) (read_replay_of_notMem (S := store) h)

theorem Backend.view_start_of_mem (h : .start ∈ b.keys) (db db' : Db) :
    (b.view db).start = (b.view db').start :=
  congrArg (Option.getD · 0) (read_replay_of_mem (S := store) h)

/-- The last version of a row a transaction did not put is the committed
one. -/
theorem Backend.kept_find? (h : .record o ∉ b.keys) (db : Db) :
    (b.kept db).rows.find? o = db.rows.find? o := by
  refine read_replay_of_notMem (S := store) (k := .record o) fun hk => h ?_
  obtain ⟨w, hw, he⟩ := mem_map.1 hk
  exact mem_map.2 ⟨w, (mem_filter.1 hw).1, he⟩

/-- A statement under way is later than its snapshot, and has rows left
that the snapshot gave it. -/
def Phase.Ok (now lock : ℤ) (view : Db) : Phase → Prop
  | .under task snap left _ => Since snap view ∧ ∀ k ∈ left, k ∈ task.targets now lock snap
  | _ => True

/-- What an open transaction keeps to, towards what is committed. -/
structure Backend.Ok (db : Db) (b : Backend) : Prop where
  view : (b.view db).Ok
  since : Since db (b.view db)
  passed : ∀ o, db.start ≤ o → o < (b.view db).start →
    Finished (b.kept db).rows o
  phase : b.phase.Ok b.now b.lock (b.view db)

theorem Phase.Ok.later (h : phase.Ok now lock old)
    (hs : Since old new) : phase.Ok now lock new := by
  cases phase with
  | idle | ready => trivial
  | under task snap left changed => exact ⟨h.1.trans hs, h.2⟩

/-- A row that it sees is also the last version it saw. -/
theorem Backend.kept_of_view (b : Backend) (db : Db) (h : (b.view db).rows.find? o = some r) :
    (b.kept db).rows.find? o = some r := by
  unfold view at h
  unfold kept
  generalize b.log = log at h ⊢
  induction log using reverseRecOn with
  | nil => exact h
  | append_singleton log w ih =>
    rw [store.replay_snoc] at h
    rw [filter_append]
    cases w with
    | put r' =>
      rw [show filter (fun w : Write => !w.deletes) [.put r']
        = [.put r'] from rfl, store.replay_snoc]
      have h' := (find?_apply_put _ r' o).symm.trans h
      refine (find?_apply_put _ r' o).trans ?_
      split at h'
      next he => rw [if_pos he, h']
      next he => rw [if_neg he, ih h']
    | gone o' =>
      rw [show filter (fun w : Write => !w.deletes) [.gone o'] = [] from rfl, append_nil]
      have h' := (find?_apply_gone _ o o').symm.trans h
      split at h'
      · cases h'
      · exact ih h'
    | start o' =>
      rw [show filter (fun w : Write => !w.deletes) [.start o']
        = [.start o'] from rfl, store.replay_snoc]
      exact ih h

/-- The transaction with one more write. -/
def Backend.wrote (b : Backend) (w : Write) (phase : Phase) : Backend :=
  { b with log := b.log ++ [w], phase := phase }

theorem Backend.view_wrote (b : Backend) (w : Write) (phase : Phase)
    (db : Db) : (b.wrote w phase).view db = w.apply (b.view db) :=
  store.replay_snoc db b.log w

theorem Backend.kept_wrote (b : Backend) (w : Write) (phase : Phase)
    (db : Db) :
    (b.wrote w phase).kept db = if w.deletes then b.kept db else w.apply (b.kept db) := by
  unfold kept wrote
  rw [filter_append, filter_singleton]
  cases w with
  | put r => exact store.replay_snoc db _ _
  | gone o =>
    show store.replay db (_ ++ []) = store.replay db _
    rw [append_nil]
  | start o => exact store.replay_snoc db _ _

/-- The step lemma of a write. -/
theorem Backend.Ok.wrote (h : b.Ok db) (hw : Allowed (b.view db) w)
    (hphase : phase.Ok b.now b.lock (w.apply (b.view db))) : (b.wrote w phase).Ok db := by
  have hsince := h.since.trans hw.since
  constructor
  · rw [view_wrote]
    exact hw.ok h.view
  · rw [view_wrote]
    exact hsince
  · intro o hle hlt
    rw [view_wrote] at hlt
    rw [kept_wrote]
    cases w with
    | put r =>
      have hput := hw.put_le h.view
      have hne : o ≠ r.recordOffset := by
        have hlt' : o < (b.view db).start := hlt
        omega
      obtain ⟨r', hr', hs'⟩ := h.passed o hle hlt
      refine ⟨r', ?_, hs'⟩
      exact (find?_apply_put _ r o).trans ((if_neg hne).trans hr')
    | gone o' => exact h.passed o hle hlt
    | start o' =>
      cases hw with
      | start _ hf =>
        by_cases hold : o < (b.view db).start
        · exact h.passed o hle hold
        · obtain ⟨r, hr, hs⟩ := hf o (by omega) hlt
          exact ⟨r, b.kept_of_view db hr, hs⟩
  · rw [view_wrote]
    exact hphase

/-- A record that a transaction has passed without writing it is
finished in what is committed. -/
theorem Backend.Ok.finished_of_passed (h : b.Ok db) (hk : .record o ∉ b.keys) (hle : db.start ≤ o)
    (hlt : o < (b.view db).start) : Finished db.rows o := by
  obtain ⟨r, hr, hs⟩ := h.passed o hle hlt
  rw [b.kept_find? hk] at hr
  exact ⟨r, hr, hs⟩

section rebase

variable (hlocks : ∀ k ∈ b.keys, k ∉ c.keys)
include hlocks

/-- A row that another transaction sees after a commit: its own, over
what was committed before, or the new one. -/
theorem rebase_find? (db : Db) (o : ℤ) :
    (.record o ∉ b.keys ∧
      (c.view (b.view db)).rows.find? o = (c.view db).rows.find? o ∧
      (b.view db).rows.find? o = db.rows.find? o) ∨
    (.record o ∉ c.keys ∧ (c.view (b.view db)).rows.find? o = (b.view db).rows.find? o ∧
      (c.view db).rows.find? o = db.rows.find? o) := by
  by_cases hk : Key.record o ∈ c.keys
  · have hkb : Key.record o ∉ b.keys := fun hkb => hlocks _ hkb hk
    exact .inl ⟨hkb, c.view_find?_of_mem hk _ _, b.view_find? hkb db⟩
  · exact .inr ⟨hk, c.view_find? hk _, c.view_find? hk _⟩

/-- The like for the start offset. -/
theorem rebase_start (db : Db) :
    ((c.view (b.view db)).start = (c.view db).start ∧
      (b.view db).start = db.start) ∨
    ((c.view (b.view db)).start = (b.view db).start ∧ (c.view db).start = db.start) := by
  by_cases hk : Key.start ∈ c.keys
  · exact .inl ⟨c.view_start_of_mem hk _ _, b.view_start (fun hkb => hlocks _ hkb hk) db⟩
  · exact .inr ⟨c.view_start hk _, c.view_start hk _⟩

variable (hb : b.Ok db) (hc : c.Ok db)
include hb hc

/-- What the other sees is no earlier than what is committed now. -/
theorem rebase_since_commit : Since (b.view db) (c.view (b.view db)) := by
  have hstart : (b.view db).start ≤ (c.view (b.view db)).start ∧
      (c.view db).start ≤ (c.view (b.view db)).start := by
    have := hb.since.start_le
    have := hc.since.start_le
    rcases rebase_start hlocks db with h | h <;> omega
  refine hc.since.of_rows hstart.2 hstart.1 fun o => ?_
  rcases rebase_find? hlocks db o with ⟨-, hview, hbase⟩ | ⟨-, hview, -⟩
  · exact .inr ⟨hbase, hview⟩
  · exact .inl hview

/-- Nor than what it saw before. -/
theorem rebase_since_view : Since (c.view db) (c.view (b.view db)) := by
  refine hb.since.of_rows (rebase_since_commit hlocks hb hc).start_le ?_ fun o => ?_
  · have := hb.since.start_le
    rcases rebase_start hlocks db with h | h <;> omega
  · rcases rebase_find? hlocks db o with ⟨-, hview, -⟩ | ⟨-, hview, hbase⟩
    · exact .inl hview
    · exact .inr ⟨hbase, hview⟩

theorem rebase_view : (c.view (b.view db)).Ok := by
  constructor
  · intro o r hr
    rcases rebase_find? hlocks db o with ⟨-, hview, -⟩ | ⟨-, hview, -⟩
    · exact hc.view.idle o r (hview.symm.trans hr)
    · exact hb.view.idle o r (hview.symm.trans hr)
  · intro o r hr hs
    by_contra hlt
    -- one of the two has passed the record, and has not written it
    rcases rebase_find? hlocks db o with ⟨hk, hview, -⟩ | ⟨hk, hview, -⟩
    · rw [hview] at hr
      have hahead := hc.view.ahead o r hr hs
      rcases rebase_start hlocks db with h | h
      · omega
      · have hf := hb.finished_of_passed hk (by omega) (by omega)
        exact hc.since.not_acquired hc.view hf hr hs
    · rw [hview] at hr
      have hahead := hb.view.ahead o r hr hs
      rcases rebase_start hlocks db with h | h
      · have hf := hc.finished_of_passed hk (by omega) (by omega)
        exact hb.since.not_acquired hb.view hf hr hs
      · omega

theorem rebase_passed (hle : (b.view db).start ≤ o) (hlt : o < (c.view (b.view db)).start) :
    Finished (c.kept (b.view db)).rows o := by
  rcases rebase_start hlocks db with h | h
  · have hf := hc.passed o (by omega) (by omega)
    by_cases hk : Key.record o ∈ store.keys (c.log.filter fun w => !w.deletes)
    · obtain ⟨r, hr, hs⟩ := hf
      exact ⟨r, (read_replay_of_mem (S := store) hk).trans hr, hs⟩
    obtain ⟨r, hr, hs⟩ := hf
    have hdb : db.rows.find? o = some r :=
      (read_replay_of_notMem (S := store) hk).symm.trans hr
    rcases hb.since.finished o ⟨r, hdb, hs⟩ with ⟨r', hr', hs'⟩ | hlt'
    · exact ⟨r', (read_replay_of_notMem (S := store) hk).trans hr', hs'⟩
    · omega
  · omega

/-- The step lemma of a commit, for every other transaction. -/
theorem Backend.Ok.rebase : c.Ok (b.view db) :=
  ⟨rebase_view hlocks hb hc, rebase_since_commit hlocks hb hc,
    fun _ hle hlt => rebase_passed hlocks hb hc hle hlt,
    hc.phase.later (rebase_since_view hlocks hb hc)⟩

end rebase

/-- What a statement does where it gets to a row: it goes on, or writes
what is allowed. -/
theorem Backend.Ok.row_cases (h : b.Ok db) (hcur : ∀ task snap left changed,
      b.phase = .under task snap left changed → k ∈ left → task.current snap (b.view db) k) :
    (∃ phase : Phase, phase.Ok b.now b.lock (b.view db) ∧ b.row db k = { b with phase := phase }) ∨
    (∃ w, ∃ phase : Phase, Allowed (b.view db) w ∧ w.key = k ∧
      phase.Ok b.now b.lock (w.apply (b.view db)) ∧
      b.row db k = b.wrote w phase) := by
  unfold row
  split
  next task snap left changed hphase =>
    have hp := h.phase
    rw [hphase] at hp
    have hleft : ∀ k' ∈ left.erase k, k' ∈ task.targets b.now b.lock snap :=
      fun k' hk' => hp.2 k' (mem_of_mem_erase hk')
    split
    next hk =>
      split
      next =>
        exact .inl ⟨.under task snap (left.erase k) changed, ⟨hp.1, hleft⟩, rfl⟩
      next w hw =>
      have hwrites := Task.writes_of_write hw
      have hall := hwrites.allowed h.view hp.1 (hp.2 k hk) (hcur _ _ _ _ hphase hk)
      exact .inr ⟨w, .under task snap (left.erase k) (changed + 1),
        hall, hwrites.key h.view, ⟨hp.1.trans hall.since, hleft⟩,
        rfl⟩
    next => exact .inl ⟨b.phase, h.phase, rfl⟩
  next => exact .inl ⟨b.phase, h.phase, rfl⟩

/-- The step lemma of a row. -/
theorem Backend.Ok.row (h : b.Ok db) (hcur : ∀ task snap left changed,
      b.phase = .under task snap left changed → k ∈ left → task.current snap (b.view db) k) :
    (b.row db k).Ok db := by
  rcases h.row_cases hcur with
    ⟨phase, hphase, he⟩ | ⟨w, phase, hall, -, hphase, he⟩
  · rw [he]
    exact { h with phase := hphase }
  · rw [he]
    exact h.wrote hall hphase

/-- The step lemma of a statement's beginning or end. -/
theorem Backend.Ok.next (h : b.Ok db) (hb : b.next db = some c) : c.Ok db := by
  unfold Backend.next at hb
  split at hb
  next =>
    cases hb
    exact h
  next task _ =>
    cases hb
    exact ⟨h.view, h.since, h.passed, .refl _, fun _ hk => hk⟩
  next =>
    split at hb
    · cases hb
      exact { h with phase := trivial }
    · cases hb
      exact { h with phase := trivial }
    · cases hb
  next =>
    cases hb
    exact h

theorem Backend.Ok.called (h : b.Ok db) (lockMs : ℤ) (call : Call) :
    (b.called lockMs call).Ok db := by
  unfold Backend.called
  split
  · exact { h with phase := trivial }
  · exact h

theorem Backend.Ok.fresh (h : db.Ok) (pid : ℕ) (now : ℤ) :
    Ok db { pid := pid, now := now } :=
  ⟨h, .refl _, fun o hle hlt => absurd hlt (by
    show ¬ o < db.start
    omega), trivial⟩

end Kafgres.ShareGroup
