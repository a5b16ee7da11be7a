/-
A call on a share partition that no other runs beside.
-/
import Kafgres.ShareGroup.Proofs.Sessions
import Kafgres.ShareGroup.Proofs.Batch

namespace Kafgres.ShareGroup

open List Backend Write

variable {s : Server} {db snap cur : Db} {b c : Backend} {r : Row}
  {w : Write} {k : Key} {o now lock : ℤ} {task : Task} {left : List Key}
  {changed : ℕ} {u : Update}

-- ==== the run

/-- In an increasing list that has all numbers from its lower bound to
`o`, each of them stands at the distance of its position. -/
theorem mem_zipIdx_of_run {l : List ℤ} (hsorted : l.Pairwise (· < ·))
    {start : ℤ} (hge : ∀ x ∈ l, start ≤ x) (ho : start ≤ o)
    (hall : ∀ x, start ≤ x → x ≤ o → x ∈ l) (i : ℕ) : (o, i + (o - start).toNat) ∈ l.zipIdx i := by
  induction l generalizing start i with
  | nil => cases hall o ho le_rfl
  | cons a l ih =>
    obtain ⟨hlt, hsorted⟩ := pairwise_cons.1 hsorted
    have ha := hge a (.head _)
    have hhead : a = start := by
      rcases mem_cons.1 (hall start le_rfl ho) with he | hmem
      · exact he.symm
      · have := hlt start hmem
        omega
    rw [zipIdx_cons]
    by_cases hos : o = start
    · rw [hos, hhead]
      simp
    apply mem_cons_of_mem
    have htail := ih hsorted (fun x hx => hlt x hx)
      (show a + 1 ≤ o by omega) (fun x hx hxo => ?_) (i + 1)
    · rw [show i + (o - start).toNat = i + 1 + (o - (a + 1)).toNat by
        omega]
      exact htail
    · rcases mem_cons.1 (hall x (by omega) hxo) with he | hmem
      · omega
      · exact hmem

/-- The record an advance stops at is not finished. -/
theorem advance_stops (db : Db) : ¬ Finished db.rows (advance db).start := by
  intro hfin
  obtain ⟨hle, hover⟩ := advance_finished db
  have hall : ∀ x, db.start ≤ x → x ≤ (advance db).start → x ∈ finishedFrom db := by
    intro x hx hxo
    refine mem_finishedFrom.2 ⟨hx, ?_⟩
    by_cases he : x = (advance db).start
    · exact he ▸ hfin
    · exact hover x hx (by omega)
  have hmem := mem_zipIdx_of_run (pairwise_finishedFrom db)
    (fun x hx => (mem_finishedFrom.1 hx).1) hle hall 1
  have hrun : (advance db).start ∈ ((((finishedFrom db).zipIdx 1).filter
      fun p : ℤ × ℕ => p.1 - p.2 = db.start - 1).map Prod.fst) := by
    refine mem_map.2 ⟨_, mem_filter.2 ⟨hmem, ?_⟩, rfl⟩
    rw [decide_eq_true_eq]
    omega
  -- it would be in the run, whose last record it is past
  generalize hnext : (advance db).start = next at hrun
  unfold advance at hnext
  dsimp only at hnext
  split at hnext
  next hnone =>
    rw [max?_eq_none_iff] at hnone
    simp [hnone] at hrun
  next top htop =>
    have htop' := (max?_eq_some_iff.1 htop).2 next hrun
    have : top + 1 = next := hnext
    omega

-- ==== headings

/-- The record at the start offset is not finished. -/
def HeadOpen (db : Db) : Prop := ¬ Finished db.rows db.start

/-- The types of a batch, a single one spread over its range. -/
def spreadTypes (first last : ℤ) : List Ack → List Ack
  | [kind] => List.replicate (last - first + 1).toNat kind
  | types => types

/-- No Accept or Reject of a record that the member does not hold. -/
def AllHeld (db : Db) (member : String) (list : List (ℤ × Ack)) : Prop :=
  ∀ p ∈ list, Applies db.rows member p

/-- The call gets to its advance, or the head is open already. An
acknowledgement that fails in the broker does neither. -/
def Call.Settles (db : Db) (now : ℤ) : Call → Prop
  | .acquire _ upto limit =>
    (db.start ≤ upto ∧ (room db.rows now limit).isSome) ∨ HeadOpen db
  | .acknowledge member first last types =>
    if last < first then HeadOpen db
    else AllHeld db member (ackList first last (spreadTypes first last types))
  | .shareAck member first last kind =>
    if last < first then HeadOpen db
    else AllHeld db member (ackList first last (List.replicate (last - first + 1).toNat kind))
  | .releaseAll _ | .expire _ => HeadOpen db

/-- The acknowledgements a call has left. -/
structure Pending (db : Db) (member : String) (list : List (ℤ × Ack)) :
    Prop where
  nodup : (list.map Prod.fst).Nodup
  held : AllHeld db member list

/-- What a task asks of the tables before its statement. -/
def Task.Ready (now : ℤ) (db : Db) : Task → Prop
  | .look _ upto limit =>
    (db.start ≤ upto ∧ (room db.rows now limit).isSome) ∨ HeadOpen db
  | .count _ first _ limit =>
    first = db.start ∧ ((room db.rows now limit).isSome ∨ HeadOpen db)
  | .take _ first _ _ => first = db.start
  | .ackRange member first last kind =>
    ackHeld db.rows member first last kind = true
  | .acks member list | .sqlAcks member list => Pending db member list
  | .release _ | .sweep _ => HeadOpen db
  | .advance => True
  | .prune => HeadOpen db

/-- An acknowledgement under way: it will change every row that its
snapshot gave it. -/
structure Counts (u : Update) (snap cur : Db) (left : List Key)
    (changed : ℕ) : Prop where
  nodup : left.Nodup
  rows : ∀ k ∈ left, ∃ o r, k = .record o ∧ cur.rows.find? o = some r ∧
    u.applies r = true
  total : changed + left.length = (snap.matching u.applies).length

/-- One of a list under way. -/
structure Acking (lock : ℤ) (snap cur : Db) (left : List Key)
    (changed : ℕ) (member : String) (p : ℤ × Ack)
    (list : List (ℤ × Ack)) : Prop where
  counts : Counts (p.2.update member p.1 p.1 lock) snap cur left changed
  held : ackHeld snap.rows member p.1 p.1 p.2 = true
  other : p.1 ∉ list.map Prod.fst
  pending : Pending cur member list

/-- What holds while the statement of a task is under way. -/
def Task.Under (now lock : ℤ) (snap cur : Db) (left : List Key)
    (changed : ℕ) (task : Task) : Prop :=
  match task with
  | .look .. | .count .. => left = [] ∧ snap = cur ∧ task.Ready now cur
  | .take _ first _ _ => first = cur.start
  | .ackRange member first last kind =>
    Counts (kind.update member first last lock) snap cur left changed ∧
      ackHeld snap.rows member first last kind = true
  | .acks _ [] => left = []
  | .acks member (p :: list) =>
    Acking lock snap cur left changed member p list
  | .sqlAcks _ [] => left = []
  | .sqlAcks member (p :: list) =>
    Acking lock snap cur left changed member p list
  | .release _ | .sweep _ => HeadOpen cur
  | .advance => (left = [.start] ∧ snap = cur) ∨ (left = [] ∧ HeadOpen cur)
  | .prune => HeadOpen cur

-- ==== counts

theorem Counts.init (u : Update) (db : Db) : Counts u db db (db.matching u.applies) 0 := by
  refine ⟨?_, fun k hk => ?_, Nat.zero_add _⟩
  · have hnodup : ((db.rows.rows.filter u.applies).map Row.recordOffset).Nodup :=
      db.rows.unique.sublist (filter_sublist.map _)
    unfold Db.matching
    rw [show (fun r : Row => Key.record r.recordOffset)
      = Key.record ∘ Row.recordOffset from rfl, ← map_map]
    exact hnodup.map fun _ _ h => Key.record.inj h
  · obtain ⟨r, hr, rfl⟩ := mem_map.1 hk
    obtain ⟨hmem, hp⟩ := mem_filter.1 hr
    exact ⟨r.recordOffset, r, rfl, Table.find?_eq_some.2 ⟨hmem, rfl⟩, hp⟩

/-- The row of one of its keys is written, the others stay. -/
theorem Counts.wrote (h : Counts u snap cur left changed)
    (hk : .record o ∈ left) (hset : (u.set r).recordOffset = o) :
    Counts u snap (apply cur (.put (u.set r))) (left.erase (.record o)) (changed + 1) := by
  refine ⟨h.nodup.erase _, fun k hk' => ?_, ?_⟩
  · obtain ⟨hne, hmem⟩ := (h.nodup.mem_erase_iff).1 hk'
    obtain ⟨o', r', rfl, hr', hp'⟩ := h.rows k hmem
    refine ⟨o', r', rfl, ?_, hp'⟩
    have hne' : o' ≠ o := fun he => hne (congrArg Key.record he)
    rw [find?_apply_put, hset, if_neg hne']
    exact hr'
  · have hlen := length_erase_of_mem hk
    have hpos := length_pos_of_mem hk
    have := h.total
    omega

variable {member : String} {kind : Ack} {first last : ℤ}

/-- At its end it has changed as many rows as it names. -/
theorem Counts.enough (h : Counts (kind.update member first last lock) snap cur [] changed)
    (hheld : ackHeld snap.rows member first last kind = true) :
    kind.enough (last - first + 1) changed = true := by
  unfold Ack.enough
  unfold ackHeld at hheld
  split
  next hasks =>
    rw [if_pos hasks, decide_eq_true_eq] at hheld
    have htotal := h.total
    unfold Db.matching at htotal
    rw [length_map] at htotal
    rw [decide_eq_true_eq]
    have : (changed : ℤ) = ((snap.rows.rows.filter
        (kind.applies member first last)).length : ℤ) := by
      exact_mod_cast htotal
    omega
  next => rfl

-- ==== statements

variable {list : List (ℤ × Ack)} {call : Call} {goal : Phase → Prop} {p : ℤ × Ack}

theorem Pending.wrote (h : Pending cur member list) (hne : r.recordOffset ∉ list.map Prod.fst) :
    Pending (apply cur (.put r)) member list := by
  refine ⟨h.nodup, fun p hp hasks => ?_⟩
  refine (held_congr ?_).2 (h.held p hp hasks)
  rw [find?_apply_put, if_neg]
  intro he
  exact hne (he ▸ mem_map_of_mem hp)

theorem Acking.init (h : Pending db member (p :: list)) (lock : ℤ) :
    Acking lock db db (db.matching (p.2.update member p.1 p.1 lock).applies) 0 member p list := by
  obtain ⟨hp, hnodup⟩ := nodup_cons.1 (show (p.1 :: list.map Prod.fst).Nodup from h.nodup)
  refine ⟨.init _ db, ackHeld_iff.2 fun hasks o ho => ?_, hp, hnodup,
    fun q hq => h.held q (.tail _ hq)⟩
  have ho' := mem_series.1 ho
  have heq : o = p.1 := by omega
  exact heq ▸ h.held p (.head _) hasks

/-- A statement takes its snapshot. -/
theorem Task.Ready.under (h : task.Ready now db) (lock : ℤ) :
    task.Under now lock db db (task.targets now lock db) 0 := by
  cases task with
  | look | count => exact ⟨rfl, rfl, h⟩
  | take => exact h
  | ackRange member first last kind => exact ⟨.init _ db, h⟩
  | acks member list | sqlAcks member list =>
    cases list with
    | nil => rfl
    | cons p list => exact Acking.init h lock
  | release | sweep => exact h
  | advance => exact .inl ⟨rfl, rfl⟩
  | prune => exact h

/-- A statement ends. -/
theorem Task.Under.ends (h : task.Under now lock snap cur [] changed) :
    (task.outcome now snap changed = .done ∧ HeadOpen cur) ∨
    ∃ next, task.outcome now snap changed = .go next ∧ next.Ready now cur := by
  cases task with
  | look member upto limit =>
    obtain ⟨-, rfl, hready⟩ := h
    unfold Task.outcome
    dsimp only
    split
    next hlt =>
      rcases hready with ⟨hle, -⟩ | hopen
      · omega
      · exact .inl ⟨rfl, hopen⟩
    next =>
      exact .inr ⟨_, rfl, rfl, hready.imp_left And.right⟩
  | count member first upto limit =>
    obtain ⟨-, rfl, hfirst, hready⟩ := h
    unfold Task.outcome
    dsimp only
    split
    next hroom =>
      rw [hroom] at hready
      exact .inl ⟨rfl, hready.resolve_left nofun⟩
    next => exact .inr ⟨_, rfl, hfirst⟩
  | take => exact .inr ⟨_, rfl, trivial⟩
  | ackRange member first last kind =>
    exact .inr ⟨.advance, if_pos (h.1.enough h.2), trivial⟩
  | acks member list | sqlAcks member list =>
    cases list with
    | nil => exact .inr ⟨_, rfl, trivial⟩
    | cons p list =>
      have henough := h.counts.enough h.held
      rw [show p.1 - p.1 + 1 = 1 by omega] at henough
      exact .inr ⟨_, if_pos henough, h.pending⟩
  | release | sweep => exact .inl ⟨rfl, h⟩
  | advance =>
    rcases h with ⟨hl, -⟩ | ⟨-, hopen⟩
    · cases hl
    · exact .inr ⟨_, rfl, hopen⟩
  | prune => exact .inl ⟨rfl, h⟩

theorem Task.eq_advance (h : .start ∈ task.targets now lock snap) : task = .advance := by
  have hmatching : ∀ p : Row → Bool, Key.start ∉ snap.matching p := by
    intro p hmem
    obtain ⟨r, -, he⟩ := mem_map.1 hmem
    cases he
  unfold Task.targets at h
  split at h
  next =>
    obtain ⟨o, -, he⟩ := mem_map.1 h
    cases he
  next => rfl
  next =>
    split at h
    · cases h
    · exact absurd h (hmatching _)
  next =>
    split at h
    · cases h
    · exact absurd h (hmatching _)

/-- Alone, a statement finds what it has to. -/
theorem Task.Under.current (h : task.Under now lock snap cur left changed)
    (hk : k ∈ left) (htarget : k ∈ task.targets now lock snap) : task.current snap cur k := by
  cases k with
  | start =>
    cases Task.eq_advance htarget
    rcases h with ⟨-, rfl⟩ | ⟨hl, -⟩
    · rfl
    · simp [hl] at hk
  | record o =>
    cases task with
    | take member first upto limit =>
      obtain ⟨o', ho', he⟩ := mem_map.1 htarget
      cases he
      have hfirst : first = cur.start := h
      exact hfirst ▸ (mem_candidates ho').1
    | _ => trivial

/-- A write elsewhere leaves the head as it is. -/
theorem HeadOpen.of_find? {db' : Db} (h : HeadOpen db) (hstart : db'.start = db.start)
    (hfind : db'.rows.find? db.start = db.rows.find? db.start) : HeadOpen db' := by
  unfold HeadOpen Finished
  rw [hstart, hfind]
  exact h

/-- A row that is unlocked is still unfinished. -/
theorem HeadOpen.unlock (h : HeadOpen db) (hs : r.state = .acquired) :
    HeadOpen (apply db (.put r.unlock)) := by
  rintro ⟨r', hr', hs'⟩
  rw [find?_apply_put] at hr'
  split at hr'
  · cases hr'
    exact hs' hs
  · exact h ⟨r', hr', hs'⟩

theorem Acking.wrote (h : Acking lock snap cur left changed member p list)
    (hk : .record o ∈ left) (hr : cur.rows.find? o = some r)
    (hp : p.2.applies member p.1 p.1 r = true) :
    Acking lock snap (apply cur (.put (p.2.set lock r)))
      (left.erase (.record o)) (changed + 1) member p list := by
  have hset : (p.2.set lock r).recordOffset = r.recordOffset := p.2.set_recordOffset lock r
  have hro := (Table.find?_eq_some.1 hr).2
  refine ⟨h.counts.wrote hk (hset.trans hro), h.held, h.other, h.pending.wrote ?_⟩
  rw [hset, (applies_one.1 hp).1]
  exact h.other

/-- The statement writes a row. -/
theorem Task.Under.wrote (h : task.Under now lock snap cur left changed)
    (hok : cur.Ok) (hsince : Since snap cur) (hk : k ∈ left)
    (htarget : k ∈ task.targets now lock snap) (hw : Task.Writes now lock snap cur task k w) :
    task.Under now lock snap (w.apply cur) (left.erase k) (changed + 1) := by
  cases hw with
  | advance =>
    rcases h with ⟨rfl, rfl⟩ | ⟨rfl, -⟩
    · exact .inr ⟨rfl, advance_stops snap⟩
    · cases hk
  | hand | again => exact h
  | @prune o r hr =>
    have hlt := Task.mem_targets_prune htarget
    refine HeadOpen.of_find? (show HeadOpen cur from h) rfl ?_
    rw [find?_apply_gone, if_neg]
    have := hsince.start_le
    omega
  | @update _ u o r hu hr hp =>
    have hro := (Table.find?_eq_some.1 hr).2
    have hs := (Task.update_settles hu (hok.idle o r hr) hp).1
    cases task with
    | ackRange member first last kind =>
      cases hu
      exact ⟨h.1.wrote hk ((kind.set_recordOffset lock r).trans hro), h.2⟩
    | acks member list | sqlAcks member list =>
      cases list with
      | nil => cases hu
      | cons p list =>
        cases hu
        exact Acking.wrote h hk hr hp
    | release | sweep =>
      cases hu
      exact HeadOpen.unlock h hs
    | _ => cases hu

/-- The write of an acknowledgement to a row its snapshot gave it. -/
theorem Counts.write_ne_none (h : Counts u snap cur left changed) (hk : k ∈ left)
    (hu : task.update now lock snap = some u) : task.write now lock snap cur k ≠ none := by
  obtain ⟨o, r, rfl, hr, hp⟩ := h.rows k hk
  unfold Task.write
  dsimp only
  split
  next => cases hu
  next => cases hu
  next => simp [hu, hr, hp]

/-- The statement passes over a row. -/
theorem Task.Under.skipped (h : task.Under now lock snap cur left changed)
    (hk : k ∈ left) (hw : task.write now lock snap cur k = none) :
    task.Under now lock snap cur (left.erase k) changed := by
  cases task with
  | look | count =>
    simp [h.1] at hk
  | take => exact h
  | ackRange => exact absurd hw (h.1.write_ne_none hk rfl)
  | acks member list | sqlAcks member list =>
    cases list with
    | nil =>
      simp [show left = [] from h] at hk
    | cons p list => exact absurd hw (h.counts.write_ne_none hk rfl)
  | release | sweep => exact h
  | advance =>
    rcases h with ⟨rfl, rfl⟩ | ⟨rfl, -⟩
    · cases mem_singleton.1 hk
      cases hw
    · cases hk
  | prune => exact h

-- ==== the call

def Phase.Heading (now lock : ℤ) (view : Db) : Phase → Prop
  | .idle => HeadOpen view
  | .ready task => task.Ready now view
  | .under task snap left changed =>
    task.Under now lock snap view left changed

/-- A transaction alone, in its one call. -/
structure Backend.Alone (db : Db) (b : Backend) : Prop where
  ok : b.Ok db
  there : ∀ o r, (b.kept db).rows.find? o = some r →
    (b.view db).rows.find? o = none → o < (b.view db).start
  heading : b.phase.Heading b.now b.lock (b.view db)

/-- What it has deleted is below the start offset, also after one more
write. -/
theorem Backend.Alone.there_wrote (h : b.Alone db)
    (hw : Allowed (b.view db) w) (phase : Phase) (o : ℤ) (r : Row)
    (hr : ((b.wrote w phase).kept db).rows.find? o = some r)
    (hn : ((b.wrote w phase).view db).rows.find? o = none) :
    o < ((b.wrote w phase).view db).start := by
  rw [view_wrote] at hn ⊢
  rw [kept_wrote] at hr
  have hle := hw.since.start_le
  cases w with
  | put r' =>
    rw [find?_apply_put] at hn
    split at hn
    · cases hn
    next hne =>
    have hr' := (find?_apply_put _ r' o).symm.trans hr
    rw [if_neg hne] at hr'
    exact h.there o r hr' hn
  | gone o' =>
    rw [find?_apply_gone] at hn
    split at hn
    next he =>
      cases hw with
      | gone hlt => exact he ▸ hlt
    next => exact h.there o r hr hn
  | start o' => exact lt_of_lt_of_le (h.there o r hr hn) hle

theorem Backend.Alone.row (h : b.Alone db) (k : Key) : (b.row db k).Alone db := by
  have hcur : ∀ task snap left changed, b.phase = .under task snap left changed → k ∈ left →
        task.current snap (b.view db) k := by
    intro task snap left changed hphase hk
    have hheading := h.heading
    have hok := h.ok.phase
    rw [hphase] at hheading hok
    exact Task.Under.current hheading hk (hok.2 k hk)
  have hrow := h.ok.row hcur
  unfold Backend.row at hrow ⊢
  split at hrow
  next task snap left changed hphase =>
    have hheading := h.heading
    have hok := h.ok.phase
    rw [hphase] at hheading hok
    split at hrow
    next hk =>
      split at hrow
      next hw =>
        simp only [hk, if_true]
        exact ⟨hrow, h.there, Task.Under.skipped hheading hk hw⟩
      next w hw =>
      simp only [hk, if_true]
      have hwrites := Task.writes_of_write hw
      have hall := hwrites.allowed h.ok.view hok.1 (hok.2 k hk) (hcur _ _ _ _ hphase hk)
      refine ⟨hrow, h.there_wrote hall _, ?_⟩
      show Task.Under _ _ _ ((b.wrote w _).view db) _ _ _
      rw [view_wrote]
      exact Task.Under.wrote hheading h.ok.view hok.1 hk (hok.2 k hk) hwrites
    next hk =>
      simp only [hk, if_false]
      exact h
  next => exact h

/-- Alone, no statement raises. -/
theorem Backend.Alone.next (h : b.Alone db) : ∃ c, b.next db = some c ∧ c.Alone db := by
  have hok : ∀ c, b.next db = some c → c.Ok db := fun c hc => h.ok.next hc
  have hheading := h.heading
  unfold Backend.next at hok ⊢
  split at hok
  next => exact ⟨b, rfl, h⟩
  next task hphase =>
    rw [hphase] at hheading
    exact ⟨_, rfl, hok _ rfl, h.there, Task.Ready.under hheading b.lock⟩
  next task snap changed hphase =>
    rw [hphase] at hheading
    rcases Task.Under.ends hheading with ⟨hout, hopen⟩ | ⟨next, hout, hready⟩
    · simp only [hout] at hok ⊢
      exact ⟨_, rfl, hok _ rfl, h.there, hopen⟩
    · simp only [hout] at hok ⊢
      exact ⟨_, rfl, hok _ rfl, h.there, hready⟩
  next => exact ⟨b, rfl, h⟩

/-- The start offset it leaves is the end of the run. -/
theorem Backend.Alone.runEnd (h : b.Alone db) (hidle : b.phase = .idle) :
    RunEnd (b.kept db).rows db.start (b.view db).start := by
  refine ⟨h.ok.since.start_le, h.ok.passed, fun hf => ?_⟩
  obtain ⟨r, hr, hs⟩ := hf
  have hopen := h.heading
  rw [hidle] at hopen
  cases hview : (b.view db).rows.find? (b.view db).start with
  | none => exact absurd (h.there _ r hr hview) (lt_irrefl _)
  | some r' =>
    cases (b.kept_of_view db hview).symm.trans hr
    exact hopen ⟨r, hview, hs⟩

-- ==== its runs

/-- The only open transaction. -/
structure Server.Solo (s : Server) (db : Db) (b : Backend) : Prop where
  db : s.db = db
  rows : s.backends.rows = [b]

theorem Server.Solo.find? (h : s.Solo db b) : s.backends.find? b.pid = some b := by
  apply Table.find?_eq_some.2
  rw [h.rows]
  exact ⟨mem_singleton_self b, rfl⟩

theorem Server.Solo.put (h : s.Solo db b) (hpid : c.pid = b.pid) : (s.put c).Solo db c := by
  refine ⟨h.db, ?_⟩
  show s.backends.rows.filter _ ++ [c] = [c]
  rw [h.rows]
  simp [hpid]

theorem Server.Solo.not_blocked (h : s.Solo db b) (k : Key) : s.blocked b.pid k = false := by
  unfold Server.blocked
  rw [h.rows]
  simp

theorem Server.Solo.step_row (h : s.Solo db b) (k : Key) :
    (s.step (.row b.pid k)).Solo db (b.row db k) := by
  unfold Server.step
  simp only [h.find?, h.not_blocked k, h.db, Bool.false_eq_true, if_false]
  exact h.put (b.row_pid db k)

theorem Server.Solo.step_next (h : s.Solo db b)
    (hnext : b.next db = some c) : (s.step (.next b.pid)).Solo db c := by
  unfold Server.step
  simp only [h.find?, h.db, hnext]
  exact h.put (next_same hnext).1

/-- A run of its steps. -/
theorem Server.Solo.run (es : List Event) (hes : ∀ e ∈ es, Event.ownedBy b.pid e) (h : s.Solo db b)
    (hb : b.Alone db) : ∃ c, c.pid = b.pid ∧ (es.foldl Server.step s).Solo db c ∧ c.Alone db := by
  induction es generalizing s b with
  | nil => exact ⟨b, rfl, h, hb⟩
  | cons e es ih =>
    have hrest : ∀ e ∈ es, Event.ownedBy b.pid e := fun e he => hes e (.tail _ he)
    have hown := hes e (.head _)
    cases e with
    | next pid =>
      obtain rfl : pid = b.pid := hown
      obtain ⟨c, hc, halone⟩ := hb.next
      have hpid := (next_same hc).1
      obtain ⟨c', hpid', hsolo, halone'⟩ := ih (hpid ▸ hrest) (h.step_next hc) halone
      exact ⟨c', hpid'.trans hpid, hsolo, halone'⟩
    | row pid k =>
      obtain rfl : pid = b.pid := hown
      have hpid := b.row_pid db k
      obtain ⟨c', hpid', hsolo, halone'⟩ := ih (hpid.symm ▸ hrest) (h.step_row k) (hb.row k)
      exact ⟨c', hpid'.trans hpid, hsolo, halone'⟩
    | start | call | commit | rollback => cases hown

-- ==== its end

/-- How many statements a call has to go at most. -/
def Task.size : Task → ℕ
  | .look .. => 5
  | .count .. => 4
  | .take .. | .ackRange .. => 3
  | .acks _ list | .sqlAcks _ list => list.length + 3
  | .release _ | .sweep _ => 1
  | .advance => 2
  | .prune => 1

theorem Task.outcome_size {next : Task} (h : task.outcome now snap changed = .go next) :
    next.size < task.size := by
  unfold Task.outcome at h
  -- a task that goes on has one statement less to go
  split at h <;> (try split at h) <;> cases h
  all_goals exact Nat.lt_succ_self _

/-- A run of its steps to a phase that is asked for. -/
def Server.Gets (s : Server) (db : Db) (b : Backend) (goal : Phase → Prop) : Prop :=
  ∃ es : List Event, (∀ e ∈ es, Event.ownedBy b.pid e) ∧
    ∃ c : Backend, c.pid = b.pid ∧ (es.foldl Server.step s).Solo db c ∧
      c.Alone db ∧ goal c.phase

theorem Server.Gets.here (h : s.Solo db b)
    (hb : b.Alone db) (hgoal : goal b.phase) : s.Gets db b goal :=
  ⟨[], nofun, b, rfl, h, hb, hgoal⟩

/-- One step, then the rest. -/
theorem Server.Gets.step {e : Event} (hown : Event.ownedBy b.pid e) (hpid : c.pid = b.pid)
    (h : (s.step e).Gets db c goal) : s.Gets db b goal := by
  obtain ⟨es, hes, c', hpid', hrest⟩ := h
  refine ⟨e :: es, fun e' he' => ?_, c', hpid'.trans hpid, hrest⟩
  rcases mem_cons.1 he' with rfl | hmem
  · exact hown
  · exact hpid ▸ hes e' hmem

/-- A statement gets to all its rows. -/
theorem Server.Solo.drains (h : s.Solo db b) (hb : b.Alone db)
    (hphase : b.phase = .under task snap left changed) :
    s.Gets db b fun phase => ∃ n, phase = .under task snap [] n := by
  induction left generalizing s b changed with
  | nil => exact .here h hb ⟨changed, hphase⟩
  | cons k left ih =>
    have hnext : ∃ n, (b.row db k).phase = .under task snap left n := by
      unfold Backend.row
      simp only [hphase, mem_cons_self, if_true, erase_cons_head]
      split
      · exact ⟨changed, rfl⟩
      · exact ⟨changed + 1, rfl⟩
    obtain ⟨n, hn⟩ := hnext
    exact .step (e := .row b.pid k) rfl (b.row_pid db k) (ih (h.step_row k) (hb.row k) hn)

/-- A call comes to its end. -/
theorem Server.Solo.finishes (n : ℕ) (hn : task.size < n)
    (h : s.Solo db b) (hb : b.Alone db) (hphase : b.phase = .ready task) :
    s.Gets db b (· = .idle) := by
  induction n generalizing s b task with
  | zero => cases hn
  | succ n ih =>
    obtain ⟨c, hc, halone⟩ := hb.next
    have hunder : ∃ left, c.phase = .under task (b.view db) left 0 := by
      unfold Backend.next at hc
      simp only [hphase] at hc
      cases hc
      exact ⟨_, rfl⟩
    obtain ⟨left, hunder⟩ := hunder
    have hpid := (next_same hc).1
    refine .step (e := .next b.pid) rfl hpid ?_
    obtain ⟨es, hes, c₁, hpid₁, hsolo₁, halone₁, changed, hphase₁⟩ :=
      (h.step_next hc).drains halone hunder
    -- the statement ends, and its task is followed by a smaller one
    have hend : (es.foldl Server.step (s.step (.next b.pid))).Gets db c₁ (· = .idle) := by
      obtain ⟨c₂, hc₂, halone₂⟩ := halone₁.next
      have hpid₂ := (next_same hc₂).1
      refine .step (e := .next c₁.pid) rfl hpid₂ ?_
      have hsolo₂ := hsolo₁.step_next hc₂
      have hheading := halone₁.heading
      rw [hphase₁] at hheading
      unfold Backend.next at hc₂
      simp only [hphase₁] at hc₂
      rcases Task.Under.ends hheading with ⟨hout, -⟩ | ⟨next, hout, -⟩
      · simp only [hout] at hc₂
        cases hc₂
        exact .here hsolo₂ halone₂ rfl
      simp only [hout] at hc₂
      cases hc₂
      have := Task.outcome_size hout
      exact ih (by omega) hsolo₂ halone₂ rfl
    obtain ⟨es', hes', c₂, hpid₂, hrest⟩ := hend
    refine ⟨es ++ es', fun e he => ?_, c₂, hpid₂.trans hpid₁, ?_⟩
    · rcases mem_append.1 he with he | he
      · exact hes e he
      · exact hpid₁ ▸ hes' e he
    · rw [foldl_append]
      exact hrest

-- ==== exactness

theorem AllHeld.ackRange (h : AllHeld db member (ackList first last
      (List.replicate (last - first + 1).toNat kind))) :
    ackHeld db.rows member first last kind = true := by
  rw [ackList_replicate] at h
  exact ackHeld_iff.2 fun hasks o ho =>
    h (o, kind) (mem_map_of_mem ho) hasks

/-- The first task of a call finds what it asks for. -/
theorem Call.Settles.ready (h : call.Settles db now) :
    (call.task = none ∧ HeadOpen db) ∨ ∃ task, call.task = some task ∧ task.Ready now db := by
  cases call with
  | acquire member upto limit => exact .inr ⟨_, rfl, h⟩
  | acknowledge member first last types =>
    simp only [Call.task, ShareGroup.acknowledge, Call.Settles] at h ⊢
    split at h
    next hlt =>
      rw [if_pos hlt]
      exact .inl ⟨rfl, h⟩
    next hlt =>
    rw [if_neg hlt]
    have hlist : spreadTypes first last types = types →
        Pending db member (ackList first last types) :=
      fun he => ⟨nodup_ackList _ _ _, he ▸ h⟩
    split
    next kind =>
      split
      next => exact .inr ⟨_, rfl, h.ackRange⟩
      next hone =>
      refine .inr ⟨_, rfl, hlist ?_⟩
      show replicate _ kind = [kind]
      rw [show (last - first + 1).toNat = 1 by omega]
      rfl
    next hone =>
      refine .inr ⟨_, rfl, hlist ?_⟩
      unfold spreadTypes
      split
      next kind => exact absurd rfl (hone kind)
      next => rfl
  | shareAck member first last kind =>
    simp only [Call.task, ShareGroup.shareAck, Call.Settles] at h ⊢
    split at h
    next hlt =>
      rw [if_pos hlt]
      exact .inl ⟨rfl, h⟩
    next hlt =>
      rw [if_neg hlt]
      exact .inr ⟨_, rfl, nodup_ackList _ _ _, h⟩
  | releaseAll | expire => exact .inr ⟨_, rfl, h⟩

/-- The transaction after its call was made. -/
theorem Server.Inv.called (h : s.Inv) (hquiet : s.backends.rows = [])
    (pid : ℕ) (lockMs : ℤ) (hcall : call.Settles s.db now) :
    ∃ b, b.pid = pid ∧ (s.alone pid now lockMs call []).Solo s.db b ∧
      b.Alone s.db ∧ (b.phase = .idle ∨ ∃ task, b.phase = .ready task) := by
  have hnone : s.backends.find? pid = none := by
    unfold Table.find?
    rw [hquiet]
    rfl
  let fresh : Backend := { pid := pid, now := now }
  have hok : fresh.Ok s.db := .fresh h.db pid now
  have hsolo : (s.step (.start pid now)).Solo s.db fresh := by
    unfold Server.step
    simp only [hnone]
    refine ⟨rfl, ?_⟩
    show s.backends.rows.filter _ ++ [fresh] = [fresh]
    rw [hquiet]
    rfl
  have hcalled : (s.alone pid now lockMs call []).Solo s.db (fresh.called lockMs call) := by
    show ((s.step (.start pid now)).step (.call pid lockMs call)).Solo _ _
    unfold Server.step at hsolo ⊢
    dsimp only at hsolo ⊢
    rw [hsolo.find?]
    exact hsolo.put (fresh.called_same lockMs call).1
  have hthere : ∀ o r, s.db.rows.find? o = some r → s.db.rows.find? o = none → o < s.db.start :=
    fun _ _ hr hn => absurd (hr.symm.trans hn) (Option.some_ne_none _)
  have hcok := hok.called lockMs call
  refine ⟨fresh.called lockMs call, (fresh.called_same lockMs call).1, hcalled, ?_⟩
  unfold Backend.called at hcok ⊢
  rcases hcall.ready with ⟨htask, hopen⟩ | ⟨task, htask, hready⟩
  · simp only [htask] at hcok ⊢
    exact ⟨⟨hcok, hthere, hopen⟩, .inl rfl⟩
  · simp only [htask] at hcok ⊢
    exact ⟨⟨hcok, hthere, hready⟩, .inr ⟨task, rfl⟩⟩

theorem Server.alone_append (s : Server) (pid : ℕ) (now lockMs : ℤ)
    (call : Call) (es : List Event) :
    s.alone pid now lockMs call es = es.foldl Server.step (s.alone pid now lockMs call []) := rfl

theorem Server.Inv.exact (h : s.Inv) (hquiet : s.backends.rows = [])
    (pid : ℕ) (lockMs : ℤ) (hcall : call.Settles s.db now) : Exact s pid now lockMs call := by
  obtain ⟨b, rfl, hsolo, halone, hphase⟩ := h.called hquiet pid lockMs hcall
  constructor
  · have hgets : (s.alone b.pid now lockMs call []).Gets s.db b (· = .idle) := by
      rcases hphase with hidle | ⟨task, hready⟩
      · exact .here hsolo halone hidle
      · exact hsolo.finishes (task.size + 1) (Nat.lt_succ_self _) halone hready
    obtain ⟨es, hes, c, hpid, hsolo', -, hidle⟩ := hgets
    refine ⟨es, hes, c, ?_, hidle⟩
    have hfind := hsolo'.find?
    rw [hpid] at hfind
    exact hfind
  · rintro es hes c ⟨hfind, hidle⟩
    obtain ⟨c', hpid, hsolo', halone'⟩ := hsolo.run es hes halone
    rw [← s.alone_append] at hsolo'
    have hc := hsolo'.find?
    rw [hpid, hfind] at hc
    cases hc
    rw [Server.step_commit hfind hidle]
    rw [hsolo'.db]
    exact halone'.runEnd hidle

end Kafgres.ShareGroup
