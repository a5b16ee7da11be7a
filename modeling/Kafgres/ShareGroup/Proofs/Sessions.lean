/-
The start offset of a share partition under concurrent sessions.

`advance_start_offset` computes the new start offset on its snapshot and
writes it without looking again, after another transaction may have moved
it. An acquire inserts the candidates of its snapshot, also where the
start offset has moved past them.
-/
import Kafgres.ShareGroup.Proofs.Versions

namespace Kafgres.ShareGroup

variable {s : Server} {db : Db} {b c : Backend} {r : Row} {w : Write}
  {k : Key} {o : ℤ} {e : Event} {pid : ℕ}

-- ==== the condition

/-- When an advance gets to write, the start offset is still the one its
snapshot saw; when an acquire gets to a record, the start offset is not
past it. -/
def Current (s : Server) : Event → Prop
  | .row pid k =>
    match s.backends.find? pid with
    | none => True
    | some b =>
      match b.phase with
      | .under task snap left _ => k ∈ left → s.blocked pid k = false →
          task.current snap (b.view s.db) k
      | _ => True
  | _ => True

instance (task : Task) (snap cur : Db) (k : Key) : Decidable (task.current snap cur k) := by
  unfold Task.current
  split
  · infer_instance
  · split
    · infer_instance
    · infer_instance

instance (s : Server) (e : Event) : Decidable (Current s e) := by
  unfold Current
  split
  · split
    · infer_instance
    · split
      · infer_instance
      · infer_instance
  · infer_instance

-- ==== runs

/-- What every state keeps: no row is written by two transactions. -/
structure Server.Inv (s : Server) : Prop where
  db : s.db.Ok
  backends : ∀ b ∈ s.backends.rows, b.Ok s.db
  locks : ∀ b ∈ s.backends.rows, ∀ c ∈ s.backends.rows, b.pid ≠ c.pid →
    ∀ k ∈ b.keys, k ∉ c.keys

theorem Server.Inv.init (offset : Option ℤ) : Server.Inv { db := { offset := offset } } := by
  refine ⟨⟨?_, ?_⟩, ?_, ?_⟩
  · exact nofun
  · exact nofun
  · exact nofun
  · exact nofun

theorem Server.Inv.close (h : s.Inv) (pid : ℕ) : (s.close pid).Inv := by
  have hmem : ∀ b ∈ (s.close pid).backends.rows, b ∈ s.backends.rows :=
    fun b hb => (Table.mem_erase.1 hb).1
  exact ⟨h.db, fun b hb => h.backends b (hmem b hb),
    fun b hb c hc => h.locks b (hmem b hb) c (hmem c hc)⟩

theorem Server.Inv.put (h : s.Inv) (hb : b.Ok s.db) (hlocks : ∀ c ∈ s.backends.rows, c.pid ≠ b.pid →
      ∀ k ∈ b.keys, k ∉ c.keys) : (s.put b).Inv := by
  refine ⟨h.db, fun c hc => ?_, fun c hc c' hc' hne k hk hk' => ?_⟩
  · rcases Table.mem_put.1 hc with ⟨hold, -⟩ | rfl
    · exact h.backends c hold
    · exact hb
  rcases Table.mem_put.1 hc with ⟨hold, hpid⟩ | rfl
  · rcases Table.mem_put.1 hc' with ⟨hold', -⟩ | rfl
    · exact h.locks c hold c' hold' hne k hk hk'
    · exact hlocks c hold hne k hk' hk
  · rcases Table.mem_put.1 hc' with ⟨hold', hpid'⟩ | rfl
    · exact hlocks c' hold' hpid' k hk hk'
    · exact hne rfl

/-- A backend that has written nothing new. -/
theorem Server.Inv.put_same (h : s.Inv) (hb : s.backends.find? pid = some b) (hc : c.Ok s.db)
    (hpid : c.pid = b.pid) (hlog : c.log = b.log) : (s.put c).Inv := by
  obtain ⟨hmem, -⟩ := Table.find?_eq_some.1 hb
  refine h.put hc fun c' hc' hne k hk => ?_
  have hk' : k ∈ b.keys := by
    unfold Backend.keys at hk ⊢
    rw [hlog] at hk
    exact hk
  exact h.locks b hmem c' hc' (fun he => hne (he ▸ hpid.symm)) k hk'

theorem Server.Inv.commit (h : s.Inv) (hb : s.backends.find? pid = some b) :
    Server.Inv { s.close pid with db := b.view s.db } := by
  obtain ⟨hmem, hpid⟩ := Table.find?_eq_some.1 hb
  have hok := h.backends b hmem
  have hother : ∀ c ∈ (s.close pid).backends.rows, c ∈ s.backends.rows ∧ b.pid ≠ c.pid := by
    intro c hc
    obtain ⟨hold, hne⟩ := Table.mem_erase.1 hc
    exact ⟨hold, fun he => hne (he ▸ hpid)⟩
  refine ⟨hok.view, fun c hc => ?_, (h.close pid).locks⟩
  obtain ⟨hold, hne⟩ := hother c hc
  exact hok.rebase (h.locks b hmem c hold hne) (h.backends c hold)

theorem Server.not_blocked (h : s.blocked pid k = false)
    (hc : c ∈ s.backends.rows) (hne : c.pid ≠ pid) : k ∉ c.keys := by
  intro hk
  have := List.any_eq_false.1 h c hc
  simp [hne, hk] at this

/-- The condition, as the step lemma of a row asks for it. -/
theorem Current.of_row (h : Current s (.row pid k))
    (hb : s.backends.find? pid = some b) (hfree : s.blocked pid k = false)
    (task : Task) (snap : Db) (left : List Key) (changed : ℕ)
    (hphase : b.phase = .under task snap left changed) (hk : k ∈ left) :
    task.current snap (b.view s.db) k := by
  unfold Current at h
  simp only [hb, hphase] at h
  exact h hk hfree

theorem Server.Inv.row (h : s.Inv)
    (hb : s.backends.find? pid = some b) (hfree : s.blocked pid k = false)
    (hcur : Current s (.row pid k)) : (s.put (b.row s.db k)).Inv := by
  obtain ⟨hmem, hpid⟩ := Table.find?_eq_some.1 hb
  have hok := h.backends b hmem
  rcases hok.row_cases (hcur.of_row hb hfree) with
    ⟨phase, hphase, he⟩ | ⟨w, phase, hall, hkey, hphase, he⟩
  · rw [he]
    exact h.put_same hb { hok with phase := hphase } rfl rfl
  rw [he]
  refine h.put (hok.wrote hall hphase) fun c hc hne k' hk' => ?_
  rcases store.mem_keys_snoc.1 hk' with hold | hnew
  · exact h.locks b hmem c hc (Ne.symm hne) k' hold
  · have hk'' : k' = k := hnew.trans hkey
    rw [hk'']
    exact Server.not_blocked hfree hc (hpid ▸ hne)

theorem Backend.next_same (h : b.next db = some c) : c.pid = b.pid ∧ c.log = b.log := by
  unfold Backend.next at h
  split at h
  · cases h
    exact ⟨rfl, rfl⟩
  · cases h
    exact ⟨rfl, rfl⟩
  · split at h
    · cases h
      exact ⟨rfl, rfl⟩
    · cases h
      exact ⟨rfl, rfl⟩
    · cases h
  · cases h
    exact ⟨rfl, rfl⟩

theorem Backend.called_same (b : Backend) (lockMs : ℤ) (call : Call) :
    (b.called lockMs call).pid = b.pid ∧ (b.called lockMs call).log = b.log := by
  unfold Backend.called
  split <;> exact ⟨rfl, rfl⟩

theorem Server.Inv.step (s : Server) (e : Event) (h : s.Inv)
    (hcur : Current s e) : (s.step e).Inv := by
  unfold Server.step
  split
  next pid now =>
    split
    · exact h
    · exact h.put (.fresh h.db pid now) fun _ _ _ _ hk => nomatch hk
  next pid lockMs call =>
    split
    · exact h
    next b hb =>
    have hok := h.backends b (Table.find?_eq_some.1 hb).1
    obtain ⟨hpid, hlog⟩ := b.called_same lockMs call
    exact h.put_same hb (hok.called lockMs call) hpid hlog
  next pid =>
    split
    · exact h
    next b hb =>
    split
    · exact h.close pid
    next c hc =>
    have hok := h.backends b (Table.find?_eq_some.1 hb).1
    obtain ⟨hpid, hlog⟩ := Backend.next_same hc
    exact h.put_same hb (hok.next hc) hpid hlog
  next pid k =>
    split
    · exact h
    next b hb =>
    split
    · exact h
    next hfree =>
      exact h.row hb (Bool.eq_false_iff.2 hfree) hcur
  next pid =>
    split
    · exact h
    next b hb =>
    split
    · exact h.commit hb
    · exact h
  next pid => exact h.close pid

-- ==== soundness

/-- Only a commit changes what is committed. -/
theorem Server.step_db (s : Server) (e : Event) :
    (s.step e).db = s.db ∨
    ∃ pid b, e = .commit pid ∧ s.backends.find? pid = some b ∧ (s.step e).db = b.view s.db := by
  unfold Server.step
  split
  next =>
    left
    split <;> rfl
  next =>
    left
    split <;> rfl
  next =>
    left
    split
    · rfl
    · split <;> rfl
  next =>
    left
    split
    · rfl
    · split <;> rfl
  next pid =>
    split
    · exact Or.inl rfl
    next b hb =>
    split
    · exact Or.inr ⟨pid, b, rfl, hb, rfl⟩
    · exact Or.inl rfl
  next => exact Or.inl rfl

theorem Server.step_commit (hb : s.backends.find? pid = some b) (hidle : b.phase = .idle) :
    s.step (.commit pid) = { s.close pid with db := b.view s.db } := by
  unfold Server.step
  simp only [hb, hidle]

theorem Server.find?_put (s : Server) (b : Backend) : (s.put b).backends.find? b.pid = some b := by
  unfold Server.put
  rw [Table.find?_put, if_pos rfl]

theorem Backend.row_pid (b : Backend) (db : Db) (k : Key) : (b.row db k).pid = b.pid := by
  unfold Backend.row
  split
  · split
    · split
      · rfl
      · rfl
    · rfl
  · rfl

theorem Allowed.not_acquired (hok : db.Ok) (h : Allowed db w) (hr : db.rows.find? o = some r)
    (hn : (w.apply db).rows.find? o = none) : r.state ≠ .acquired := by
  cases w with
  | put r' =>
    rw [Write.find?_apply_put] at hn
    split at hn
    · cases hn
    · simp [hr] at hn
  | gone o' =>
    rw [Write.find?_apply_gone] at hn
    split at hn
    next he =>
      cases h with
      | gone hlt =>
        intro hs
        have := hok.ahead o r hr hs
        omega
    next => simp [hr] at hn
  | start o' => exact absurd (hr.symm.trans hn) (Option.some_ne_none _)

theorem Server.Inv.deletes (h : s.Inv) (hcur : Current s e)
    (hr : r ∈ s.deleted e) : r.state ≠ .acquired := by
  unfold Server.deleted at hr
  split at hr
  next pid k =>
    split at hr
    next b b' hb hb' =>
      obtain ⟨hrow, hn⟩ := List.mem_filter.1 hr
      have hfind : (b.view s.db).rows.find? r.recordOffset = some r :=
        Table.find?_eq_some.2 ⟨hrow, rfl⟩
      have hn := of_decide_eq_true hn
      unfold Server.step at hb'
      simp only [hb] at hb'
      split at hb'
      next =>
        -- it waits
        cases hb.symm.trans hb'
        exact nomatch hfind.symm.trans hn
      next hfree =>
        have hok := h.backends b (Table.find?_eq_some.1 hb).1
        have hpid : pid = (b.row s.db k).pid := by
          rw [b.row_pid, (Table.find?_eq_some.1 hb).2]
        have hrow' : b' = b.row s.db k := by
          rw [hpid, Server.find?_put] at hb'
          exact (Option.some_inj.1 hb').symm
        rcases hok.row_cases (hcur.of_row hb (Bool.eq_false_iff.2 hfree)) with
          ⟨phase, -, he⟩ | ⟨w, phase, hall, -, -, he⟩
        · rw [hrow', he] at hn
          exact nomatch hfind.symm.trans hn
        · rw [hrow', he, Backend.view_wrote] at hn
          exact hall.not_acquired hok.view hfind hn
    next => cases hr
  next => cases hr

/-- A step with a current snapshot is sound. -/
theorem Server.Inv.sound (h : s.Inv) (hcur : Current s e) : Sound s e := by
  rcases s.step_db e with hdb | ⟨pid, b, rfl, hb, hdb⟩
  · refine ⟨by rw [hdb], fun o hle hlt => ?_, fun r hr => h.deletes hcur hr⟩
    rw [hdb] at hlt
    omega
  have hok := h.backends b (Table.find?_eq_some.1 hb).1
  refine ⟨?_, fun o hle hlt => ?_, fun r hr => h.deletes hcur hr⟩
  · rw [hdb]
    exact hok.since.start_le
  rw [hdb] at hlt
  unfold Server.before
  dsimp only
  rw [hb]
  exact hok.passed o hle hlt

end Kafgres.ShareGroup
