/-
Which rows are right after a crash.

Window rows are trimmed before anything is appended, and the log of a
commit marker is synced before the marker commits. Aborted ranges and
first offsets of open transactions rest on nothing: their request commits
them and its batches are synced later, if at all, and no step of the
start looks at them.
-/
import Kafgres.Broker.Start
import Kafgres.Lib.Run

namespace Kafgres.Start

open Storage Run List Function

variable {log log' : List Entry} {a : At} {p : Part}

/-- What a crash must leave: every batch that a row of an aborted range or
of an open transaction names. -/
def Keeps (s : System) : Op → Prop
  | .crash keep => ∀ k ∈ s.keys, (∀ x ∈ (s.part k).rows.aborted,
        x.last.offset < logEnd ((s.part k).cut (keep k))) ∧
      ∀ o ∈ (s.part k).rows.opens, ∀ a ∈ o.first, a.offset < logEnd ((s.part k).cut (keep k))
  | _ => True

instance (s : System) (op : Op) : Decidable (Keeps s op) := by
  cases op <;> dsimp only [Keeps] <;> infer_instance

-- ==== logs

/-- Batches follow one another. -/
structure Lined (log : List Entry) : Prop where
  ordered : log.Pairwise fun e f => e.last < f.base
  nonneg : ∀ e ∈ log, 0 ≤ e.base

theorem logEnd_append (log : List Entry) (e : Entry) : logEnd (log ++ [e]) = e.last + 1 := by
  simp [logEnd]

theorem Lined.lt_logEnd (h : Lined log) {e : Entry} (he : e ∈ log) : e.last < logEnd log := by
  rcases eq_nil_or_concat' log with rfl | ⟨init, l, rfl⟩
  · cases he
  rw [logEnd_append]
  rcases mem_append.1 he with he | he
  · have hlt := (pairwise_append.1 h.ordered).2.2 e he l (mem_singleton.2 rfl)
    have := l.base_le_last
    omega
  · rw [mem_singleton.1 he]
    omega

theorem Lined.logEnd_nonneg (h : Lined log) : 0 ≤ logEnd log := by
  rcases eq_nil_or_concat' log with rfl | ⟨init, l, rfl⟩
  · exact Int.le_refl 0
  rw [logEnd_append]
  have := h.nonneg l (by simp)
  have := l.base_le_last
  omega

theorem Lined.take (h : Lined log) (n : ℕ) : Lined (log.take n) :=
  ⟨h.ordered.take, fun e he => h.nonneg e (mem_of_mem_take he)⟩

/-- The end of a log bounds its batches from above, and is no higher
than it has to be. -/
theorem logEnd_le {b : ℤ} (h0 : 0 ≤ b) (h : ∀ e ∈ log, e.last < b) : logEnd log ≤ b := by
  rcases eq_nil_or_concat' log with rfl | ⟨init, l, rfl⟩
  · exact h0
  · rw [logEnd_append]
    exact h l (by simp)

theorem Lined.append (h : Lined log) (n delta : ℕ) :
    Lined (log ++ [⟨logEnd log, logEnd log + delta, n, by omega⟩]) := by
  constructor
  · refine pairwise_append.2 ⟨h.ordered, pairwise_singleton .., ?_⟩
    intro e he f hf
    rw [mem_singleton.1 hf]
    exact h.lt_logEnd he
  · exact forall_mem_append.2 ⟨h.nonneg, forall_mem_singleton.2 h.logEnd_nonneg⟩

theorem Holds.mono (h : Holds log a) (hsub : log ⊆ log') : Holds log' a := by
  obtain ⟨e, he, hat⟩ := h
  exact ⟨e, hsub he, hat⟩

theorem Holds.lt_logEnd (h : Holds log a) (hl : Lined log) : a.offset < logEnd log := by
  obtain ⟨e, he, rfl⟩ := h
  have hlast := hl.lt_logEnd he
  have hle := e.base_le_last
  show e.base < _
  omega

/-- A batch below the end of what a crash leaves is left. -/
theorem Holds.take (h : Holds log a) (hl : Lined log) {n : ℕ}
    (hlt : a.offset < logEnd (log.take n)) : Holds (log.take n) a := by
  obtain ⟨e, he, rfl⟩ := h
  refine ⟨e, ?_, rfl⟩
  have hsplit := take_append_drop n log
  rw [← hsplit] at he
  refine (mem_append.1 he).resolve_right fun hdrop => ?_
  have hord := hl.ordered
  rw [← hsplit] at hord
  have hafter : logEnd (log.take n) ≤ e.base := logEnd_le (hl.nonneg e (mem_of_mem_drop hdrop))
      fun f hf => (pairwise_append.1 hord).2.2 f hf e hdrop
  exact absurd hlt (Int.not_lt.2 hafter)

theorem Lined.logEnd_take_le (h : Lined log) (n : ℕ) : logEnd (log.take n) ≤ logEnd log :=
  logEnd_le h.logEnd_nonneg fun _ he =>
    h.lt_logEnd (mem_of_mem_take he)

-- ==== one partition

/-- Where each kind of row of a partition is held. -/
structure Sound (raised : Bool) (p : Part) : Prop where
  lined : Lined p.log
  windows : ∀ id, ∀ w ∈ p.rows.windows id, ∀ a, w.baseOffset = some a →
    Holds p.log a ∨ raised = false ∧ logEnd p.log ≤ a.offset
  markers : ∀ m ∈ p.rows.markers, Holds (p.log.take p.synced) m.base
  aborted : ∀ x ∈ p.rows.aborted, Holds p.log x.first ∧
    Holds p.log x.last ∧ x.first.offset ≤ x.last.offset
  opens : ∀ o ∈ p.rows.opens, ∀ a, o.first = some a → Holds p.log a

section

variable (h : Sound true p)
include h

/-- Nothing is named that the log does not hold. -/
theorem Sound.names (hn : p.rows.Names a) : Holds p.log a := by
  cases hn with
  | window hw ha =>
    exact (h.windows _ _ hw a ha).resolve_right fun hf => nomatch hf.1
  | marker hm => exact (h.markers _ hm).mono (take_subset _ _)
  | abortedFirst hx => exact (h.aborted _ hx).1
  | abortedLast hx => exact (h.aborted _ hx).2.1
  | opened ho ha => exact h.opens _ ho a ha

/-- The rows stay as they are while the log grows. -/
theorem Sound.grow {log' : List Entry} (hpre : p.log <+: log') (hl : Lined log') :
    Sound true { p with log := log' } := by
  constructor
  · exact hl
  · intro id w hw a ha
    rcases h.windows id w hw a ha with hold | hf
    · exact .inl (hold.mono hpre.subset)
    · exact nomatch hf.1
  · intro m hm
    exact (h.markers m hm).mono (hpre.take p.synced).subset
  · intro x hx
    obtain ⟨hf, hlast, hle⟩ := h.aborted x hx
    exact ⟨hf.mono hpre.subset, hlast.mono hpre.subset, hle⟩
  · intro o ho a ha
    exact (h.opens o ho a ha).mono hpre.subset

theorem Sound.append (n delta : ℕ) : Sound true (p.append n delta) :=
  h.grow (prefix_append ..) (h.lined.append n delta)

/-- Window rows that are old ones or name a batch of the log. -/
theorem Sound.setWindows {rows : Rows} (hrest : rows.markers = p.rows.markers ∧
      rows.aborted = p.rows.aborted ∧ rows.opens = p.rows.opens)
    (hw : ∀ id, ∀ w ∈ rows.windows id, ∀ a, w.baseOffset = some a →
      Holds p.log a) : Sound true { p with rows := rows } := by
  obtain ⟨hmarkers, haborted, hopens⟩ := hrest
  constructor
  · exact h.lined
  · exact fun id w hmem a ha => .inl (hw id w hmem a ha)
  · rw [hmarkers]
    exact h.markers
  · rw [haborted]
    exact h.aborted
  · rw [hopens]
    exact h.opens

theorem Sound.window {id : ℤ} {w : WindowRow}
    (hw : w ∈ p.rows.windows id) (ha : w.baseOffset = some a) : Holds p.log a :=
  (h.windows id w hw a ha).resolve_right fun hf => nomatch hf.1

/-- Only the window of one producer changes. -/
theorem Sound.onWindow (id : ℤ) {f : List WindowRow → List WindowRow}
    (hf : ∀ w ∈ f (p.rows.windows id), ∀ a, w.baseOffset = some a →
      Holds p.log a) : Sound true { p with rows := p.rows.onWindow id f } := by
  refine h.setWindows ⟨rfl, rfl, rfl⟩ fun id' w hw a ha => ?_
  have hw' : w ∈ update p.rows.windows id (f (p.rows.windows id)) id' := hw
  rw [update_apply] at hw'
  split at hw'
  · exact hf w hw' a ha
  · exact h.window hw' ha

theorem Sound.setOpens {opens : List OpenRow}
    (ho : ∀ o ∈ opens, ∀ a, o.first = some a → Holds p.log a) :
    Sound true { p with rows := { p.rows with opens := opens } } :=
  { h with opens := ho }

/-- A marker, and the range it closes. -/
theorem Sound.mark (n : ℕ) (id : ℤ) (committed : Bool) : Sound true (p.mark n id committed) := by
  have hq := h.append n 0
  have hforget : ∀ {rows : Rows}, Sound true { p.append n 0 with
      rows := rows } → Sound true { p.append n 0 with
      rows := rows.forgetTxn id } := by
    intro rows hr
    exact hr.setOpens fun o ho => hr.opens o (mem_filter.1 ho).1
  unfold Part.mark
  apply hforget
  split
  next f hfirst =>
    -- an abort of a transaction that has written here
    obtain ⟨o, hfind, hof⟩ := Option.bind_eq_some_iff.1 hfirst
    have hheld : Holds p.log f := h.opens o (mem_of_find?_eq_some hfind) f hof
    have hnew : Holds (p.append n 0).log ⟨logEnd p.log, n⟩ :=
      ⟨_, mem_append_right _ (mem_singleton.2 rfl), rfl⟩
    refine { hq with aborted := ?_ }
    intro x hx
    rcases mem_append.1 hx with hx | hx
    · exact hq.aborted x (mem_filter.1 hx).1
    · rw [mem_singleton.1 hx]
      exact ⟨hheld.mono (subset_append_left ..), hnew, Int.le_of_lt (hheld.lt_logEnd h.lined)⟩
  next => exact hq

/-- One action of a request. -/
theorem Sound.act (n : ℕ) (act : Action) : Sound true (p.act n act) := by
  cases act with
  | append delta => exact h.append n delta
  | mark id committed => exact h.mark n id committed
  | reserve id epoch first last =>
    refine h.onWindow id fun w hw a ha => ?_
    rcases Recency.mem_put hw with rfl | ⟨hold, -⟩
    · cases ha
    · exact h.window hold ha
  | release id first =>
    refine h.onWindow id fun w hw a ha => ?_
    exact h.window (mem_filter.1 hw).1 ha
  | stamp id first place =>
    dsimp only [Part.act]
    cases he : p.log[place]? with
    | none => exact h
    | some e =>
      refine h.onWindow id fun w hw a ha => ?_
      obtain ⟨v, hv, rfl⟩ := mem_map.1 hw
      split at ha
      · cases ha
        exact ⟨e, mem_of_getElem? he, rfl⟩
      · exact h.window hv ha
  | register id =>
    show Sound true { p with rows := p.rows.register id }
    unfold Rows.register
    split
    · exact h
    refine h.setOpens fun o ho a ha => ?_
    rcases mem_append.1 ho with ho | ho
    · exact h.opens o ho a ha
    · simp [mem_singleton.1 ho] at ha
  | stampTxn id place =>
    dsimp only [Part.act]
    cases he : p.log[place]? with
    | none => exact h
    | some e =>
      refine h.setOpens fun o ho a ha => ?_
      obtain ⟨v, hv, rfl⟩ := mem_map.1 ho
      split at ha
      · cases ha
        exact ⟨e, mem_of_getElem? he, rfl⟩
      · exact h.opens v hv a ha

end

/-- An action only adds to the log. -/
theorem Part.act_log (p : Part) (n : ℕ) (act : Action) :
    p.log <+: (p.act n act).log ∧ (p.act n act).synced = p.synced := by
  cases act with
  | append | mark => exact ⟨prefix_append .., rfl⟩
  | stamp | stampTxn =>
    dsimp only [Part.act]
    split <;> exact ⟨prefix_rfl, rfl⟩
  | reserve | release | register => exact ⟨prefix_rfl, rfl⟩

variable {raised : Bool}

/-- A crash that keeps the ranges and the first offsets. -/
theorem Sound.crash (h : Sound raised p) {keep : ℕ} (haborted : ∀ x ∈ p.rows.aborted,
      x.last.offset < logEnd (p.cut keep)) (hopens : ∀ o ∈ p.rows.opens, ∀ a ∈ o.first,
      a.offset < logEnd (p.cut keep)) :
    Sound false { p with log := p.cut keep
                         synced := (p.cut keep).length } := by
  constructor
  · exact h.lined.take _
  · intro id w hw a ha
    rcases Int.lt_or_le a.offset (logEnd (p.cut keep)) with hlt | hge
    · rcases h.windows id w hw a ha with hold | ⟨-, hpast⟩
      · exact .inl (hold.take h.lined hlt)
      · have := h.lined.logEnd_take_le (max p.synced keep)
        exact absurd (Int.lt_of_lt_of_le hlt this) (Int.not_lt.2 hpast)
    · exact .inr ⟨rfl, hge⟩
  · intro m hm
    rw [take_length]
    refine (h.markers m hm).mono fun e he => ?_
    exact (take_prefix_take_left (Nat.le_max_left ..)).subset he
  · intro x hx
    obtain ⟨hf, hlast, hle⟩ := h.aborted x hx
    have hlt := haborted x hx
    exact ⟨hf.take h.lined (Int.lt_of_le_of_lt hle hlt), hlast.take h.lined hlt, hle⟩
  · intro o ho a ha
    exact (h.opens o ho a ha).take h.lined (hopens o ho a ha)

/-- The window trim of a start. -/
theorem Sound.raise (h : Sound raised p) :
    Sound true { p with rows := p.rows.forgetPast (logEnd p.log) } := by
  refine { h with windows := ?_ }
  intro id w hw a ha
  obtain ⟨hold, hlt⟩ := mem_filter.1 hw
  have hlt' : a.offset < logEnd p.log := by simpa [ha] using hlt
  rcases h.windows id w hold a ha with hheld | ⟨-, hpast⟩
  · exact .inl hheld
  · exact absurd hpast (Int.not_le.2 hlt')

theorem Sound.dropMarkers (h : Sound raised p) (ending : ℤ) :
    Sound raised { p with rows := p.rows.dropMarkers ending } :=
  { h with markers := fun m hm => h.markers m (mem_filter.1 hm).1 }

/-- More of the log is synced. -/
theorem Sound.sync (h : Sound raised p) : Sound raised { p with synced := p.log.length } := by
  refine { h with markers := fun m hm => ?_ }
  rw [take_length]
  exact (h.markers m hm).mono (take_subset _ _)

/-- Markers commit once their batches are synced. -/
theorem Sound.commit (h : Sound raised p) {rows : List MarkerRow}
    (hrows : ∀ m ∈ rows, Holds p.log m.base) :
    Sound raised (({ p with synced := p.log.length } : Part).commit rows) := by
  refine { h with markers := fun m hm => ?_ }
  rcases mem_append.1 hm with hm | hm
  · exact h.sync.markers m hm
  · show Holds (p.log.take p.log.length) m.base
    rw [take_length]
    exact hrows m hm

-- ==== the system

/-- Every partition is sound, and the log holds what open transactions
have appended. -/
structure Inv (s : System) : Prop where
  sound : ∀ k ∈ s.keys, Sound s.epochsRaised (s.part k)
  pending : ∀ q ∈ s.pending, Holds (s.part q.key).log q.row.base

/-- A request so far, against the state it started from. -/
structure Along (s t : System) : Prop where
  keys : t.keys = s.keys
  pending : t.pending = s.pending
  raised : t.epochsRaised = s.epochsRaised
  log : ∀ k, (s.part k).log <+: (t.part k).log
  synced : ∀ k, (t.part k).synced = (s.part k).synced
  sound : ∀ k ∈ s.keys, Sound true (t.part k)

theorem System.update_part (s : System) (k k' : Key) (f : Part → Part) :
    (s.update k f).part k' = if k' = k then f (s.part k') else s.part k' := by
  show Function.update s.part k (f (s.part k)) k' = _
  rw [Function.update_apply]
  split
  next h => rw [h]
  next => rfl

variable {s : System} {t : System}

theorem Along.act (h : Along s t) (a : Key × Action) : Along s (t.act a) := by
  have hpart : ∀ k, (t.act a).part k = if k = a.1 then
      (t.part k).act t.appends a.2 else t.part k :=
    fun k => t.update_part a.1 k fun p => p.act t.appends a.2
  refine ⟨h.keys, h.pending, h.raised, ?_, ?_, ?_⟩
  · intro k
    rw [hpart]
    split
    · exact (h.log k).trans (Part.act_log ..).1
    · exact h.log k
  · intro k
    rw [hpart]
    split
    · exact (Part.act_log ..).2.trans (h.synced k)
    · exact h.synced k
  · intro k hk
    rw [hpart]
    split
    · exact (h.sound k hk).act ..
    · exact h.sound k hk

theorem Inv.along (h : Inv s) (hup : s.epochsRaised = true) : Along s s :=
  ⟨rfl, rfl, rfl, fun _ => prefix_rfl, fun _ => rfl, fun k hk => hup ▸ h.sound k hk⟩

/-- A request that commits. -/
theorem Along.inv (h : Along s t) (hs : Inv s) (hup : s.epochsRaised = true) : Inv t := by
  constructor
  · intro k hk
    rw [h.raised, hup]
    exact h.sound k (h.keys ▸ hk)
  · intro q hq
    exact (hs.pending q (h.pending ▸ hq)).mono (h.log q.key).subset

/-- A request that is rolled back: its batches stay in the logs. -/
theorem Along.rollback (h : Along s t) (hs : Inv s)
    (hup : s.epochsRaised = true) : Inv (s.rollback t) := by
  constructor
  · intro k hk
    have hk' : k ∈ s.keys := h.keys ▸ hk
    have hold : Sound true (s.part k) := hup ▸ hs.sound k hk'
    have hgrown := hold.grow (h.log k) (h.sound k hk').lined
    show Sound t.epochsRaised { t.part k with rows := (s.part k).rows }
    rw [h.raised, hup]
    refine { hgrown with markers := ?_ }
    rw [h.synced k]
    exact hgrown.markers
  · intro q hq
    exact (hs.pending q (h.pending ▸ hq)).mono (h.log q.key).subset

theorem Inv.request (h : Inv s) (hup : s.epochsRaised = true)
    (acts : List (Key × Action)) (commits : Bool) :
    Inv (if commits then acts.foldl System.act s else s.rollback (acts.foldl System.act s)) := by
  have hal : Along s (acts.foldl System.act s) :=
    foldl_inv (Along s) (fun _ a h => h.act a) (h.along hup) acts
  split
  · exact hal.inv h hup
  · exact hal.rollback h hup

theorem Inv.sqlProduce (h : Inv s) (hup : s.epochsRaised = true) (xact : ℕ) (k : Key) :
    Inv (s.sqlProduce xact k) := by
  have hal : Along s { s.update k fun p => p.append s.appends 0 with
      appends := s.appends + 1 } :=
    (h.along hup).act (k, .append 0)
  have hinv := hal.inv h hup
  unfold System.sqlProduce
  dsimp only
  split
  · exact ⟨hinv.sound, fun q hq => hinv.pending q (mem_filter.1 hq).1⟩
  refine ⟨hinv.sound, fun q hq => ?_⟩
  rcases mem_append.1 hq with hq | hq
  · exact hinv.pending q hq
  rw [mem_singleton.1 hq]
  rw [System.update_part, if_pos rfl]
  exact ⟨_, mem_append_right _ (mem_singleton.2 rfl), rfl⟩

theorem Inv.sqlCommit (h : Inv s) (xact : ℕ) (syncs : Bool) : Inv (s.sqlCommit xact syncs) := by
  unfold System.sqlCommit
  split
  · constructor
    · intro k hk
      show Sound s.epochsRaised (if _ then _ else _)
      split
      · apply (h.sound k hk).commit
        intro m hm
        obtain ⟨q, hq, rfl⟩ := mem_map.1 hm
        obtain ⟨hmine, hkey⟩ := mem_filter.1 hq
        rw [← of_decide_eq_true hkey]
        exact h.pending q (mem_filter.1 hmine).1
      · exact h.sound k hk
    · intro q hq
      have hheld := h.pending q (mem_filter.1 hq).1
      show Holds (Part.log (if _ then _ else _)) _
      split <;> exact hheld
  · exact ⟨h.sound, fun q hq => h.pending q (mem_filter.1 hq).1⟩

/-- Every step under the condition keeps the invariant. -/
theorem Inv.step (h : Inv s) {op : Op} (hok : Keeps s op) : Inv (s.step op) := by
  cases op with
  | request sql acts commits =>
    unfold System.step
    dsimp only
    split
    next hg => exact h.request (Bool.and_eq_true_iff.1 hg).1 _ commits
    next => exact h
  | sqlProduce xact k =>
    unfold System.step
    dsimp only
    split
    next hg => exact h.sqlProduce (Bool.and_eq_true_iff.1 hg).1 xact k
    next => exact h
  | sqlCommit xact syncs => exact h.sqlCommit xact syncs
  | sqlAbort xact =>
    exact ⟨h.sound, fun q hq => h.pending q (mem_filter.1 hq).1⟩
  | sync k =>
    constructor
    · intro k' hk'
      show Sound s.epochsRaised ((s.update k fun p => { p with synced := p.log.length }).part k')
      rw [System.update_part]
      split
      · exact (h.sound k' hk').sync
      · exact h.sound k' hk'
    · intro q hq
      show Holds ((s.update k fun p =>
        { p with synced := p.log.length }).part q.key).log q.row.base
      rw [System.update_part]
      split <;> exact h.pending q hq
  | crash keep =>
    refine ⟨fun k hk => ?_, nofun⟩
    exact (h.sound k hk).crash (hok k hk).1 (hok k hk).2
  | raise ok =>
    unfold System.step
    dsimp only
    split
    · exact h
    constructor
    · intro k hk
      show Sound true (if _ then _ else _)
      rw [if_pos hk]
      exact (h.sound k hk).raise
    · intro q hq
      show Holds (Part.log (if _ then _ else _)) _
      split <;> exact h.pending q hq
  | reconcile how =>
    unfold System.step
    dsimp only
    split
    · exact h
    cases how with
    | locked => exact h
    | failed => exact ⟨h.sound, h.pending⟩
    | ran skipped =>
      constructor
      · intro k hk
        show Sound s.epochsRaised (if _ then _ else _)
        split
        · exact (h.sound k hk).dropMarkers _
        · exact h.sound k hk
      · intro q hq
        show Holds (Part.log (if _ then _ else _)) _
        split <;> exact h.pending q hq

theorem Inv.init (keys : List Key) : Inv (System.init keys) := by
  refine ⟨fun k _ => ?_, nofun⟩
  exact ⟨⟨List.Pairwise.nil, nofun⟩, nofun, nofun, nofun, nofun⟩

theorem Inv.backed (h : Inv s) : s.Backed := by
  intro hserving k hk a hn
  have hup : s.epochsRaised = true := (Bool.and_eq_true_iff.1 hserving).1
  have hsound : Sound true (s.part k) := hup ▸ h.sound k hk
  have hheld := hsound.names hn
  exact ⟨hheld.lt_logEnd hsound.lined, hheld⟩

/-- In every run whose crashes leave the aborted ranges and the first
offsets of open transactions in the logs, every row names a batch that
is there whenever the broker serves: window rows and commit markers are
right after any crash. -/
theorem rows_backed (keys : List Key) (ops : List Op)
    (hok : EachStep System.step (System.init keys) ops Keeps) :
    Always System.step (System.init keys) ops System.Backed := by
  have hinv : Always System.step (System.init keys) ops Inv :=
    Always.of_eachStep (fun _ _ h hk => h.step hk) (Inv.init keys) hok
  exact fun pre hpre => (hinv pre hpre).backed

-- ==== what a crash leaves

def only : Key := ⟨1, 0, Key.one_ne_zero⟩

/-- The start of the broker, and a batch of a transaction. -/
def opening : List Op := [.raise true, .reconcile (.ran []), .request false
    [(only, .register 7), (only, .reserve 7 0 0 0), (only, .append 0),
     (only, .stamp 7 0 0), (only, .stampTxn 7 0)] true]

/-- A crash that keeps what was synced, and the start after it. -/
def restart : List Op := [.crash fun _ => 0, .raise true, .reconcile (.ran [])]

/-- The transaction is open at the crash, or was aborted before it. -/
def crashOpen : List Op := opening ++ restart

def crashAborted : List Op := opening ++ [.request false [(only, .mark 7 false)] true] ++ restart

/-- The broker serves from an empty log with an open transaction whose
first offset is 0, or with a range of aborted records from 0 to 1. -/
theorem rows_outlive_log :
    (¬ (crashOpen.foldl System.step (System.init [only])).Backed ∧
      ¬ (crashAborted.foldl System.step (System.init [only])).Backed) ∧
    ((crashAborted.foldl System.step (System.init [only])).part
      only).rows.aborted = [⟨7, ⟨0, 2⟩, ⟨1, 5⟩⟩] := by
  refine ⟨⟨fun h => ?_, fun h => ?_⟩, by decide⟩
  · have hlt := (h (by decide) only (by decide) ⟨0, 2⟩
      (.opened (o := ⟨7, some ⟨0, 2⟩⟩) (by decide) rfl)).1
    exact absurd hlt (by decide)
  · have hlt := (h (by decide) only (by decide) ⟨0, 2⟩
      (.abortedFirst (x := ⟨7, ⟨0, 2⟩, ⟨1, 5⟩⟩) (by decide))).1
    exact absurd hlt (by decide)

/-- The marker of the abort is synced, a batch of another producer and
an orphan are not; the crash takes those two. -/
def crashIdempotent : List Op := opening ++
  [.request false [(only, .mark 7 false)] true, .sync only,
   .request false [(only, .reserve 8 0 0 0), (only, .append 0), (only, .stamp 8 0 2)] true,
   .sqlProduce 5 only, .sqlAbort 5] ++ restart

theorem rows_backed_idempotent :
    EachStep System.step (System.init [only]) crashIdempotent Keeps ∧
    Always System.step (System.init [only]) crashIdempotent System.Backed :=
  have hok : EachStep System.step (System.init [only]) crashIdempotent Keeps := by decide
  ⟨hok, rows_backed [only] crashIdempotent hok⟩

end Kafgres.Start
