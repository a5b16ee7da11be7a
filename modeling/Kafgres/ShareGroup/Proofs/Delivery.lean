/-
Hand-outs of a share partition.

`advance_start_offset` deletes the rows below the start offset, where it
is kept that a record is finished. An acquire that read the start offset
before it moved finds no rows there and hands the records out as new.

Everything is said about one offset at a time, its cell.
-/
import Kafgres.ShareGroup.Partition
import Kafgres.Lib.Run

namespace Kafgres.ShareGroup

open List

variable {s : System} {db : Db} {rows : Rows} {r r' : Row}
  {start clock now o : ℤ} {cell cell' : Option Row} {n k : ℕ}

-- ==== the condition

/-- When the insert of an acquire runs, the start offset has not moved
past the one it works from. -/
def Fresh (s : System) : Op → Prop
  | .run index =>
    match s.jobs[index]? with
    | some ⟨_, _, .take _ start _ _⟩ => s.db.start ≤ start
    | _ => True
  | _ => True

instance (s : System) (op : Op) : Decidable (Fresh s op) :=
  match op with
  | .tick _ | .call .. => isTrue trivial
  | .run index => by
      unfold Fresh
      dsimp only
      split
      · infer_instance
      · exact isTrue trivial

-- ==== cells

/-- The row names a member and a time. -/
def Row.heldBy (r : Row) (member : String) (t : ℤ) : Prop :=
  r.state = .acquired ∧ r.memberId = some member ∧ r.acquiredUntil = some t

/-- What every cell keeps: `n` is how often the offset was handed out,
`done` that it was finished, `lock` the locks that members know of. -/
structure CellOk (start clock o : ℤ) (cell : Option Row) (n : ℕ)
    (done : Prop) (lock : String → ℤ → Prop) : Prop where
  fresh : cell = none → start ≤ o → n = 0 ∧ ¬ done
  bounded : n ≤ maxDeliveryAttempts
  attempts : ∀ r, cell = some r → r.state = .acquired →
    n ≤ r.deliveryCount ∧ r.deliveryCount ≤ maxDeliveryAttempts
  idle : ∀ r, cell = some r → r.state ≠ .acquired → r.memberId = none
  below : ∀ r, cell = some r → o < start → r.state ≠ .acquired
  done : done → start ≤ o → ∃ r, cell = some r ∧ r.state ≠ .acquired
  locked : ∀ m t, lock m t → clock < t → ∃ r, cell = some r ∧ r.heldBy m t

/-- A statement that hands nothing out leaves a row, or changes an
unfinished one without losing its count. -/
def Settles (r r' : Row) : Prop := r' = r ∨ (r.state = .acquired ∧
    (r'.state = .acquired → r'.deliveryCount = r.deliveryCount) ∧
    (r'.state ≠ .acquired → r'.memberId = none))

theorem Settles.trans {r'' : Row} (h : Settles r r') (h' : Settles r' r'') : Settles r r'' := by
  rcases h with rfl | ⟨hs, hcount, hidle⟩
  · exact h'
  · rcases h' with rfl | ⟨hs', hcount', hidle'⟩
    · exact .inr ⟨hs, hcount, hidle⟩
    · exact .inr ⟨hs, fun hs'' => (hcount' hs'').trans (hcount hs'), hidle'⟩

/-- What a statement can do to a cell, and how often it hands the offset
out. -/
inductive Turn (start now o : ℤ) : Option Row → Option Row → ℕ → Prop
  | absent : Turn start now o none none 0
  | settle {r r' : Row} (h : Settles r r') : Turn start now o (some r) (some r') 0
  | prune {r : Row} (h : o < start) : Turn start now o (some r) none 0
  | hand {r' : Row} (h : start ≤ o) (hstate : r'.state = .acquired)
      (hcount : r'.deliveryCount = 1) : Turn start now o none (some r') 1
  | again {r r' : Row} (h : r.lapsed now = true)
      (hstate : r'.state = .acquired)
      (hcount : r'.deliveryCount = r.deliveryCount + 1)
      (hmax : r'.deliveryCount ≤ maxDeliveryAttempts) :
      Turn start now o (some r) (some r') 1

theorem Turn.keep (cell : Option Row) : Turn start now o cell cell 0 := by
  cases cell with
  | none => exact .absent
  | some r => exact .settle (.inl rfl)

theorem Row.lapsed_state (h : r.lapsed now = true) : r.state = .acquired := by
  unfold Row.lapsed at h
  rw [Bool.and_eq_true] at h
  exact of_decide_eq_true h.1

variable {member : String} {t : ℤ}

/-- A row whose lock lapsed is under no lock any more. -/
theorem Row.lapsed_until (h : r.lapsed now = true) (hr : r.heldBy member t) : t ≤ now := by
  unfold Row.lapsed Row.live at h
  rw [hr.2.2] at h
  simpa [hr.1] using h

variable {lock : String → ℤ → Prop} {done : Prop}

/-- An unfinished record at or past the start offset was not finished. -/
theorem CellOk.not_done (h : CellOk start clock o (some r) n done lock)
    (hs : r.state = .acquired) (hle : start ≤ o) : ¬ done := by
  intro hd
  obtain ⟨r₀, hr₀, hs₀⟩ := h.done hd hle
  cases hr₀
  exact hs₀ hs

section

variable (h : CellOk start clock o cell n done lock)
include h

/-- The step lemma: after a turn and a look at the rows the cell is as
before. -/
theorem CellOk.turn (ht : Turn start now o cell cell' k) :
    CellOk start clock o cell' (n + k) (done ∨ ∃ r, cell' = some r ∧ r.state ≠ .acquired)
      (fun m t => (cell' = none ∧ lock m t) ∨ ∃ r, cell' = some r ∧ r.heldBy m t) := by
  have hlocked : (cell' = none → ∀ r, cell = some r → r.state ≠ .acquired) →
      ∀ m t, ((cell' = none ∧ lock m t) ∨ ∃ r, cell' = some r ∧ r.heldBy m t) → clock < t →
        ∃ r, cell' = some r ∧ r.heldBy m t := by
    intro hgone m t hl hlt
    rcases hl with ⟨hnone, hl⟩ | hl
    · obtain ⟨r, hr, hheld⟩ := h.locked m t hl hlt
      exact absurd hheld.1 (hgone hnone r hr)
    · exact hl
  cases ht with
  | absent =>
    refine ⟨?_, h.bounded, h.attempts, h.idle, h.below, ?_, hlocked fun _ => nofun⟩
    · exact fun _ hle => ⟨(h.fresh rfl hle).1, fun hd => hd.elim (h.fresh rfl hle).2 nofun⟩
    · exact fun hd hle => hd.elim (h.done · hle) id
  | @settle r r' hsettle =>
    rcases hsettle with rfl | ⟨hs, hcount, hidle⟩
    · refine ⟨nofun, h.bounded, h.attempts, h.idle, h.below, ?_, hlocked nofun⟩
      exact fun hd hle => hd.elim (h.done · hle) id
    · refine ⟨nofun, h.bounded, ?_, ?_, ?_, ?_, hlocked nofun⟩
      · rintro _ ⟨⟩ hs₁
        rw [hcount hs₁]
        exact h.attempts r rfl hs
      · rintro _ ⟨⟩
        exact hidle
      · exact fun r₁ _ hlt => absurd hs (h.below r rfl hlt)
      · exact fun hd hle => hd.resolve_left (h.not_done hs hle)
  | @prune r hlt =>
    have hpast : ¬ start ≤ o := by omega
    refine ⟨fun _ hle => absurd hle hpast, h.bounded, nofun, nofun, nofun,
      fun _ hle => absurd hle hpast, ?_⟩
    apply hlocked
    intro _ r₁ hr₁
    exact h.below r₁ hr₁ hlt
  | @hand r' hle hstate hcount =>
    have hzero := (h.fresh rfl hle).1
    have hpast : ¬ o < start := by omega
    refine ⟨nofun, ?_, ?_, ?_, fun _ _ hlt => absurd hlt hpast, ?_, hlocked nofun⟩
    · rw [hzero]
      decide
    · rintro _ ⟨⟩ _
      rw [hzero, hcount]
      decide
    · rintro _ ⟨⟩ hs₁
      exact absurd hstate hs₁
    · exact fun hd _ => hd.resolve_left (h.fresh rfl hle).2
  | @again r r' hlapsed hstate hcount hmax =>
    have hs := r.lapsed_state hlapsed
    obtain ⟨hn, -⟩ := h.attempts r rfl hs
    constructor
    · exact nofun
    · omega
    · rintro _ ⟨⟩ _
      omega
    · rintro _ ⟨⟩ hs₁
      exact absurd hstate hs₁
    · exact fun _ _ hlt => absurd hs (h.below r rfl hlt)
    · exact fun hd hle => hd.resolve_left (h.not_done hs hle)
    · exact hlocked nofun

/-- A turn that hands the offset out finds it neither finished nor under
a lock. -/
theorem CellOk.handed (hnow : now ≤ clock) (ht : Turn start now o cell cell' k) (hk : 0 < k) :
    ¬ done ∧ ∀ m t, lock m t → t ≤ clock := by
  cases ht with
  | absent | settle | prune => omega
  | hand hle =>
    refine ⟨(h.fresh rfl hle).2, fun m t hl => ?_⟩
    by_contra hlt
    obtain ⟨r, hr, -⟩ := h.locked m t hl (by omega)
    cases hr
  | @again r r' hlapsed =>
    have hs := r.lapsed_state hlapsed
    refine ⟨h.not_done hs ?_, fun m t hl => ?_⟩
    · by_contra hlt
      exact h.below r rfl (by omega) hs
    · by_contra hlt
      obtain ⟨r₀, hr₀, hheld⟩ := h.locked m t hl (by omega)
      cases hr₀
      have := r.lapsed_until hlapsed hheld
      omega

/-- The start offset moves over a finished record. -/
theorem CellOk.advance {start' : ℤ} (hle : start ≤ start')
    (hover : start ≤ o → o < start' → ∃ r, cell = some r ∧ r.state ≠ .acquired) :
    CellOk start' clock o cell n done lock := by
  refine ⟨?_, h.bounded, h.attempts, h.idle, ?_, fun hd ho => h.done hd (hle.trans ho), h.locked⟩
  · exact fun hnone ho => h.fresh hnone (hle.trans ho)
  intro r hr hlt
  by_cases ho : start ≤ o
  · obtain ⟨r₀, hr₀, hs₀⟩ := hover ho hlt
    cases hr.symm.trans hr₀
    exact hs₀
  · exact h.below r hr (by omega)

theorem CellOk.tick {clock' : ℤ} (hle : clock ≤ clock') : CellOk start clock' o cell n done lock :=
  ⟨h.fresh, h.bounded, h.attempts, h.idle, h.below, h.done,
    fun m t hl hlt => h.locked m t hl (by omega)⟩

end

-- ==== statements

/-- Every row settles, and none comes or goes. -/
def RowsSettle (rows rows' : Rows) : Prop := ∀ o, (rows.find? o = none → rows'.find? o = none) ∧
    ∀ r, rows.find? o = some r → ∃ r', rows'.find? o = some r' ∧ Settles r r'

theorem RowsSettle.refl (rows : Rows) : RowsSettle rows rows :=
  fun _ => ⟨id, fun r hr => ⟨r, hr, .inl rfl⟩⟩

variable {rows' : Rows} {kind : Ack} {job : Job} {m : String} {index limit : ℕ} {first last : ℤ}

theorem RowsSettle.trans {rows'' : Rows} (h : RowsSettle rows rows')
    (h' : RowsSettle rows' rows'') : RowsSettle rows rows'' := by
  intro o
  refine ⟨fun hnone => (h' o).1 ((h o).1 hnone), fun r hr => ?_⟩
  obtain ⟨r', hr', hs⟩ := (h o).2 r hr
  obtain ⟨r'', hr'', hs'⟩ := (h' o).2 r' hr'
  exact ⟨r'', hr'', hs.trans hs'⟩

theorem RowsSettle.turn (h : RowsSettle rows rows') (o : ℤ) :
    Turn start now o (rows.find? o) (rows'.find? o) 0 := by
  cases hr : rows.find? o with
  | none =>
    rw [(h o).1 hr]
    exact .absent
  | some r =>
    obtain ⟨r', hr', hs⟩ := (h o).2 r hr
    rw [hr']
    exact .settle hs

/-- An update that settles the rows it applies to. -/
theorem rowsSettle_updateWhere {p : Row → Bool} {set : Row → Row}
    (same : ∀ r, (set r).recordOffset = r.recordOffset)
    (h : ∀ o r, rows.find? o = some r → p r = true → Settles r (set r)) :
    RowsSettle rows (rows.updateWhere p set same) := by
  intro o
  rw [Table.find?_updateWhere]
  constructor
  · intro hnone
    rw [hnone]
    rfl
  intro r hr
  rw [hr]
  refine ⟨_, rfl, ?_⟩
  dsimp only
  split
  next hp => exact h o r hr hp
  next => exact .inl rfl

/-- Finished rows name no member. -/
def Idle (rows : Rows) : Prop :=
  ∀ o r, rows.find? o = some r → r.state ≠ .acquired → r.memberId = none

theorem Settles.idle (h : Settles r r') (hr : r.state ≠ .acquired → r.memberId = none) :
    r'.state ≠ .acquired → r'.memberId = none := by
  rcases h with rfl | ⟨-, -, hidle⟩
  · exact hr
  · exact hidle

theorem Idle.settle (h : Idle rows) (hs : RowsSettle rows rows') : Idle rows' := by
  intro o r' hr'
  cases hr : rows.find? o with
  | none => exact nomatch ((hs o).1 hr).symm.trans hr'
  | some r =>
    obtain ⟨r₁, hr₁, hsettle⟩ := (hs o).2 r hr
    cases hr₁.symm.trans hr'
    exact hsettle.idle (h o r hr)

/-- An acknowledgement applies to unfinished rows only. -/
theorem Ack.applies_acquired (hidle : r.state ≠ .acquired → r.memberId = none)
    (hp : kind.applies member first last r = true) : r.state = .acquired := by
  unfold Ack.applies at hp
  simp only [Bool.and_eq_true, decide_eq_true_eq] at hp
  by_contra hs
  exact nomatch (hidle hs).symm.trans hp.1.2

theorem Ack.set_idle (kind : Ack) (lock : ℤ) (hs : r.state = .acquired) :
    (kind.set lock r).state ≠ .acquired → (kind.set lock r).memberId = none := by
  cases kind with
  | gap | accept | reject | release => exact fun _ => rfl
  | renew => exact fun h => absurd hs h

theorem rowsSettle_ackUpdate (h : Idle rows) (member : String)
    (first last : ℤ) (kind : Ack) (lock : ℤ) :
    RowsSettle rows (ackUpdate rows member first last kind lock) := by
  apply rowsSettle_updateWhere
  intro o r hr hp
  have hstate := Ack.applies_acquired (h o r hr) hp
  refine .inr ⟨hstate, ?_, kind.set_idle lock hstate⟩
  cases kind with
  | gap | accept | reject => exact nofun
  | release | renew => exact fun _ => rfl

theorem rowsSettle_ackOne (h : Idle rows) {lock : ℤ}
    (ha : ackOne rows member o kind lock = some rows') : RowsSettle rows rows' := by
  unfold ackOne at ha
  split at ha
  · cases ha
    exact rowsSettle_ackUpdate h _ _ _ _ _
  · cases ha

theorem rowsSettle_ackAll (h : Idle rows) {lock : ℤ} {left : List (ℤ × Ack)}
    (ha : ackAll rows member lock left = some rows') : RowsSettle rows rows' := by
  induction left generalizing rows with
  | nil =>
    cases ha
    exact .refl _
  | cons p left ih =>
    obtain ⟨o, kind⟩ := p
    unfold ackAll at ha
    cases hone : ackOne rows member o kind lock with
    | none =>
      simp [hone] at ha
    | some rows₁ =>
      rw [hone] at ha
      have hs := rowsSettle_ackOne h hone
      exact hs.trans (ih (h.settle hs) ha)

theorem settles_unlock (hs : r.state = .acquired) : Settles r r.unlock :=
  .inr ⟨hs, fun _ => rfl, fun hs' => absurd hs hs'⟩

theorem rowsSettle_releaseAll (rows : Rows) (member : String) :
    RowsSettle rows (releaseAll rows member) := by
  apply rowsSettle_updateWhere
  intro o r _ hp
  rw [Bool.and_eq_true] at hp
  exact settles_unlock (of_decide_eq_true hp.2)

theorem rowsSettle_expire (rows : Rows) (now : ℤ) (reached : List ℤ) :
    RowsSettle rows (expire rows now reached) := by
  apply rowsSettle_updateWhere
  intro o r _ hp
  simp only [Bool.and_eq_true] at hp
  exact settles_unlock (of_decide_eq_true hp.1.2)

-- ==== acquire

theorem mem_series : o ∈ series first last ↔ first ≤ o ∧ o ≤ last := by
  unfold series
  simp only [mem_map, mem_range]
  constructor
  · rintro ⟨i, hi, rfl⟩
    omega
  · intro h
    exact ⟨(o - first).toNat, by omega, by omega⟩

theorem nodup_series (first last : ℤ) : (series first last).Nodup := by
  refine List.Nodup.map ?_ nodup_range
  intro i j h
  have h' : first + (i : ℤ) = first + j := h
  omega

theorem nodup_candidates (rows : Rows) (now first last : ℤ) (limit : ℕ) :
    (candidates rows now first last limit).Nodup :=
  ((nodup_series first last).sublist filter_sublist).sublist (take_sublist _ _)

theorem mem_candidates (h : o ∈ candidates rows now first last limit) :
    first ≤ o ∧ free rows now o = true := by
  obtain ⟨hs, hf⟩ := mem_filter.1 (mem_of_mem_take h)
  exact ⟨(mem_series.1 hs).1, hf⟩

/-- The row of a candidate after the insert. -/
def taken (member : String) (lock o : ℤ) (cell : Option Row) : Row :=
  cell.elim ⟨o, .acquired, 1, some member, some lock⟩ fun r => r.again member lock

theorem find?_takeOne {lock o' : ℤ} (hfree : free rows now o' = true) :
    (takeOne now member lock rows o').find? o =
      if o = o' then some (taken member lock o (rows.find? o))
      else rows.find? o := by
  unfold takeOne
  rw [Table.find?_upsert]
  split
  next he =>
    subst he
    unfold free at hfree
    cases hr : rows.find? o with
    | none => rfl
    | some r =>
      rw [hr] at hfree
      show some (if r.lapsed now = true then _ else r) = _
      rw [if_pos hfree]
      rfl
  next => rfl

theorem find?_foldl_takeOne {lock : ℤ} {cs : List ℤ} (hnodup : cs.Nodup)
    (hfree : ∀ o ∈ cs, free rows now o = true) :
    (cs.foldl (takeOne now member lock) rows).find? o =
      if o ∈ cs then some (taken member lock o (rows.find? o))
      else rows.find? o := by
  induction cs generalizing rows with
  | nil => rfl
  | cons c cs ih =>
    obtain ⟨hc, hnodup⟩ := nodup_cons.1 hnodup
    have hone : ∀ o, (takeOne now member lock rows c).find? o =
        if o = c then some (taken member lock o (rows.find? o))
        else rows.find? o :=
      fun o => find?_takeOne (hfree c (.head _))
    rw [foldl_cons, ih hnodup, hone]
    · -- a later candidate's row is not the one just written
      rcases eq_or_ne o c with rfl | hoc
      · simp [hc]
      · simp [hoc]
    · intro o' ho'
      have hne : o' ≠ c := fun he => hc (he ▸ ho')
      unfold free
      rw [hone, if_neg hne]
      exact hfree o' (.tail _ ho')

/-- The insert of an acquire that works from the start offset or past
it. -/
theorem take_turn {lock : ℤ} (hstart : start ≤ first) (o : ℤ) :
    Turn start now o (rows.find? o) (((candidates rows now first last limit).foldl
        (takeOne now member lock) rows).find? o)
      (((candidates rows now first last limit).filter (returned rows now)).count o) := by
  have hnodup := nodup_candidates rows now first last limit
  rw [find?_foldl_takeOne hnodup fun o ho => (mem_candidates ho).2]
  by_cases ho : o ∈ candidates rows now first last limit
  · obtain ⟨hle, hfree⟩ := mem_candidates ho
    rw [if_pos ho]
    have hcount : ((candidates rows now first last limit).filter
        (returned rows now)).count o = if returned rows now o then 1 else 0 := by
      split
      next hr =>
        exact count_eq_one_of_mem (hnodup.filter _) (mem_filter.2 ⟨ho, hr⟩)
      next hr =>
        exact count_eq_zero.2 fun hmem => hr (mem_filter.1 hmem).2
    rw [hcount]
    unfold returned taken
    unfold free at hfree
    cases hr : rows.find? o with
    | none => exact .hand (by omega) rfl rfl
    | some r =>
      rw [hr] at hfree
      show Turn start now o (some r) (some (r.again member lock)) _
      unfold Row.again
      by_cases hmax : r.deliveryCount + 1 > maxDeliveryAttempts
      · simp only [hfree, hmax, if_true, decide_true, Bool.not_true,
          Bool.and_false, Bool.false_eq_true, if_false]
        exact .settle (.inr ⟨r.lapsed_state hfree, nofun, fun _ => rfl⟩)
      · simp only [hfree, hmax, if_true, decide_false, Bool.not_false, Bool.and_true, if_false]
        exact .again hfree rfl rfl (by
          show r.deliveryCount + 1 ≤ maxDeliveryAttempts
          omega)
  · rw [if_neg ho, count_eq_zero.2 fun hmem =>
      ho (mem_filter.1 hmem).1]
    exact .keep _

-- ==== advance

/-- In an increasing list, an element at the distance of its position
from a lower bound has all numbers from the bound on before it. -/
theorem mem_of_run {l : List ℤ} (hsorted : l.Pairwise (· < ·))
    (hge : ∀ x ∈ l, start ≤ x) {i j : ℕ} (hmem : (o, j) ∈ l.zipIdx i)
    (hrun : o - j = start - i) {x : ℤ} (hx : start ≤ x) (hxo : x ≤ o) : x ∈ l := by
  induction l generalizing start i x with
  | nil => cases hmem
  | cons a l ih =>
    obtain ⟨hlt, hsorted⟩ := pairwise_cons.1 hsorted
    have ha := hge a (.head _)
    rw [zipIdx_cons] at hmem
    rcases mem_cons.1 hmem with hhead | htail
    · cases hhead
      have : x = o := by omega
      rw [this]
      exact .head _
    · have hge' : ∀ x ∈ l, start + 1 ≤ x := by
        intro x hx
        have := hlt x hx
        omega
      have hrest : ∀ x, start + 1 ≤ x → x ≤ o → x ∈ l := fun x hx hxo =>
        ih hsorted hge' htail (by push_cast; omega) hx hxo
      by_cases hxs : x = start
      · -- the list has start + 1, so it begins no later than start
        subst hxs
        have hnext := hrest (x + 1) le_rfl (hge' o (fst_mem_of_mem_zipIdx htail))
        have := hlt _ hnext
        have : a = x := by omega
        rw [this]
        exact .head _
      · exact .tail _ (hrest x (by omega) hxo)

theorem mem_finishedFrom :
    o ∈ finishedFrom db ↔ db.start ≤ o ∧ ∃ r, db.rows.find? o = some r ∧ r.state ≠ .acquired := by
  unfold finishedFrom
  rw [(perm_insertionSort _ _).mem_iff, mem_map]
  constructor
  · rintro ⟨r, hr, rfl⟩
    obtain ⟨hmem, hp⟩ := mem_filter.1 hr
    simp only [Bool.and_eq_true, decide_eq_true_eq] at hp
    exact ⟨hp.2, r, Table.find?_eq_some.2 ⟨hmem, rfl⟩, hp.1⟩
  · rintro ⟨hle, r, hr, hs⟩
    obtain ⟨hmem, rfl⟩ := Table.find?_eq_some.1 hr
    exact ⟨r, mem_filter.2 ⟨hmem, by simp [hs, hle]⟩, rfl⟩

theorem pairwise_finishedFrom (db : Db) : (finishedFrom db).Pairwise (· < ·) := by
  have hsorted : (finishedFrom db).Pairwise (· ≤ ·) := pairwise_insertionSort _ _
  have hnodup : (finishedFrom db).Nodup := (perm_insertionSort _ _).nodup_iff.2
    (db.rows.unique.sublist (filter_sublist.map _))
  exact (hsorted.and hnodup).imp fun h => lt_of_le_of_ne h.1 h.2

/-- The start offset does not move back, and moves over finished rows
only. -/
theorem advance_finished (db : Db) :
    db.start ≤ (advance db).start ∧ ∀ o, db.start ≤ o → o < (advance db).start →
      ∃ r, db.rows.find? o = some r ∧ r.state ≠ .acquired := by
  unfold advance
  dsimp only
  split
  next => exact ⟨le_rfl, fun o hle hlt => absurd hlt (by
    show ¬ o < db.start
    omega)⟩
  next top htop =>
  show db.start ≤ top + 1 ∧ ∀ o, db.start ≤ o → o < top + 1 → _
  obtain ⟨p, hp, rfl⟩ := mem_map.1 (max?_mem htop)
  obtain ⟨hmem, hrun⟩ := mem_filter.1 hp
  obtain ⟨top, j⟩ := p
  have hall : ∀ x, db.start ≤ x → x ≤ top → x ∈ finishedFrom db :=
    fun x hx hxt => mem_of_run (pairwise_finishedFrom db)
      (fun x hx => (mem_finishedFrom.1 hx).1) hmem
      (of_decide_eq_true hrun) hx hxt
  have := (mem_finishedFrom.1 (fst_mem_of_mem_zipIdx hmem)).1
  refine ⟨by dsimp only; omega, fun o hle hlt => ?_⟩
  exact (mem_finishedFrom.1 (hall o hle (by omega))).2

theorem prune_turn (db : Db) (o : ℤ) :
    Turn db.start now o (db.rows.find? o) ((prune db).rows.find? o) 0 := by
  unfold prune
  cases hoff : db.offset with
  | none => exact .keep _
  | some first =>
    have hstart : db.start = first := by
      unfold Db.start
      rw [hoff]
      rfl
    rw [Table.find?_delete, hstart]
    cases hr : db.rows.find? o with
    | none => exact .absent
    | some r =>
      obtain ⟨-, rfl⟩ := Table.find?_eq_some.1 hr
      by_cases hlt : r.recordOffset < first
      · rw [Option.filter_some, if_neg (by simp [hlt])]
        exact .prune hlt
      · rw [Option.filter_some, if_pos (by simp [hlt])]
        exact .keep _

-- ==== exec

/-- What the next statement of a call does: it turns each cell, or it
moves the start offset. -/
theorem exec_cases (hidle : Idle db.rows) (hfresh : ∀ member first upto limit,
      job.task = .take member first upto limit → db.start ≤ first) :
    ((exec db job).db.start = db.start ∧ ∀ o, Turn db.start job.now o (db.rows.find? o)
        ((exec db job).db.rows.find? o) (((exec db job).given.map Prod.fst).count o)) ∨
    ((exec db job).db = advance db ∧ (exec db job).given = []) := by
  have hsame : db.start = db.start ∧ ∀ o, Turn db.start job.now o
      (db.rows.find? o) (db.rows.find? o) 0 := ⟨rfl, fun o => .keep _⟩
  unfold exec
  split
  next =>
    split <;> exact .inl hsame
  next => exact .inl hsame
  next member first upto limit htask =>
    refine .inl ⟨rfl, fun o => ?_⟩
    rw [map_map, show Prod.fst ∘ (fun o : ℤ => (o, member)) = id from rfl, map_id]
    exact take_turn (hfresh member first upto limit htask) o
  next => exact .inl ⟨rfl, (rowsSettle_ackUpdate hidle _ _ _ _ _).turn⟩
  next => exact .inr ⟨rfl, rfl⟩
  next =>
    split
    · exact .inl hsame
    next ha => exact .inl ⟨rfl, (rowsSettle_ackOne hidle ha).turn⟩
  next =>
    split
    · exact .inl hsame
    next ha => exact .inl ⟨rfl, (rowsSettle_ackAll hidle ha).turn⟩
  next => exact .inl ⟨rfl, (rowsSettle_releaseAll _ _).turn⟩
  next => exact .inl ⟨rfl, (rowsSettle_expire _ _ _).turn⟩
  next => exact .inr ⟨rfl, rfl⟩
  next =>
    refine .inl ⟨?_, prune_turn db⟩
    unfold prune
    split <;> rfl

-- ==== runs

/-- What every state keeps. -/
structure Inv (s : System) : Prop where
  cells : ∀ o, CellOk s.db.start s.clock o (s.db.rows.find? o)
    ((s.handed.map Prod.fst).count o) (o ∈ s.finished)
    (fun m t => ⟨o, m, t⟩ ∈ s.locks)
  jobs : ∀ job ∈ s.jobs, job.now ≤ s.clock

theorem Inv.init : Inv {} := by
  refine ⟨?_, nofun⟩
  intro o
  exact ⟨fun _ _ => ⟨rfl, nofun⟩, Nat.zero_le _, nofun, nofun, nofun, nofun, nofun⟩

theorem Inv.idle (h : Inv s) : Idle s.db.rows := fun o r hr => (h.cells o).idle r hr

theorem mem_observe_finished :
    o ∈ s.observe.finished ↔ o ∈ s.finished ∨
      ∃ r, s.db.rows.find? o = some r ∧ r.state ≠ .acquired := by
  unfold System.observe
  rw [mem_append, mem_map]
  constructor
  · rintro (h | ⟨r, hr, rfl⟩)
    · exact .inl h
    · obtain ⟨hmem, hs⟩ := mem_filter.1 hr
      exact .inr ⟨r, Table.find?_eq_some.2 ⟨hmem, rfl⟩, by simpa using hs⟩
  · rintro (h | ⟨r, hr, hs⟩)
    · exact .inl h
    · obtain ⟨hmem, hk⟩ := Table.find?_eq_some.1 hr
      exact .inr ⟨r, mem_filter.2 ⟨hmem, by simpa using hs⟩, hk⟩

theorem lock_eq_some : r.lock = some ⟨o, m, t⟩ ↔ r.recordOffset = o ∧ r.heldBy m t := by
  unfold Row.lock Row.heldBy
  by_cases hs : r.state = .acquired
  · rw [if_pos hs]
    cases r.memberId with
    | none => simp
    | some m' =>
      cases r.acquiredUntil with
      | none => simp
      | some t' => simp [hs]
  · rw [if_neg hs]
    simp [hs]

theorem mem_observe_locks :
    ⟨o, m, t⟩ ∈ s.observe.locks ↔
      (s.db.rows.find? o = none ∧ ⟨o, m, t⟩ ∈ s.locks) ∨
        ∃ r, s.db.rows.find? o = some r ∧ r.heldBy m t := by
  unfold System.observe
  rw [mem_append, mem_filter, mem_filterMap, Table.find?_eq_none, decide_eq_true_eq, and_comm]
  apply or_congr_right
  constructor
  · rintro ⟨r, hr, hl⟩
    obtain ⟨hk, hheld⟩ := lock_eq_some.1 hl
    exact ⟨r, Table.find?_eq_some.2 ⟨hr, hk⟩, hheld⟩
  · rintro ⟨r, hr, hheld⟩
    obtain ⟨hmem, hk⟩ := Table.find?_eq_some.1 hr
    exact ⟨r, hmem, lock_eq_some.2 ⟨hk, hheld⟩⟩

/-- A call's next statement, in a state where its start offset is
fresh. -/
theorem exec_fresh (h : Inv s) (hjob : s.jobs[index]? = some job) (hok : Fresh s (.run index)) :
    (((exec s.db job).db.start = s.db.start ∧ ∀ o, Turn s.db.start job.now o (s.db.rows.find? o)
        ((exec s.db job).db.rows.find? o) (((exec s.db job).given.map Prod.fst).count o)) ∨
    ((exec s.db job).db = advance s.db ∧ (exec s.db job).given = [])) := by
  apply exec_cases h.idle
  intro member first upto limit htask
  unfold Fresh at hok
  dsimp only at hok
  rw [hjob] at hok
  obtain ⟨now, lockMs, task⟩ := job
  cases htask
  exact hok

theorem Inv.run (h : Inv s) (hjob : s.jobs[index]? = some job) (hok : Fresh s (.run index)) :
    Inv (s.run index job).observe := by
  have hmem : job ∈ s.jobs := mem_of_getElem? hjob
  constructor
  · intro o
    simp only [mem_observe_finished, mem_observe_locks]
    show CellOk (exec s.db job).db.start s.clock o ((exec s.db job).db.rows.find? o)
      (((s.handed ++ (exec s.db job).given).map Prod.fst).count o) _ _
    rw [map_append, count_append]
    rcases exec_fresh h hjob hok with ⟨hstart, hturn⟩ | ⟨hdb, hgiven⟩
    · rw [hstart]
      exact (h.cells o).turn (hturn o)
    rw [hdb, hgiven, show (s.run index job).db = advance s.db from hdb]
    obtain ⟨hle, hover⟩ := advance_finished s.db
    have hkeep : Turn s.db.start job.now o (s.db.rows.find? o) (s.db.rows.find? o) 0 := .keep _
    exact ((h.cells o).turn hkeep).advance hle (hover o)
  · intro job' hjob'
    have hcases : job' ∈ s.jobs ∨ ∃ task, job' = { job with task := task } := by
      unfold System.observe System.run at hjob'
      dsimp only at hjob'
      split at hjob'
      · exact .inl (mem_of_mem_eraseIdx hjob')
      · rcases mem_or_eq_of_mem_set hjob' with hj | hj
        · exact .inl hj
        · exact .inr ⟨_, hj⟩
    rcases hcases with hj | ⟨task, rfl⟩
    · exact h.jobs job' hj
    · exact h.jobs job hmem

theorem Inv.step (s : System) (op : Op) (h : Inv s) (hok : Fresh s op) : Inv (s.step op) := by
  cases op with
  | tick ms =>
    have hle : s.clock ≤ s.clock + ms := by omega
    exact ⟨fun o => (h.cells o).tick hle, fun job hjob => (h.jobs job hjob).trans hle⟩
  | call age lockMs call =>
    unfold System.step
    dsimp only
    split
    · exact h
    refine ⟨h.cells, ?_⟩
    refine forall_mem_append.2 ⟨h.jobs, forall_mem_singleton.2 ?_⟩
    show s.clock - (age : ℤ) ≤ s.clock
    omega
  | run index =>
    unfold System.step
    dsimp only
    cases hjob : s.jobs[index]? with
    | none => exact h
    | some job => exact h.run hjob hok

/-- A step that meets the condition hands out no offset that is finished
or under a lock. -/
theorem Inv.gives {op : Op} (h : Inv s) (hok : Fresh s op) : Exclusive s op ∧ Unfinished s op := by
  have hgives : ∀ p ∈ s.gives op, p.1 ∉ s.finished ∧
      ∀ l ∈ s.locks, l.recordOffset = p.1 → l.lockedUntil ≤ s.clock := by
    intro p hp
    unfold System.gives at hp
    split at hp
    next index =>
      split at hp
      · cases hp
      next job hjob =>
      have hnow := h.jobs job (mem_of_getElem? hjob)
      have hpos : 0 < ((exec s.db job).given.map Prod.fst).count p.1 :=
        count_pos_iff.2 (mem_map_of_mem hp)
      rcases exec_fresh h hjob hok with ⟨-, hturn⟩ | ⟨-, hgiven⟩
      · obtain ⟨hdone, hlock⟩ := (h.cells p.1).handed hnow (hturn p.1) hpos
        refine ⟨hdone, fun l hl he => ?_⟩
        obtain ⟨o, m, t⟩ := l
        cases he
        exact hlock m t hl
      · simp [hgiven] at hp
    next => cases hp
  refine ⟨?_, fun p hp => (hgives p hp).1⟩
  intro p hp l hl he hlt
  have := (hgives p hp).2 l hl he
  omega

-- ==== the theorem

/-- In every run in which no acquire works from a start offset that has
moved on: an offset under another member's lock and a finished offset
are never handed out, and none is handed out more than five times. -/
theorem share_safe (ops : List Op) (hok : Run.EachStep System.step {} ops Fresh) :
    Run.EachStep System.step {} ops (fun s op => Exclusive s op ∧ Unfinished s op) ∧
    Run.Always System.step {} ops Bounded := by
  have hinv := Run.Always.of_eachStep Inv.step Inv.init hok
  constructor
  · intro pre op hpre
    have hlast := hinv pre ((prefix_append pre [op]).trans hpre)
    exact hlast.gives (hok pre op hpre)
  · intro pre hpre o
    exact ((hinv pre hpre).cells o).bounded

-- ==== examples

def acquireOf (member : String) : Op := .call 0 30000 (.acquire member 0 1)

/-- The next `n` statements of a call. -/
def statements (index n : ℕ) : List Op := List.replicate n (.run index)

/-- Five members read the start offset. A sixth then acquires record 0
and accepts it, which moves the start offset to 1. The five go on, one
after the other. -/
def staleRun : List Op :=
  ["c", "d", "e", "f", "g"].map acquireOf ++
    [.run 0, .run 1, .run 2, .run 3, .run 4] ++
    acquireOf "b" :: statements 5 5 ++
    .call 0 30000 (.acknowledge "b" 0 0 [.accept]) :: statements 5 3 ++
    (List.replicate 5 (statements 0 4)).flatten

instance (s : System) (op : Op) : Decidable (Exclusive s op) :=
  inferInstanceAs (Decidable (∀ p ∈ _, ∀ l ∈ _, _ → _ → _))

instance (s : System) (op : Op) : Decidable (Unfinished s op) :=
  inferInstanceAs (Decidable (∀ p ∈ _, _ ∉ _))

/-- Record 0 is handed out after it was accepted, to a second member
under the lock of the first, and six times in all. -/
theorem share_unsafe :
    ¬ Run.EachStep System.step {} staleRun Unfinished ∧
    ¬ Run.EachStep System.step {} staleRun Exclusive ∧
    ¬ Run.Always System.step {} staleRun Bounded := by
  refine ⟨by decide +kernel, by decide +kernel, fun h => ?_⟩
  have hzero := h staleRun (prefix_refl _) 0
  revert hzero
  decide +kernel

/-- Two members in turn, the second after the lock of the first lapsed;
the second rejects. -/
def lapsedRun : List Op :=
  acquireOf "b" :: statements 0 5 ++
    .tick 30000 :: acquireOf "c" :: statements 0 5 ++
    .call 0 30000 (.shareAck "c" 0 0 .reject) :: statements 0 3

theorem share_safe_lapsed :
    Run.EachStep System.step {} lapsedRun Fresh ∧
    Run.Always System.step {} lapsedRun Bounded := by
  have hok : Run.EachStep System.step {} lapsedRun Fresh := by
    decide +kernel
  exact ⟨hok, (share_safe lapsedRun hok).2⟩

end Kafgres.ShareGroup
