/-
Acknowledgement batches that fail.
-/
import Kafgres.ShareGroup.Batch
import Kafgres.ShareGroup.Proofs.Delivery
import Mathlib.Data.List.Perm.Subperm
import Mathlib.Data.List.TakeWhile

namespace Kafgres.ShareGroup

open List Table AckRequest

variable {rows : Rows} {member : String} {first last lock o o' : ℤ}
  {kind : Ack} {list : List (ℤ × Ack)} {r : Row} {db : Db} {types : List Ack} {v version : ℤ}

-- ==== one update

/-- What an acknowledgement asks of a row besides its offset. -/
def Ack.matches (kind : Ack) (member : String) (r : Row) : Bool :=
  decide (r.memberId = some member) && (decide (kind ≠ .renew) || decide (r.state = .acquired))

theorem applies_iff :
    kind.applies member first last r = true ↔
    r.recordOffset ∈ series first last ∧ kind.matches member r = true := by
  unfold Ack.applies Ack.matches
  rw [mem_series]
  simp only [Bool.and_eq_true, decide_eq_true_eq, and_assoc]

theorem find?_ackUpdate :
    (ackUpdate rows member first last kind lock).find? o = (rows.find? o).map fun r =>
        if kind.applies member first last r then kind.set lock r else r :=
  find?_updateWhere ..

theorem mem_series_one : o' ∈ series o o ↔ o' = o := by
  rw [mem_series]
  omega

theorem applies_one :
    kind.applies member o o r = true ↔ r.recordOffset = o ∧ kind.matches member r = true := by
  rw [applies_iff, mem_series_one]

/-- Other records stay. -/
theorem find?_ackUpdate_of_ne (h : o ≠ o') :
    (ackUpdate rows member o' o' kind lock).find? o = rows.find? o := by
  rw [find?_ackUpdate]
  cases hr : rows.find? o with
  | none => rfl
  | some r =>
    have hoff := (find?_eq_some.1 hr).2
    rw [Option.map_some, if_neg]
    intro ha
    exact h (hoff.symm.trans (applies_one.1 ha).1)

theorem held_congr {rows' : Rows} (h : rows'.find? o = rows.find? o) :
    Held rows' member o ↔ Held rows member o := by
  unfold Held
  rw [h]

/-- A matching row that is set to what it was, is a renewal to the same
time. -/
theorem set_eq_self (h : kind.matches member r = true) :
    kind.set lock r = r ↔ kind = .renew ∧ r.acquiredUntil = some lock := by
  unfold Ack.matches at h
  rw [Bool.and_eq_true, decide_eq_true_eq] at h
  have hmember := h.1
  obtain ⟨off, state, count, holder, until_⟩ := r
  cases hmember
  cases kind with
  | renew => simp [Ack.set, Ack.finishes, eq_comm]
  | gap | accept | release | reject =>
    simp [Ack.set, Ack.finishes, Row.unlock]

theorem changes_iff :
    Changes rows member lock (o, kind) ↔
    ∃ r, rows.find? o = some r ∧ kind.matches member r = true ∧ kind.set lock r ≠ r := by
  refine exists_congr fun r => and_congr_right fun _ => ?_
  constructor
  · rintro ⟨hmember, hrenew⟩
    have hmatch : kind.matches member r = true := by
      unfold Ack.matches
      by_cases hk : kind = .renew
      · simp [hmember, (hrenew hk).1]
      · simp [hmember, hk]
    refine ⟨hmatch, fun heq => ?_⟩
    obtain ⟨hk, huntil⟩ := (set_eq_self hmatch).1 heq
    exact (hrenew hk).2 huntil
  · rintro ⟨hmatch, hne⟩
    obtain ⟨hmember, hstate⟩ : _ ∧ (kind ≠ .renew ∨ r.state = .acquired) := by
      simpa [Ack.matches] using hmatch
    refine ⟨hmember, fun hk => ⟨?_, fun huntil => ?_⟩⟩
    · exact hstate.resolve_left fun hne => hne hk
    · exact hne ((set_eq_self hmatch).2 ⟨hk, huntil⟩)

theorem changes_of_asks (h : kind.Asks) :
    Changes rows member lock (o, kind) ↔ Held rows member o := by
  refine exists_congr fun r => and_congr_right fun _ => ?_
  refine and_iff_left fun hk => ?_
  rcases h with rfl | rfl <;> cases hk

/-- An update that changes no record. -/
theorem ackUpdate_eq_self (h : ∀ o ∈ series first last, ¬ Changes rows member lock (o, kind)) :
    ackUpdate rows member first last kind lock = rows := by
  apply updateWhere_eq_self
  intro r hr ha
  obtain ⟨hmem, hmatch⟩ := applies_iff.1 ha
  by_contra hne
  exact h _ hmem (changes_iff.2 ⟨r, find?_eq_some.2 ⟨hr, rfl⟩, hmatch, hne⟩)

theorem series_length (first last : ℤ) : (series first last).length = (last + 1 - first).toNat := by
  unfold series
  rw [length_map, length_range]

theorem ackUpdate_one_eq_self (h : ¬ Changes rows member lock (o, kind)) :
    ackUpdate rows member o o kind lock = rows := by
  apply ackUpdate_eq_self
  intro o' ho'
  rw [mem_series_one.1 ho']
  exact h

-- ==== counting

/-- The records an Accept or Reject of the range finds. -/
theorem mem_found (h : kind.Asks) :
    o ∈ (rows.rows.filter (kind.applies member first last)).map
        (·.recordOffset) ↔ o ∈ series first last ∧ Held rows member o := by
  have hmatch : ∀ r : Row, kind.matches member r = true ↔ r.memberId = some member := by
    intro r
    unfold Ack.matches
    rcases h with rfl | rfl <;> simp
  unfold Held
  simp only [mem_map, mem_filter, applies_iff, hmatch, find?_eq_some]
  constructor
  · rintro ⟨r, ⟨hr, hmem, hmember⟩, rfl⟩
    exact ⟨hmem, r, ⟨hr, rfl⟩, hmember⟩
  · rintro ⟨hmem, r, ⟨hr, rfl⟩, hmember⟩
    exact ⟨r, ⟨hr, hmem, hmember⟩, rfl⟩

/-- As many records are held as there are in the range exactly when all
of them are. -/
theorem ackHeld_iff :
    ackHeld rows member first last kind = true ↔
    (kind.Asks → ∀ o ∈ series first last, Held rows member o) := by
  unfold ackHeld
  by_cases hk : kind.Asks
  · rw [if_pos (show kind = .accept ∨ kind = .reject from hk), decide_eq_true_eq]
    let found := (rows.rows.filter (kind.applies member first last)).map (·.recordOffset)
    have hfound : found.Nodup := rows.unique.sublist (filter_sublist.map _)
    have hlen : found.length = (rows.rows.filter (kind.applies member first last)).length :=
      length_map _
    have hseries := series_length first last
    rw [← hlen]
    constructor
    · intro hle _ o ho
      have hsub : found.Subperm (series first last) :=
        subperm_of_subset hfound fun o ho => ((mem_found hk).1 ho).1
      have hperm := hsub.perm_of_length_le (by omega)
      exact ((mem_found hk).1 (hperm.mem_iff.2 ho)).2
    · intro h
      have hsub : (series first last).Subperm found :=
        subperm_of_subset (nodup_series first last) fun o ho =>
          (mem_found hk).2 ⟨ho, h hk o ho⟩
      have := hsub.length_le
      omega
  · rw [if_neg (show ¬ (kind = .accept ∨ kind = .reject) from hk)]
    exact ⟨fun _ h => absurd h hk, fun _ => rfl⟩

theorem ackOne_eq :
    ackOne rows member o kind lock = if Applies rows member (o, kind) then
      some (ackUpdate rows member o o kind lock) else none := by
  have hone : ackHeld rows member o o kind = true ↔ Applies rows member (o, kind) := by
    rw [ackHeld_iff]
    simp only [mem_series_one, forall_eq]
    rfl
  unfold ackOne
  simp only [hone]

-- ==== lists

/-- The updates of a list, one after the other. -/
def ackUpdates (member : String) (lock : ℤ) (list : List (ℤ × Ack)) (rows : Rows) : Rows :=
  list.foldl (fun rows p => ackUpdate rows member p.1 p.1 p.2 lock) rows

theorem find?_ackUpdates_of_not_mem (h : o ∉ list.map Prod.fst) :
    (ackUpdates member lock list rows).find? o = rows.find? o := by
  induction list generalizing rows with
  | nil => rfl
  | cons p list ih =>
    rw [map_cons, mem_cons, not_or] at h
    show (ackUpdates member lock list _).find? o = _
    rw [ih h.2, find?_ackUpdate_of_ne h.1]

theorem applies_ackUpdate_of_ne {p : ℤ × Ack} (h : p.1 ≠ o') :
    Applies (ackUpdate rows member o' o' kind lock) member p ↔ Applies rows member p := by
  unfold Applies
  rw [held_congr (find?_ackUpdate_of_ne h)]

/-- The loop goes to the end, or up to the first record that is
refused. -/
theorem ackLoop_cases (rows : Rows) (member : String) (lock : ℤ) (h : (list.map Prod.fst).Nodup) :
    ((∀ p ∈ list, Applies rows member p) ∧ ackLoop member lock list rows =
        (ackUpdates member lock list rows, .ok ())) ∨
    ∃ pre p post, list = pre ++ p :: post ∧
      (∀ q ∈ pre, Applies rows member q) ∧ ¬ Applies rows member p ∧
      ackLoop member lock list rows =
        (ackUpdates member lock pre rows, .error .invalidRecordState) := by
  induction list generalizing rows with
  | nil => exact .inl ⟨nofun, rfl⟩
  | cons p list ih =>
    obtain ⟨o, kind⟩ := p
    rw [map_cons, nodup_cons] at h
    by_cases hp : Applies rows member (o, kind)
    · have hloop : ackLoop member lock ((o, kind) :: list) rows =
          ackLoop member lock list (ackUpdate rows member o o kind lock) := by
        rw [ackLoop, ackOne_eq, if_pos hp]
      -- the rest finds its records as they were
      have hsame : ∀ q ∈ list, Applies (ackUpdate rows member o o kind lock) member q ↔
            Applies rows member q := by
        intro q hq
        refine applies_ackUpdate_of_ne fun heq => h.1 ?_
        rw [← heq]
        exact mem_map.2 ⟨q, hq, rfl⟩
      rw [hloop]
      rcases ih _ h.2 with ⟨hall, heq⟩ | ⟨pre, q, post, rfl, hpre, hq, heq⟩
      · refine .inl ⟨fun q hq => ?_, heq⟩
        rcases mem_cons.1 hq with rfl | hq
        · exact hp
        · exact (hsame q hq).1 (hall q hq)
      · refine .inr ⟨(o, kind) :: pre, q, post, rfl, fun q' hq' => ?_, ?_, heq⟩
        · rcases mem_cons.1 hq' with rfl | hq'
          · exact hp
          · exact (hsame q' (by simp [hq'])).1 (hpre q' hq')
        · exact fun hq' => hq ((hsame q (by simp)).2 hq')
    · refine .inr ⟨[], (o, kind), list, rfl, nofun, hp, ?_⟩
      rw [ackLoop, ackOne_eq, if_neg hp]
      rfl

/-- A list of updates changes nothing if none of them does. -/
theorem ackUpdates_eq_self (h : (list.map Prod.fst).Nodup) :
    ackUpdates member lock list rows = rows ↔ ∀ p ∈ list, ¬ Changes rows member lock p := by
  constructor
  · intro heq p hp hchange
    obtain ⟨o, kind⟩ := p
    obtain ⟨pre, post, rfl⟩ := append_of_mem hp
    rw [map_append, map_cons, nodup_append, nodup_cons] at h
    obtain ⟨-, ⟨hpost, -⟩, hpre⟩ := h
    have hpre' : o ∉ pre.map Prod.fst := fun hmem =>
      hpre o hmem o (.head _) rfl
    obtain ⟨r, hr, hmatch, hne⟩ := changes_iff.1 hchange
    have hoff := (find?_eq_some.1 hr).2
    -- the record is found as it was, is set, and is left alone after
    have hfind : (ackUpdates member lock (pre ++ (o, kind) :: post)
        rows).find? o = some (kind.set lock r) := by
      unfold ackUpdates
      rw [foldl_append, foldl_cons]
      refine (find?_ackUpdates_of_not_mem hpost).trans ?_
      have hbefore : (ackUpdates member lock pre rows).find? o = some r :=
        (find?_ackUpdates_of_not_mem hpre').trans hr
      show (ackUpdate (ackUpdates member lock pre rows) member o o kind lock).find? o = _
      rw [find?_ackUpdate, hbefore, Option.map_some, if_pos (applies_one.2 ⟨hoff, hmatch⟩)]
    rw [heq, hr, Option.some_inj] at hfind
    exact hne hfind.symm
  · intro hnone
    clear h
    induction list with
    | nil => rfl
    | cons p list ih =>
      show ackUpdates member lock list (ackUpdate rows member p.1 p.1 p.2 lock) = rows
      rw [ackUpdate_one_eq_self (hnone p (.head _))]
      exact ih fun q hq => hnone q (.tail _ hq)

theorem nodup_ackList (first last : ℤ) (types : List Ack) :
    ((ackList first last types).map Prod.fst).Nodup := by
  refine List.Nodup.sublist ((takeWhile_sublist _).map _) ?_
  have hsnd : (types.zipIdx.map fun p : Ack × ℕ => (first + p.2, p.1)).map Prod.fst =
      (types.zipIdx.map Prod.snd).map (fun i : ℕ => first + (i : ℤ)) := by
    rw [map_map, map_map]
    rfl
  rw [hsnd, zipIdx_map_snd]
  refine List.Nodup.map ?_ nodup_range'
  intro i j hij
  dsimp only at hij
  omega

-- ==== ranges

/-- One kind for different records, as one update. -/
theorem ackUpdates_same {os : List ℤ} (h : os.Nodup) :
    ackUpdates member lock (os.map (·, kind)) rows =
      rows.updateWhere (fun r => decide (r.recordOffset ∈ os)
        && kind.matches member r) (kind.set lock) (kind.set_recordOffset lock) := by
  induction os generalizing rows with
  | nil =>
    refine (updateWhere_eq_self rows fun r _ hp => ?_).symm
    simp at hp
  | cons o os ih =>
    obtain ⟨hnot, h⟩ := nodup_cons.1 h
    show ackUpdates member lock (os.map (·, kind)) (ackUpdate rows member o o kind lock) = _
    rw [ih h]
    apply eq_of_rows
    refine map_map.trans (map_congr_left fun r _ => ?_)
    dsimp only [Function.comp]
    by_cases hr : r.recordOffset = o
    · -- its own update, and none of the later ones
      have hone : kind.applies member o o r = kind.matches member r :=
        Bool.eq_iff_iff.2 (applies_one.trans (and_iff_right hr))
      have hset := kind.set_recordOffset lock r
      simp only [hone]
      by_cases hm : kind.matches member r = true
      · simp [hm, hr, hset, hnot]
      · simp [hm, hr, hnot]
    · have hone : kind.applies member o o r = false := by
        rw [Bool.eq_false_iff]
        exact fun ha => hr (applies_one.1 ha).1
      simp [hone, hr]

/-- A range is its records one after the other. -/
theorem ackUpdate_range :
    ackUpdate rows member first last kind lock =
      ackUpdates member lock ((series first last).map (·, kind)) rows := by
  have hpred : kind.applies member first last = fun r : Row =>
      decide (r.recordOffset ∈ series first last) && kind.matches member r := by
    funext r
    rw [Bool.eq_iff_iff, applies_iff, Bool.and_eq_true, decide_eq_true_eq]
  rw [ackUpdates_same (nodup_series first last)]
  unfold ackUpdate
  simp only [hpred]

theorem ackList_replicate (first last : ℤ) (kind : Ack) :
    ackList first last (List.replicate (last - first + 1).toNat kind) =
      (series first last).map (·, kind) := by
  have hlist : (replicate (last - first + 1).toNat kind).zipIdx.map
      (fun p : Ack × ℕ => (first + p.2, p.1)) =
      (series first last).map (·, kind) := by
    have hlen : (last - first + 1).toNat = (last + 1 - first).toNat := by
      omega
    unfold series
    rw [hlen]
    apply ext_getElem
    · simp
    · intro i _ _
      simp
  unfold ackList
  rw [hlist, takeWhile_eq_self_iff]
  intro p hp
  obtain ⟨o, ho, rfl⟩ := mem_map.1 hp
  exact decide_eq_true (mem_series.1 ho).2

-- ==== batches

/-- A list of acknowledgements that is refused has done nothing, unless
something before the refusal took effect. -/
theorem ackLoop_nothing (h : (list.map Prod.fst).Nodup) :
    (∀ e, (ackLoop member lock list rows).2 = .error e → (ackLoop member lock list rows).1 = rows) ↔
    CleanList rows member lock list := by
  unfold CleanList
  rcases ackLoop_cases rows member lock h with ⟨hall, heq⟩ | ⟨pre, p, post, hlist, hpre, hp, heq⟩
  · rw [heq]
    exact ⟨fun _ => .inl hall, nofun⟩
  subst hlist
  have hwhile : (pre ++ p :: post).takeWhile (fun q => Applies rows member q) = pre := by
    rw [takeWhile_append_of_pos (by simpa using hpre),
      takeWhile_cons_of_neg (by simpa using hp), append_nil]
  have hnodup : (pre.map Prod.fst).Nodup := by
    rw [map_append] at h
    exact h.of_append_left
  rw [heq, hwhile, ← ackUpdates_eq_self hnodup]
  constructor
  · intro hnothing
    exact .inr (hnothing _ rfl)
  intro hclean _ _
  rcases hclean with hall | hsame
  · exact absurd (hall p (by simp)) hp
  · exact hsame

theorem nodup_range (first last : ℤ) (kind : Ack) :
    (((series first last).map (·, kind)).map Prod.fst).Nodup := by
  rw [← ackList_replicate]
  exact nodup_ackList ..

theorem ackUpdate_eq_self_iff :
    ackUpdate rows member first last kind lock = rows ↔
      ∀ o ∈ series first last, ¬ Changes rows member lock (o, kind) := by
  rw [ackUpdate_range, ackUpdates_eq_self (nodup_range first last kind)]
  simp only [mem_map, forall_exists_index, and_imp, forall_apply_eq_imp_iff₂]

/-- The same for one kind over a range: it has done nothing exactly if
it found nothing. -/
theorem ackRange_nothing :
    (∀ e, (ackRange rows member first last kind lock).2 = .error e →
      (ackRange rows member first last kind lock).1 = rows) ↔
    (kind.Asks → (∀ o ∈ series first last, Held rows member o) ∨
      ∀ o ∈ series first last, ¬ Held rows member o) := by
  unfold ackRange
  by_cases hheld : ackHeld rows member first last kind = true
  · rw [if_pos hheld]
    exact ⟨fun _ hk => .inl (ackHeld_iff.1 hheld hk), fun _ e he =>
      nomatch he⟩
  rw [if_neg hheld]
  rw [ackHeld_iff, Classical.not_imp] at hheld
  obtain ⟨hk, hsome⟩ := hheld
  have hnone : ackUpdate rows member first last kind lock = rows ↔
      ∀ o ∈ series first last, ¬ Held rows member o := by
    rw [ackUpdate_eq_self_iff]
    simp only [changes_of_asks hk]
  rw [hnone]
  constructor
  · intro hnothing _
    exact .inr (hnothing _ rfl)
  · intro hclean _ _
    exact (hclean hk).resolve_left hsome

theorem ackList_of_lt (h : last < first) (types : List Ack) : ackList first last types = [] := by
  unfold ackList
  cases types with
  | nil => rfl
  | cons kind types =>
    rw [zipIdx_cons, map_cons, takeWhile_cons_of_neg]
    simpa using h

/-- Whatever the batch: refused, it has done nothing if it was clean. -/
theorem ackRows_nothing :
    (∀ e, (ackRows rows member first last types lock).2 = .error e →
      (ackRows rows member first last types lock).1 = rows) ↔
    Clean rows member first last lock types := by
  by_cases hlt : last < first
  · have hclean : Clean rows member first last lock types := by
      unfold Clean
      simp only [if_neg hlt.not_gt, ackList_of_lt hlt]
      split <;> exact .inl nofun
    unfold ackRows
    rw [if_pos hlt]
    exact ⟨fun _ => hclean, fun _ _ _ => rfl⟩
  · unfold ackRows Clean
    rw [if_neg hlt]
    split
    · split_ifs with hrange
      · exact ackRange_nothing
      · exact ackLoop_nothing (nodup_ackList ..)
    · exact ackLoop_nothing (nodup_ackList ..)

/-- A clean batch of one kind over a range is that kind for each of its
records. -/
theorem ackRows_spread (h : first < last) (hclean : Clean rows member first last lock [kind]) :
    ackRows rows member first last (List.replicate (last - first + 1).toNat kind) lock =
      ackRows rows member first last [kind] lock := by
  have hloop : ackRows rows member first last (replicate (last - first + 1).toNat kind) lock =
      ackLoop member lock ((series first last).map (·, kind)) rows := by
    rw [← ackList_replicate]
    obtain ⟨n, hn⟩ : ∃ n, (last - first + 1).toNat = n + 2 := ⟨(last - first - 1).toNat, by omega⟩
    rw [hn]
    exact if_neg (by omega)
  have hrange : ackRows rows member first last [kind] lock =
      ackRange rows member first last kind lock := by
    rw [ackRows, if_neg (by omega)]
    exact if_pos h
  unfold Clean at hclean
  dsimp only at hclean
  rw [if_pos h] at hclean
  rw [hloop, hrange]
  unfold ackRange
  rcases ackLoop_cases rows member lock (nodup_range first last kind) with
    ⟨hall, heq⟩ | ⟨pre, p, post, hlist, hpre, hp, heq⟩
  · -- every record is taken
    rw [heq, ackUpdate_range, if_pos]
    rw [ackHeld_iff]
    intro hk o ho
    exact hall (o, kind) (mem_map_of_mem ho) hk
  · -- one is refused, so none is held, and the first is refused
    have hmem : ∀ q, q ∈ pre ∨ q = p → q.1 ∈ series first last ∧ q.2 = kind := by
      intro q hq
      have hin : q ∈ (series first last).map (·, kind) := by
        rw [hlist]
        simpa [or_left_comm] using hq.imp_right Or.inl
      obtain ⟨o, ho, rfl⟩ := mem_map.1 hin
      exact ⟨ho, rfl⟩
    obtain ⟨hin, hkind⟩ := hmem p (.inr rfl)
    unfold Applies at hp
    rw [Classical.not_imp, hkind] at hp
    obtain ⟨hk, hheld⟩ := hp
    have hnone := (hclean hk).resolve_left fun hall => hheld (hall _ hin)
    have hnil : pre = [] := by
      rw [eq_nil_iff_forall_not_mem]
      intro q hq
      obtain ⟨hqin, hqkind⟩ := hmem q (.inl hq)
      exact hnone _ hqin (hpre q hq (by rw [hqkind]; exact hk))
    rw [heq, hnil, ackUpdate_eq_self fun o ho hchange =>
      hnone o ho ((changes_of_asks hk).1 hchange), if_neg]
    · rfl
    · rw [ackHeld_iff]
      exact fun hall => hheld (hall hk _ hin)

-- ==== requests

theorem decodeAcks_singleton : decodeAcks [v] version = (decodeAck version v).map ([·]) := by
  unfold decodeAcks
  cases h : decodeAck version v with
  | none | some => simp [h]

theorem decodeAcks_replicate (n : ℕ) :
    decodeAcks (List.replicate (n + 1) v) version =
      (decodeAck version v).map (List.replicate (n + 1)) := by
  unfold decodeAcks
  induction n with
  | zero => exact decodeAcks_singleton
  | succ n ih =>
    rw [replicate_succ, mapM_cons, ih]
    cases h : decodeAck version v with
    | none | some => rfl

theorem ackBatch_nothing :
    (∀ db' e, ackBatch db member first last types lock = (db', .error e) →
      db' = db) ↔ Clean db.rows member first last lock types := by
  rw [← ackRows_nothing]
  unfold ackBatch
  dsimp only
  split
  · next e he =>
    rw [he]
    constructor
    · intro h _ _
      exact congrArg Db.rows (h _ e rfl)
    · intro h db' e' heq
      cases heq
      rw [h e rfl]
  · next he =>
    rw [he]
    exact ⟨fun _ _ h => (nomatch h), fun _ _ _ h =>
      (nomatch (Prod.mk.inj h).2)⟩

theorem ackBatch_of_lt (h : last < first) (types : List Ack) :
    ackBatch db member first last types lock = (db, .error .invalidRequest) := by
  unfold ackBatch ackRows
  rw [if_pos h]

/-- Acknowledgement batches are all or nothing exactly if they are
clean. -/
theorem all_or_nothing_iff (db : Db) (req : AckRequest) :
    AllOrNothing db req ↔
      ∀ types, decodeAcks req.types req.version = some types →
        Clean db.rows req.member req.first req.last req.lock types := by
  constructor
  · intro h types htypes
    rw [← ackBatch_nothing]
    intro db' e heq
    refine h.nothing db' e ?_
    rw [run, htypes]
    exact heq
  · intro hclean
    refine ⟨fun db' e heq => ?_, fun v hv => ?_⟩
    · rw [run] at heq
      split at heq
      · exact (Prod.mk.inj heq).1.symm
      · next htypes => exact ackBatch_nothing.2 (hclean _ htypes) db' e heq
    · rw [run, run, hv]
      dsimp only [spread]
      rw [hv] at hclean
      rw [decodeAcks_singleton] at hclean ⊢
      by_cases hlt : req.last < req.first
      · have hzero : (req.last - req.first + 1).toNat = 0 := by omega
        rw [hzero]
        show ackBatch db req.member req.first req.last [] req.lock = _
        rw [ackBatch_of_lt hlt]
        cases decodeAck req.version v with
        | none => rfl
        | some kind => exact (ackBatch_of_lt hlt [kind]).symm
      · obtain ⟨n, hn⟩ : ∃ n, (req.last - req.first + 1).toNat = n + 1 :=
          ⟨(req.last - req.first).toNat, by omega⟩
        rw [hn, decodeAcks_replicate, ← hn]
        cases hkind : decodeAck req.version v with
        | none => rfl
        | some kind =>
          rw [hkind] at hclean
          show ackBatch db req.member req.first req.last _ req.lock =
            ackBatch db req.member req.first req.last [kind] req.lock
          by_cases hone : req.first = req.last
          · have : (req.last - req.first + 1).toNat = 1 := by omega
            rw [this]
            rfl
          · unfold ackBatch
            rw [ackRows_spread (by omega) (hclean [kind] rfl)]

/-- Two records, of which member `a` holds the first. -/
def oneHeld : Db where
  rows := ⟨[⟨0, .acquired, 1, some "a", some 30⟩,
    ⟨1, .acquired, 1, some "b", some 30⟩], by decide⟩
  offset := some 0

/-- It accepts both. -/
def acceptBoth : AckRequest := ⟨"a", 0, 1, [1], 1, 60⟩

/-- The answer is an error, and the first is accepted. -/
theorem accepted_with_an_error :
    (acceptBoth.run oneHeld).2 = .error .invalidRecordState ∧
    ((acceptBoth.run oneHeld).1.rows.find? 0).map (·.state) = some .acked ∧
    ¬ AllOrNothing oneHeld acceptBoth := by
  have hcode : (acceptBoth.run oneHeld).2 = .error .invalidRecordState := by
    decide
  have hstate : ((acceptBoth.run oneHeld).1.rows.find? 0).map (·.state) = some .acked := by
    decide
  refine ⟨hcode, hstate, fun h => ?_⟩
  have hsame : (acceptBoth.run oneHeld).1 = oneHeld := h.nothing _ _ (Prod.ext rfl hcode)
  rw [hsame] at hstate
  exact absurd hstate (by decide)

end Kafgres.ShareGroup
