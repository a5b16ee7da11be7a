/-
Rows under a primary key, and the statements that change them. A `Table`
carries the proof that its keys are distinct, and statements come as
operations that keep it. A set-valued `column` is what a statement does
to one attribute, read by key.
-/
import Mathlib.Data.List.Nodup
import Mathlib.Data.Set.Basic

/-- Rows with distinct keys. -/
structure Table {ρ κ : Type} (key : ρ → κ) where
  rows : List ρ
  unique : (rows.map key).Nodup

namespace Table

open List Function

variable {ρ κ : Type} {key : ρ → κ}

-- ==== statements

def empty : Table key := ⟨[], .nil⟩

def keys (t : Table key) : List κ := t.rows.map key

/-- `DELETE … WHERE`. -/
def delete (t : Table key) (gone : ρ → Bool) : Table key where
  rows := t.rows.filter fun r => !gone r
  unique := t.unique.sublist (List.filter_sublist.map _)

/-- `UPDATE … SET … WHERE`, of columns other than the key. -/
def updateWhere (t : Table key) (p : ρ → Bool) (set : ρ → ρ)
    (same : ∀ r, key (set r) = key r) : Table key where
  rows := t.rows.map fun r => if p r then set r else r
  unique := by
    have hmap : (t.rows.map fun r => if p r then set r else r).map key = t.rows.map key := by
      rw [List.map_map]
      apply List.map_congr_left
      intro r _
      show key (if p r then set r else r) = key r
      split
      · exact same r
      · rfl
    rw [hmap]
    exact t.unique

/-- `INSERT` of a row whose key is free. -/
def insert (t : Table key) (r : ρ) (free : key r ∉ t.keys) : Table key where
  rows := t.rows ++ [r]
  unique := by
    rw [List.map_append, List.map_singleton]
    refine List.nodup_append.2 ⟨t.unique, List.nodup_singleton _, ?_⟩
    intro a ha b hb he
    rw [List.mem_singleton] at hb
    subst hb
    exact free (he ▸ ha)

-- ==== rows

variable {t : Table key} {gone p : ρ → Bool} {set : ρ → ρ}
  {same : ∀ r, key (set r) = key r} {r r' : ρ} {k : κ}

theorem eq_of_key (hr : r ∈ t.rows) (hr' : r' ∈ t.rows) (h : key r = key r') : r = r' :=
  inj_on_of_nodup_map t.unique hr hr' h

theorem mem_keys : k ∈ t.keys ↔ ∃ r ∈ t.rows, key r = k := mem_map

theorem key_mem (hr : r ∈ t.rows) : key r ∈ t.keys := mem_map_of_mem hr

theorem mem_delete : r ∈ (t.delete gone).rows ↔ r ∈ t.rows ∧ gone r = false := by
  unfold delete
  simp [mem_filter]

theorem delete_keys (h : k ∈ (t.delete gone).keys) : k ∈ t.keys := by
  obtain ⟨r, hr, rfl⟩ := mem_keys.1 h
  exact key_mem (mem_delete.1 hr).1

theorem mem_insert {free : key r ∉ t.keys} :
    r' ∈ (t.insert r free).rows ↔ r' ∈ t.rows ∨ r' = r := by
  unfold insert
  simp

theorem mem_updateWhere :
    r' ∈ (t.updateWhere p set same).rows ↔ ∃ r ∈ t.rows, (if p r then set r else r) = r' :=
  mem_map

theorem key_updated (same : ∀ r, key (set r) = key r) (r : ρ) :
    key (if p r then set r else r) = key r := by
  split
  · exact same r
  · rfl

@[simp] theorem updateWhere_keys (t : Table key) (p : ρ → Bool)
    (set : ρ → ρ) (same : ∀ r, key (set r) = key r) : (t.updateWhere p set same).keys = t.keys := by
  unfold keys updateWhere
  rw [map_map]
  exact map_congr_left fun r _ => key_updated same r

theorem eq_of_rows {t t' : Table key} (h : t.rows = t'.rows) : t = t' := by
  cases t
  cases t'
  cases h
  rfl

/-- An update that changes no row changes nothing. -/
theorem updateWhere_eq_self (t : Table key) {p : ρ → Bool} {set : ρ → ρ}
    {same : ∀ r, key (set r) = key r} (h : ∀ r ∈ t.rows, p r = true → set r = r) :
    t.updateWhere p set same = t := by
  apply eq_of_rows
  refine (map_congr_left fun r hr => ?_).trans (map_id _)
  by_cases hp : p r
  · simp [hp, h r hr hp]
  · simp [hp]

-- ==== keys that can be compared

variable [DecidableEq κ] {new old : κ}

def find? (t : Table key) (k : κ) : Option ρ := t.rows.find? fun r => key r = k

/-- `INSERT … ON CONFLICT DO UPDATE`. -/
def upsert (t : Table key) (r : ρ) (set : ρ → ρ) (same : ∀ r, key (set r) = key r) : Table key :=
  if free : key r ∉ t.keys then t.insert r free
  else t.updateWhere (fun r' => key r' = key r) set same

def erase (t : Table key) (k : κ) : Table key := t.delete fun r => key r = k

theorem notMem_erase_keys (t : Table key) (k : κ) : k ∉ (t.erase k).keys := by
  unfold erase delete keys
  simp

/-- The row under its key, whatever stood there. -/
def put (t : Table key) (r : ρ) : Table key :=
  (t.erase (key r)).insert r (notMem_erase_keys t (key r))

/-- The row of one key put under another, which is free. -/
def rename (t : Table key) (old new : κ) (set : ρ → ρ)
    (named : ∀ r, key (set r) = new) (free : new ∉ t.keys) : Table key where
  rows := t.rows.map fun r => if key r = old then set r else r
  unique := by
    rw [List.map_map]
    refine List.Nodup.map_on ?_ (List.Nodup.of_map _ t.unique)
    intro a ha b hb he
    have hinj := List.inj_on_of_nodup_map t.unique ha hb
    have hnew : ∀ r ∈ t.rows, key r ≠ new := fun r hr h =>
      free (h ▸ List.mem_map_of_mem hr)
    by_cases h1 : key a = old <;> by_cases h2 : key b = old
    · exact hinj (h1.trans h2.symm)
    · simp only [Function.comp_apply, h1, h2, if_true, if_false, named] at he
      exact absurd he.symm (hnew b hb)
    · simp only [Function.comp_apply, h1, h2, if_true, if_false, named] at he
      exact absurd he (hnew a ha)
    · simp only [Function.comp_apply, h1, h2, if_false] at he
      exact hinj he

theorem find?_eq_some : t.find? k = some r ↔ r ∈ t.rows ∧ key r = k := by
  constructor
  · intro h
    have hkey := find?_some h
    rw [decide_eq_true_eq] at hkey
    exact ⟨mem_of_find?_eq_some h, hkey⟩
  · rintro ⟨hr, hkey⟩
    cases hf : t.find? k with
    | none =>
      unfold find? at hf
      rw [find?_eq_none] at hf
      exact absurd (decide_eq_true hkey) (hf r hr)
    | some r' =>
      have hkey' := find?_some hf
      rw [decide_eq_true_eq] at hkey'
      rw [eq_of_key (mem_of_find?_eq_some hf) hr (hkey'.trans hkey.symm)]

theorem find?_eq_none : t.find? k = none ↔ k ∉ t.keys := by
  unfold find? keys
  simp

theorem mem_erase : r ∈ (t.erase k).rows ↔ r ∈ t.rows ∧ key r ≠ k := by
  unfold erase
  rw [mem_delete, decide_eq_false_iff_not]

theorem mem_put : r' ∈ (t.put r).rows ↔ (r' ∈ t.rows ∧ key r' ≠ key r) ∨ r' = r := by
  unfold put
  rw [mem_insert, mem_erase]

/-- Rows of other keys are not touched. -/
theorem mem_updateOne_of_ne (hne : key r ≠ k) :
    r ∈ (t.updateWhere (fun r => key r = k) set same).rows ↔ r ∈ t.rows := by
  rw [mem_updateWhere]
  constructor
  · rintro ⟨r', hr', he⟩
    by_cases hk : key r' = k
    · rw [if_pos (decide_eq_true hk)] at he
      exact absurd (he ▸ (same r').trans hk) hne
    · rw [if_neg (by simpa using hk)] at he
      exact he ▸ hr'
  · intro hr
    exact ⟨r, hr, if_neg (by simpa using hne)⟩

theorem upsert_cases (h : r' ∈ (t.upsert r set same).rows) :
    (r' ∈ t.rows ∧ key r' ≠ key r) ∨ (r' = r ∧ key r ∉ t.keys) ∨
      ∃ r₀ ∈ t.rows, key r₀ = key r ∧ r' = set r₀ := by
  unfold upsert at h
  split at h
  next hfree =>
    rcases mem_insert.1 h with h | h
    · exact .inl ⟨h, fun he => hfree (he ▸ key_mem h)⟩
    · exact .inr (.inl ⟨h, hfree⟩)
  next =>
    obtain ⟨r₀, hr₀, he⟩ := mem_updateWhere.1 h
    by_cases hk : key r₀ = key r
    · rw [if_pos (decide_eq_true hk)] at he
      exact .inr (.inr ⟨r₀, hr₀, hk, he.symm⟩)
    · rw [if_neg (by simpa using hk)] at he
      exact .inl ⟨he ▸ hr₀, he ▸ hk⟩

theorem mem_upsert_keys (r : ρ) (set : ρ → ρ) (same : ∀ r, key (set r) = key r) :
    k ∈ (t.upsert r set same).keys ↔ k ∈ t.keys ∨ k = key r := by
  unfold upsert
  split
  next hfree =>
    unfold keys insert
    simp
  next hold =>
  rw [updateWhere_keys]
  refine ⟨.inl, ?_⟩
  rintro (h | h)
  · exact h
  · exact h ▸ not_not.1 hold

theorem mem_rename_keys {named : ∀ r, key (set r) = new} {free : new ∉ t.keys}
    (hold : old ∈ t.keys) :
    k ∈ (t.rename old new set named free).keys ↔ k = new ∨ (k ≠ old ∧ k ∈ t.keys) := by
  unfold keys rename
  simp only [map_map, mem_map, comp_apply]
  constructor
  · rintro ⟨r, hr, rfl⟩
    by_cases hr' : key r = old
    · simp [hr', named]
    · exact .inr ⟨by simp [hr'], r, hr, by simp [hr']⟩
  · rintro (rfl | ⟨hne, r, hr, rfl⟩)
    · obtain ⟨r, hr, rfl⟩ := mem_keys.1 hold
      exact ⟨r, hr, by simp [named]⟩
    · exact ⟨r, hr, by simp [hne]⟩

-- ==== lookups

theorem find?_updateWhere (t : Table key) (p : ρ → Bool) (set : ρ → ρ)
    (same : ∀ r, key (set r) = key r) (k : κ) :
    (t.updateWhere p set same).find? k = (t.find? k).map fun r => if p r then set r else r := by
  unfold find? updateWhere
  rw [find?_map]
  congr 2
  funext r
  exact congrArg (fun k' => decide (k' = k)) (key_updated same r)

theorem find?_delete (t : Table key) (gone : ρ → Bool) (k : κ) :
    (t.delete gone).find? k = (t.find? k).filter fun r => !gone r := by
  apply Option.ext
  intro r
  rw [find?_eq_some, mem_delete, Option.filter_eq_some_iff, find?_eq_some, Bool.not_eq_true']
  exact and_right_comm

theorem find?_insert (t : Table key) (r : ρ) (free : key r ∉ t.keys) (k : κ) :
    (t.insert r free).find? k = if k = key r then some r else t.find? k := by
  apply Option.ext
  intro r'
  rw [find?_eq_some, mem_insert]
  split
  next hk =>
    subst hk
    rw [Option.some_inj]
    constructor
    · intro h
      rcases h.1 with h' | h'
      · exact absurd (h.2 ▸ key_mem h') free
      · exact h'.symm
    · intro h
      subst h
      exact ⟨.inr rfl, rfl⟩
  next hk =>
    rw [find?_eq_some]
    refine ⟨?_, fun h => ⟨.inl h.1, h.2⟩⟩
    intro h
    rcases h.1 with h' | h'
    · exact ⟨h', h.2⟩
    · exact absurd (h' ▸ h.2).symm hk

theorem find?_upsert (t : Table key) (r : ρ) (set : ρ → ρ)
    (same : ∀ r, key (set r) = key r) (k : κ) :
    (t.upsert r set same).find? k =
      if k = key r then some ((t.find? k).elim r set) else t.find? k := by
  unfold upsert
  split
  next hfree =>
    rw [find?_insert]
    split
    next hk =>
      subst hk
      rw [find?_eq_none.2 hfree]
      rfl
    next => rfl
  next hold =>
    rw [find?_updateWhere]
    cases hf : t.find? k with
    | none =>
      have hk : k ≠ key r := fun hk =>
        hold (hk ▸ find?_eq_none.1 hf)
      rw [if_neg hk]
      rfl
    | some r' =>
      obtain ⟨-, hk⟩ := find?_eq_some.1 hf
      subst hk
      by_cases he : key r' = key r <;> simp [he]

theorem find?_erase (t : Table key) (k k' : κ) :
    (t.erase k').find? k = if k = k' then none else t.find? k := by
  unfold erase
  rw [find?_delete]
  cases hf : t.find? k with
  | none => simp
  | some r =>
    obtain ⟨-, rfl⟩ := find?_eq_some.1 hf
    by_cases hk : key r = k'
    · simp [hk]
    · simp [hk]

theorem find?_put (t : Table key) (r : ρ) (k : κ) :
    (t.put r).find? k = if k = key r then some r else t.find? k := by
  unfold put
  rw [find?_insert, find?_erase]
  split <;> rfl

theorem find?_rename (t : Table key) (old new : κ) (set : ρ → ρ)
    (named : ∀ r, key (set r) = new) (free : new ∉ t.keys) (k : κ) :
    (t.rename old new set named free).find? k = if k = new then (t.find? old).map set
      else if k = old then none else t.find? k := by
  have hmem : ∀ r', r' ∈ (t.rename old new set named free).rows ↔
      ∃ r ∈ t.rows, (if key r = old then set r else r) = r' :=
    fun r' => mem_map
  apply Option.ext
  intro r'
  rw [find?_eq_some, hmem]
  constructor
  · rintro ⟨⟨r, hr, hr'⟩, hk⟩
    by_cases ho : key r = old
    · rw [if_pos ho] at hr'
      subst hr'
      rw [named] at hk
      rw [if_pos hk.symm, find?_eq_some.2 ⟨hr, ho⟩]
      rfl
    · rw [if_neg ho] at hr'
      subst hr'
      subst hk
      have hnew : key r ≠ new := fun h => free (h ▸ key_mem hr)
      rw [if_neg hnew, if_neg ho]
      exact find?_eq_some.2 ⟨hr, rfl⟩
  · intro h
    split at h
    next hk =>
      obtain ⟨r, hr, rfl⟩ := Option.map_eq_some_iff.1 h
      obtain ⟨hr, ho⟩ := find?_eq_some.1 hr
      exact ⟨⟨r, hr, if_pos ho⟩, (named r).trans hk.symm⟩
    next hk =>
      split at h
      next => cases h
      next ho =>
        obtain ⟨hr, rfl⟩ := find?_eq_some.1 h
        exact ⟨⟨r', hr, if_neg ho⟩, rfl⟩

-- ==== columns

variable {α : Type} {f : ρ → Set α}

/-- One set-valued attribute, by key. -/
def column (t : Table key) (f : ρ → Set α) (k : κ) : Set α :=
  {p | ∃ r ∈ t.rows, key r = k ∧ p ∈ f r}

/-- The attribute of the row that a lookup finds. -/
theorem column_eq (t : Table key) (f : ρ → Set α) (k : κ) :
    t.column f k = (t.find? k).elim ∅ f := by
  ext p
  cases hf : t.find? k with
  | none =>
    refine ⟨?_, nofun⟩
    rintro ⟨r, hr, rfl, -⟩
    exact find?_eq_none.1 hf (key_mem hr)
  | some r =>
    obtain ⟨hr, rfl⟩ := find?_eq_some.1 hf
    refine ⟨?_, fun hp => ⟨r, hr, rfl, hp⟩⟩
    rintro ⟨r', hr', hkey, hp⟩
    exact eq_of_key hr' hr hkey ▸ hp

theorem column_of_mem (hr : r ∈ t.rows) : t.column f (key r) = f r := by
  rw [column_eq, find?_eq_some.2 ⟨hr, rfl⟩]
  rfl

theorem column_of_not_mem (hk : k ∉ t.keys) : t.column f k = ∅ := by
  rw [column_eq, find?_eq_none.2 hk]
  rfl

/-- An attribute an update leaves alone. -/
theorem column_updateWhere (h : ∀ r, f (set r) = f r) :
    (t.updateWhere p set same).column f = t.column f := by
  funext k
  rw [column_eq, column_eq, find?_updateWhere]
  cases t.find? k with
  | none => rfl
  | some r => by_cases hp : p r <;> simp [hp, h]

/-- One row's attribute is set. -/
theorem column_updateOne (hr : r ∈ t.rows) (set : ρ → ρ) (same : ∀ r, key (set r) = key r) :
    (t.updateWhere (fun r' => key r' = key r) set same).column f
      = update (t.column f) (key r) (f (set r)) := by
  funext k
  rw [column_eq, find?_updateWhere, update_apply, column_eq]
  split
  next hk =>
    rw [hk, find?_eq_some.2 ⟨hr, rfl⟩]
    simp
  next hk =>
    cases hf : t.find? k with
    | none => rfl
    | some r' => simp [(find?_eq_some.1 hf).2, hk]

/-- An upsert that inserts nothing into the attribute and leaves it
alone. -/
theorem column_upsert (hnew : f r = ∅) (hset : ∀ r, f (set r) = f r) :
    (t.upsert r set same).column f = t.column f := by
  funext k
  rw [column_eq, column_eq, find?_upsert]
  split
  · cases t.find? k <;> simp [hnew, hset]
  · rfl

/-- Rows that are not deleted keep their attributes. -/
theorem column_delete (gone : ρ → Bool) (k : κ) :
    (t.delete gone).column f k = {p | k ∈ (t.delete gone).keys ∧ p ∈ t.column f k} := by
  ext p
  constructor
  · rintro ⟨r, hr, rfl, hp⟩
    exact ⟨key_mem hr, r, (mem_delete.1 hr).1, rfl, hp⟩
  rintro ⟨hk, hp⟩
  obtain ⟨r, hr, rfl⟩ := mem_keys.1 hk
  rw [column_of_mem (mem_delete.1 hr).1] at hp
  exact ⟨r, hr, rfl, hp⟩

/-- A renamed row takes its attributes along. -/
theorem column_rename {named : ∀ r, key (set r) = new} {free : new ∉ t.keys}
    (hf : ∀ r, f (set r) = f r) :
    (t.rename old new set named free).column f
      = update (update (t.column f) old ∅) new (t.column f old) := by
  funext k
  rw [column_eq, find?_rename, update_apply, update_apply, column_eq, column_eq]
  split_ifs
  · cases t.find? old <;> simp [hf]
  · rfl
  · rfl

end Table
