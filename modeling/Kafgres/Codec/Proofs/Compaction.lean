/-
What the cleaner's functions compute: the map `add_batch` leaves, the
records `clean_batch` keeps, and the batch `rebuild_batch` makes of them.
-/
import Kafgres.Codec.Compaction
import Mathlib.Data.List.Pairwise

namespace Kafgres.Compaction

open Peaks List OffsetMap

variable {B : Type}

/-- Two batches of a log in offset order are the same or apart. -/
theorem apart_of_ordered {bs : List (Batch B)} {b c : Batch B}
    (h : bs.Pairwise (·.lastOffset < ·.baseOffset)) (hb : b ∈ bs)
    (hc : c ∈ bs) : b = c ∨ b.lastOffset < c.baseOffset ∨ c.lastOffset < b.baseOffset := by
  have hsymm : Std.Symm fun x y : Batch B =>
      x.lastOffset < y.baseOffset ∨ y.lastOffset < x.baseOffset :=
    ⟨fun _ _ => Or.symm⟩
  have hpw : bs.Pairwise fun x y => x.lastOffset < y.baseOffset ∨
      y.lastOffset < x.baseOffset := h.imp Or.inl
  rcases eq_or_ne b c with heq | hne
  · exact Or.inl heq
  · exact Or.inr (hpw.forall hb hc hne)

-- ==== the map of a batch's keys

/-- The keys of a batch under the map's fingerprints, with the offsets
of their records. -/
def OffsetMap.keysOf (m : OffsetMap B) (b : Batch B)
    (rs : List (Record B)) : List (BitVec 128 × ℤ) :=
  rs.filterMap fun r => r.key.map fun k => (m.fingerprint k, b.offset r)

variable {rs : List (Record B)} {o : ℤ}

theorem mem_keysOf {m : OffsetMap B} {b : Batch B} {f : BitVec 128} :
    (f, o) ∈ m.keysOf b rs ↔
      ∃ r ∈ rs, ∃ k, r.key = some k ∧ m.fingerprint k = f ∧ b.offset r = o := by
  simp [keysOf]

variable {m m' : OffsetMap B} {b b' : Batch B} {maxKeys : ℕ}

/-- A loop that gets through has read every record and has its keys. -/
theorem findKeys_spec (m : OffsetMap B) (b : Batch B) (maxKeys : ℕ) (rs : List (Record B))
    (found : List (BitVec 128 × ℤ)) (new : ℕ) :
    match m.findKeys b maxKeys rs found new with
    | .ok (some out) => b.keyFault = none ∧ out = raises found (m.keysOf b rs)
    | .ok none => True
    | .error _ => b.keyFault.isSome := by
  induction rs generalizing found new with
  | nil =>
    unfold findKeys
    split_ifs with hf
    · exact hf
    · exact ⟨by simpa using hf, rfl⟩
  | cons r rs ih =>
    unfold findKeys
    cases hk : r.key with
    | none => simpa [keysOf, hk] using ih found new
    | some k =>
      dsimp only
      split_ifs
      · trivial
      · simpa [keysOf, hk, raises] using ih _ _

variable {e : DecodeError} {key : B}

/-- The map with every key of a batch. -/
def OffsetMap.withKeys (m : OffsetMap B) (b : Batch B) : OffsetMap B :=
  { m with latest := raises m.latest (raises [] (m.keysOf b b.records)) }

/-- `add_batch` adds the whole batch or nothing: a control batch only
moves the end, a full map stays as it was. -/
theorem addBatch_ok {fits : Bool} (h : m.addBatch b maxKeys = .ok (fits, m')) :
    (fits = false ∧ m' = m) ∨
    (fits = true ∧ b.control = true ∧ m' = m.past b.lastOffset) ∨
    (fits = true ∧ b.control = false ∧ b.keyFault = none ∧
      m' = (m.withKeys b).past b.lastOffset) := by
  unfold addBatch at h
  split at h
  · next hc =>
      cases h
      exact Or.inr (Or.inl ⟨rfl, hc, rfl⟩)
  next hc =>
  have hspec := findKeys_spec m b maxKeys b.streamKeys [] 0
  split at h
  · cases h
  · cases h
    exact Or.inl ⟨rfl, rfl⟩
  next found hfound =>
  rw [hfound] at hspec
  obtain ⟨hfault, rfl⟩ := hspec
  have hall : b.streamKeys = b.records := by
    simp [Batch.streamKeys, hfault]
  cases h
  refine Or.inr (Or.inr ⟨rfl, by simpa using hc, hfault, ?_⟩)
  rw [hall]
  rfl

theorem addBatch_error (h : m.addBatch b maxKeys = .error e) :
    b.control = false ∧ b.keyFault.isSome := by
  unfold addBatch at h
  split at h
  · cases h
  next hc =>
  have hspec := findKeys_spec m b maxKeys b.streamKeys [] 0
  split at h
  · next hfind =>
      rw [hfind] at hspec
      exact ⟨by simpa using hc, hspec⟩
  · cases h
  · cases h

theorem superseded_iff :
    m.superseded key o = true ↔ ∃ p, m.latest.lookup (m.fingerprint key) = some p ∧ o < p := by
  unfold superseded
  cases m.latest.lookup (m.fingerprint key) <;> simp

/-- What a map reaches, it supersedes everything before. -/
theorem superseded_of_reaches {o' : ℤ}
    (h : Reaches m.latest (m.fingerprint key) o') (hlt : o < o') : m.superseded key o = true := by
  obtain ⟨p, hp, hle⟩ := h
  exact superseded_iff.2 ⟨p, hp, by omega⟩

-- ==== what is kept

section

variable [Wire B]

/-- A batch the cleaner may have to keep as it is. -/
def Batch.Unwieldy (b : Batch B) : Prop := b.recordFault.isSome ∨
    (b.compressed = true ∧ maxDecompressedBytes < (b.records.map Record.held).sum)

instance (b : Batch B) : Decidable b.Unwieldy := inferInstanceAs (Decidable (_ ∨ _))

variable {goes : ℤ → Bool} {kept : List (KeptRecord B)}

/-- How the loop ends: it keeps the records not dropped, it keeps the
batch for one of three reasons, or a record does not decode. -/
theorem keepRecords_spec (m : OffsetMap B) (goes : ℤ → Bool) (b : Batch B)
    (rs : List (Record B)) (kept : List (KeptRecord B)) (n : ℕ) (dropped : Bool) :
    match keepRecords m goes b rs kept n dropped with
    | .ok (some out) => b.recordFault = none ∧
        out = kept ++ (rs.filter fun r => !m.drops goes b r).map b.keep
    | .ok none => b.recordFault.isSome ∨
        (b.compressed = true ∧ maxDecompressedBytes < n + (rs.map Record.held).sum) ∨
        (dropped = false ∧ ∀ r ∈ rs, m.drops goes b r = false)
    | .error _ => ∃ at_, b.recordFault = some (at_, .malformed) := by
  induction rs generalizing kept n dropped with
  | nil =>
    unfold keepRecords
    rcases b.recordFault with _ | ⟨at_, _ | _⟩
    · cases dropped <;> simp
    · exact Or.inl rfl
    · exact ⟨at_, rfl⟩
  | cons r rs ih =>
    unfold keepRecords
    rw [map_cons, sum_cons]
    split_ifs with hd hc
    · have ih := ih kept n true
      generalize keepRecords m goes b rs kept n true = res at ih ⊢
      rcases res with e | _ | out
      · exact ih
      · rcases ih with hf | ⟨hc, hn⟩ | ⟨hd, -⟩
        · exact Or.inl hf
        · exact Or.inr (Or.inl ⟨hc, by omega⟩)
        · cases hd
      · simpa [hd] using ih
    · exact Or.inr (Or.inl ⟨hc.1, by omega⟩)
    · have ih := ih (kept ++ [b.keep r]) (n + r.held) dropped
      generalize keepRecords m goes b rs _ _ dropped = res at ih ⊢
      rcases res with e | _ | out
      · exact ih
      · rcases ih with hf | ⟨hc, hn⟩ | hall
        · exact Or.inl hf
        · exact Or.inr (Or.inl ⟨hc, by omega⟩)
        · exact Or.inr (Or.inr (by simpa [hd] using hall))
      · simpa [hd] using ih

/-- A batch that is taken apart decodes, and what is kept of it is every
record the pass does not drop. -/
theorem cleanBatch_some (h : cleanBatch b m goes = .ok (some kept)) :
    b.control = false ∧ b.recordFault = none ∧
      kept = (b.records.filter fun r => !m.drops goes b r).map b.keep := by
  unfold cleanBatch at h
  split at h
  · cases h
  next hc =>
  have hspec := keepRecords_spec m goes b b.streamRecords [] 0 false
  rw [h] at hspec
  obtain ⟨hf, hkept⟩ := hspec
  have hall : b.streamRecords = b.records := by
    simp [Batch.streamRecords, hf]
  refine ⟨?_, hf, by rw [hkept, hall, nil_append]⟩
  cases hctl : b.control with
  | false => rfl
  | true => exact absurd (Or.inl hctl) hc

/-- A data batch under the map that is kept whole is unwieldy or loses
nothing. -/
theorem cleanBatch_none (h : cleanBatch b m goes = .ok none)
    (hctl : b.control = false) (hend : b.baseOffset ≤ m.endOffset) :
    b.Unwieldy ∨ ∀ r ∈ b.records, m.drops goes b r = false := by
  unfold cleanBatch at h
  rw [if_neg (by simp [hctl, hend])] at h
  cases hf : b.recordFault with
  | some f => exact Or.inl (Or.inl (by simp [hf]))
  | none =>
    have hall : b.streamRecords = b.records := by
      simp [Batch.streamRecords, hf]
    rw [hall] at h
    have hspec := keepRecords_spec m goes b b.records [] 0 false
    rw [h] at hspec
    rcases hspec with hs | hbig | ⟨-, hkeep⟩
    · simp [hf] at hs
    · exact Or.inl (Or.inr (by simpa using hbig))
    · exact Or.inr hkeep

/-- A batch that fails is a malformed data batch. -/
theorem cleanBatch_error (h : cleanBatch b m goes = .error e) :
    b.control = false ∧ ∃ at_, b.recordFault = some (at_, .malformed) := by
  unfold cleanBatch at h
  split at h
  · cases h
  next hc =>
  have hspec := keepRecords_spec m goes b b.streamRecords [] 0 false
  rw [h] at hspec
  refine ⟨?_, hspec⟩
  cases hctl : b.control with
  | false => rfl
  | true => exact absurd (Or.inl hctl) hc

end

end Kafgres.Compaction
