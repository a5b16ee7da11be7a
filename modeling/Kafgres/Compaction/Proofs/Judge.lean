/-
What the judge's answers mean, batch by batch.
-/
import Kafgres.Compaction.Proofs.Thin

namespace Kafgres.Compaction

open List

variable {B : Type} {b b' : Batch B} {m m' : OffsetMap B} {j : Judge}
variable {known known' : List (ℤ × ℕ)}

theorem committed_ok {c : Bool} (hb : b.Sound) (hd : j.txns.Decided b)
    (h : j.committed b = .ok c) : j.txns.settled b = c := by
  unfold Judge.committed at h
  unfold Txns.settled
  split at h
  · next hplain =>
      cases h
      rw [if_pos hplain]
  next hplain =>
  rw [if_neg hplain]
  split at h
  · next hm =>
      rw [if_pos hm]
      unfold Txns.markerState at h
      dsimp only at h
      cases hc : j.txns.markers.contains b.baseOffset with
      | true =>
        rw [hc] at h
        cases h
        rfl
      | false =>
        rw [hc] at h
        split at h
        · next heq => cases heq
        · cases h
          rfl
        · cases h
  · next hm =>
      rw [if_neg hm]
      cases h
      have hplain : b.transactional = true ∧ b.control = false := by
        simpa using hplain
      have hopen := (hd hplain.1 hplain.2 (by simpa using hm) b.baseOffset le_rfl hb.base_le_last).1
      simp [hopen]

theorem tombstoneGoes_lt {o : ℤ} (h : j.tombstoneGoes o = true) : o < j.dirtyFrom := by
  unfold Judge.tombstoneGoes at h
  split at h
  · cases h
  · next hd =>
      simp only [Bool.or_eq_true, decide_eq_true_eq, not_or] at hd
      omega

-- ==== mapping

/-- What `map_batch` does with a batch, when the batches it knows not to
decode are ones whose keys do not. -/
theorem mapBatch_cases {maxKeys : ℕ} {fits : Bool}
    (hknown : isKnownUndecodable known b = true → b.keyFault.isSome)
    (h : mapBatch known m b maxKeys = (known', m', fits)) :
    (fits = false ∧ m' = m ∧ known' = known) ∨
    (fits = true ∧ m' = m.past b.lastOffset ∧ (b.control = true ∨ b.keyFault.isSome) ∧
      (known' = known ∨ known' = undecodable known b ∧ b.control = false ∧ b.keyFault.isSome)) ∨
    (fits = true ∧ m' = (m.withKeys b).past b.lastOffset ∧
      b.control = false ∧ b.keyFault = none ∧ known' = known) := by
  unfold mapBatch at h
  split at h
  · next hk =>
      cases h
      exact Or.inr (Or.inl ⟨rfl, rfl, Or.inr (hknown hk), Or.inl rfl⟩)
  split at h
  · next hadd =>
      cases h
      rcases addBatch_ok hadd with ⟨hf, hm⟩ | ⟨hf, hc, hm⟩ | ⟨hf, hc, hkf, hm⟩
      · exact Or.inl ⟨hf, hm, rfl⟩
      · exact Or.inr (Or.inl ⟨hf, hm, Or.inl hc, Or.inl rfl⟩)
      · exact Or.inr (Or.inr ⟨hf, hm, hc, hkf, rfl⟩)
  · next hadd =>
      cases h
      obtain ⟨hc, hkf⟩ := addBatch_error hadd
      exact Or.inr (Or.inl ⟨rfl, rfl, Or.inr hkf, Or.inr ⟨rfl, hc, hkf⟩⟩)

-- ==== rewriting

/-- No record of the batch under the map's end has a later one of its
key in the map. -/
def Swept (m : OffsetMap B) (b : Batch B) : Prop :=
  ∀ e ∈ b.entries, ∀ k, e.key = some k → e.offset ≤ m.endOffset → m.superseded k e.offset = false

variable {goes : ℤ → Bool}

theorem drops_eq_true {r : Record B} (h : m.drops goes b r = true) :
    b.offset r ≤ m.endOffset ∧ ∃ k, r.key = some k ∧ (m.superseded k (b.offset r) = true ∨
        (r.value = none ∧ goes (b.offset r) = true)) := by
  unfold OffsetMap.drops at h
  cases hk : r.key with
  | none => simp [hk] at h
  | some k =>
    rw [hk] at h
    simp only [Bool.and_eq_true, Bool.or_eq_true, decide_eq_true_eq, Option.isNone_iff_eq_none] at h
    exact ⟨h.1, k, rfl, h.2⟩

theorem superseded_of_not_drops {r : Record B} {k : B} (h : m.drops goes b r = false)
    (hk : r.key = some k) (hend : b.offset r ≤ m.endOffset) :
    m.superseded k (b.offset r) = false := by
  unfold OffsetMap.drops at h
  rw [hk] at h
  simp only [decide_eq_true hend, Bool.true_and, Bool.or_eq_false_iff] at h
  exact h.1

theorem swept_of_not_drops (h : ∀ r ∈ b.records, m.drops goes b r = false) : Swept m b := by
  intro e he k hk hend
  obtain ⟨r, hr, rfl⟩ := mem_entries.1 he
  exact superseded_of_not_drops (h r hr) hk hend

section

variable [Wire B] {out : List (Batch B)}

/-- A batch of which only what the map supersedes is gone, and
tombstones below `d`. -/
structure Reduced (t : Txns) (m : OffsetMap B) (d : ℤ) (b : Batch B)
    (out : List (Batch B)) : Prop where
  thin : Thin b out
  under : out = [b] ∨ b.baseOffset ≤ m.endOffset
  faulty : t.Live b → b.keyFault.isSome → out = [b]
  dropped : t.Live b → ∀ e ∈ b.entries, ∀ k, e.key = some k →
    (∀ b' ∈ out, e ∉ b'.entries) → m.superseded k e.offset = true ∨
        (e.value = none ∧ e.offset < d ∧ b.keyFault = none)

/-- What a rewrite makes of one batch: reduced, and what is left holds
nothing the map supersedes, unless it is unwieldy. -/
structure Judged (t : Txns) (m : OffsetMap B) (d : ℤ) (b : Batch B)
    (out : List (Batch B)) : Prop extends Reduced t m d b out where
  swept : t.Live b → ∀ b' ∈ out, b'.baseOffset ≤ m.endOffset →
    b'.Unwieldy ∨ Swept m b'

theorem Reduced.refl {t : Txns} {d : ℤ} (hb : b.Sound) : Reduced t m d b [b] :=
  ⟨Thin.refl hb, Or.inl rfl, fun _ _ => rfl, fun _ _ he _ _ hout =>
    absurd he (hout b mem_cons_self)⟩

theorem unwieldy_of_keyFault (hb : b.Sound) (h : b.keyFault.isSome) : b.Unwieldy := by
  left
  cases hf : b.recordFault with
  | some f => rfl
  | none => simp [hb.decodes hf] at h

/-- A batch kept as it is, because nothing of it can be judged or it
loses nothing or it cannot be taken apart. -/
theorem Judged.kept {t : Txns} {d : ℤ} (hb : b.Sound)
    (h : t.Live b → b.baseOffset ≤ m.endOffset → b.Unwieldy ∨ Swept m b) : Judged t m d b [b] := by
  refine ⟨Reduced.refl hb, fun hlive b' hb' => ?_⟩
  rw [mem_singleton.1 hb']
  exact h hlive

/-- A batch taken apart and rebuilt around what is not dropped. -/
theorem Judged.rebuilt {t : Txns} {d : ℤ} (hb : b.Sound) (hgoes : ∀ o, goes o = true → o < d)
    (hend : b.baseOffset ≤ m.endOffset) (hf : b.recordFault = none) :
    Judged t m d b (rebuildBatch b
      ((b.records.filter fun r => !m.drops goes b r).map b.keep)).toList := by
  refine ⟨⟨Thin.rebuilt hb hf, Or.inr hend, fun _ hk => ?_,
    fun _ e he k hk hout => ?_⟩, fun _ b' hb' _ => Or.inr ?_⟩
  · simp [hb.decodes hf] at hk
  · obtain ⟨r, hr, rfl⟩ := mem_entries.1 he
    cases hdrop : m.drops goes b r with
    | true =>
      obtain ⟨-, k', hk', hwhy⟩ := drops_eq_true hdrop
      obtain rfl : k' = k := Option.some.inj (hk'.symm.trans hk)
      rcases hwhy with hs | ⟨hv, hg⟩
      · exact Or.inl hs
      · exact Or.inr ⟨hv, hgoes _ hg, hb.decodes hf⟩
    | false =>
      -- a record that is not dropped is in the rebuilt batch
      have hin : b.keep r ∈ (b.records.filter fun r => !m.drops goes b r).map b.keep :=
        mem_map_of_mem (mem_filter.2 ⟨hr, by simp [hdrop]⟩)
      cases hb' : rebuildBatch b ((b.records.filter fun r => !m.drops goes b r).map b.keep) with
      | none =>
        unfold rebuildBatch at hb'
        split at hb'
        · next heq =>
            simp [heq] at hin
        · cases hb'
      | some b' =>
        refine absurd ?_ (hout b' (by simp [hb']))
        rw [rebuildBatch_entries hb']
        exact mem_map.2 ⟨b.keep r, hin, rfl⟩
  · have hb' := Option.mem_toList.1 hb'
    intro e he k hk hend
    rw [rebuildBatch_entries hb', map_map] at he
    obtain ⟨r, hr, rfl⟩ := mem_map.1 he
    obtain ⟨hr, hkeep⟩ := mem_filter.1 hr
    exact superseded_of_not_drops (by simpa using hkeep) hk hend

/-- `clean_or_keep` on a committed batch. -/
theorem cleanOrKeep_judged {t : Txns} {d : ℤ} {kept : Option (List (KeptRecord B))} (hb : b.Sound)
    (hgoes : ∀ o, goes o = true → o < d) (hend : b.baseOffset ≤ m.endOffset)
    (hknown : isKnownUndecodable known b = true → b.keyFault.isSome)
    (h : cleanOrKeep known b m goes = (known', kept)) :
    Judged t m d b (b.replaced kept) ∧ (known' = known ∨ known' = undecodable known b ∧
        b.control = false ∧ b.keyFault.isSome) := by
  unfold cleanOrKeep at h
  split at h
  · next hk =>
      cases h
      exact ⟨Judged.kept hb fun _ _ =>
        Or.inl (unwieldy_of_keyFault hb (hknown hk)), Or.inl rfl⟩
  · split at h
    · next hclean =>
        cases h
        refine ⟨?_, Or.inl rfl⟩
        cases kept with
        | none =>
          refine Judged.kept hb fun hlive hend => ?_
          rcases cleanBatch_none hclean hlive.1 hend with hu | hn
          · exact Or.inl hu
          · exact Or.inr (swept_of_not_drops hn)
        | some kept =>
          obtain ⟨-, hf, rfl⟩ := cleanBatch_some hclean
          exact Judged.rebuilt hb hgoes hend hf
    · next hclean =>
        cases h
        obtain ⟨hc, at_, hf⟩ := cleanBatch_error hclean
        exact ⟨Judged.kept hb fun _ _ => Or.inl (Or.inl (by simp [hf])),
          Or.inr ⟨rfl, hc, hb.malformed at_ hf⟩⟩

/-- `judge_batch` on a batch whose transaction is over. -/
theorem judgeBatch_judged {kept : Option (List (KeptRecord B))} (hb : b.Sound)
    (hd : b.baseOffset ≤ m.endOffset → j.txns.Decided b)
    (hknown : isKnownUndecodable known b = true → b.keyFault.isSome)
    (h : judgeBatch j m known b = (known', .ok kept)) :
    Judged j.txns m j.dirtyFrom b (b.replaced kept) ∧
      (known' = known ∨ known' = undecodable known b ∧ j.txns.Live b ∧ b.keyFault.isSome ∧
        b.baseOffset ≤ m.endOffset) := by
  unfold judgeBatch at h
  split at h
  · next hend =>
      cases h
      exact ⟨Judged.kept hb fun _ hle => absurd hle (by omega), Or.inl rfl⟩
  next hend =>
  have hend : b.baseOffset ≤ m.endOffset := by omega
  split at h
  · cases h
  · next hcom =>
      cases h
      have hset := committed_ok hb (hd hend) hcom
      have hdead : ¬ j.txns.Live b := by simp [Txns.Live, hset]
      exact ⟨⟨⟨Thin.gone, Or.inr hend, fun hl => absurd hl hdead,
        fun hl => absurd hl hdead⟩, fun hl => absurd hl hdead⟩,
        Or.inl rfl⟩
  · next hcom =>
      have hset := committed_ok hb (hd hend) hcom
      cases hck : cleanOrKeep known b m j.tombstoneGoes with
      | mk known₁ kept₁ =>
        rw [hck] at h
        cases h
        obtain ⟨hj, hk⟩ := cleanOrKeep_judged hb (fun _ => tombstoneGoes_lt) hend hknown hck
        refine ⟨hj, hk.imp id fun hk => ?_⟩
        exact ⟨hk.1, ⟨hk.2.1, hset⟩, hk.2.2, hend⟩

end

end Kafgres.Compaction
