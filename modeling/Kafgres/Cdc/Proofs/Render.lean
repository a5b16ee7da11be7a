/-
What a render step leaves in the journal: the changes without a record,
then the records in the order of the run, then dead letters.
-/
import Kafgres.Cdc.Delivery

namespace Kafgres.Cdc

open Ledger List Rendered

variable {n : ℕ} {engine : Engine} {keeps : Pos → Bool} {onError : OnError} {o : Outcome}
  {es : List Element} {f : Element → Rendered} {k : ℕ}

-- ==== what is rendered

/-- Each change renders on its own: by its filter, or not at all. -/
theorem renderPhase_eq {rendered : List (Element × Rendered)}
    (h : renderPhase keeps onError o es = some rendered) :
    ∃ f : Element → Rendered, rendered = es.map (fun e => (e, f e)) ∧
      ∀ e, f e = .ofFilter (keeps e.pos) ∨ f e = .failed := by
  unfold renderPhase at h
  split_ifs at h
  · exact ⟨_, (Option.some.inj h).symm, fun _ => .inl rfl⟩
  · refine ⟨_, (Option.some.inj h).symm, fun e => ?_⟩
    split_ifs
    · exact .inl rfl
    · exact .inr rfl
  · exact ⟨_, (Option.some.inj h).symm, fun _ => .inr rfl⟩

theorem ofFilter_eq_record {b : Bool} {r : Rendered} (h : r = .ofFilter b ∨ r = .failed)
    (hr : r = .record) : b = true := by
  cases b with
  | true => rfl
  | false => simp [hr, ofFilter] at h

theorem ofFilter_eq_nothing {b : Bool} {r : Rendered} (h : r = .ofFilter b ∨ r = .failed)
    (hr : r = .nothing) : b = false := by
  cases b with
  | true => simp [hr, ofFilter] at h
  | false => rfl

theorem records_map (f : Element → Rendered) (es : List Element) :
    records (es.map fun e => (e, f e)) = es.filter fun e => f e = .record := by
  unfold records
  induction es with
  | nil => rfl
  | cons e es ih =>
    by_cases he : f e = .record
    · simp [he, ih]
    · simp [he, ih]

/-- The changes without a record: an entry for each, none of them a
production. -/
theorem without_record (es : List Element) (f : Element → Rendered)
    {g : Element × Rendered → Option (Verdict × Pos)}
    (hg : g = settled ∨ g = undone) :
    (∀ v ∈ (es.map fun e => (e, f e)).filterMap g, v.1 ≠ .produced ∧
      ∃ e ∈ es, v.2 = e.pos ∧ (v.1 = .passed → f e = .nothing)) ∧
    ∀ e ∈ es, f e ≠ .record → ∃ v ∈ (es.map fun e => (e, f e)).filterMap g, v.2 = e.pos := by
  constructor
  · intro v hv
    obtain ⟨r, hr, hv⟩ := mem_filterMap.1 hv
    obtain ⟨e, he, rfl⟩ := mem_map.1 hr
    rcases hg with rfl | rfl <;> cases hf : f e <;>
      simp only [hf, settled, undone, Option.some.injEq, reduceCtorEq] at hv <;>
      exact hv ▸ ⟨by simp, e, he, rfl, by simp [hf]⟩
  · intro e he hrec
    have hmem := mem_map_of_mem (f := fun e => (e, f e)) he
    rcases hg with rfl | rfl <;> cases hf : f e <;> first
      | exact absurd hf hrec
      | exact ⟨_, mem_filterMap.2 ⟨_, hmem, by rw [hf]; rfl⟩, rfl⟩

theorem settled_stands {e : Element} (he : e ∈ es) (hrec : f e ≠ .record) :
    ∃ v ∈ (es.map fun e => (e, f e)).filterMap settled, v.2 = e.pos ∧ v.1 ≠ .tried := by
  have hmem := mem_map_of_mem (f := fun e => (e, f e)) he
  cases hf : f e with
  | record => exact absurd hf hrec
  | nothing =>
    exact ⟨(.passed, e.pos), mem_filterMap.2 ⟨_, hmem, by rw [hf]; rfl⟩, rfl, by simp⟩
  | failed =>
    exact ⟨(.dead, e.pos), mem_filterMap.2 ⟨_, hmem, by rw [hf]; rfl⟩, rfl, by simp⟩

theorem appendAll_all {k' : ℕ} (h : appendAll o k es = (k', .appended)) : k' = k + es.length := by
  induction es generalizing k with
  | nil =>
    cases h
    rfl
  | cons e es ih =>
    unfold appendAll at h
    cases ha : o.append k with
    | appended =>
      rw [ha] at h
      rw [ih h, length_cons]
      omega
    | refused | raised =>
      simp [ha] at h

theorem appendAll_fine (hfine : ∀ k, o.append k = .appended) (k : ℕ) :
    appendAll o k es = (k + es.length, .appended) := by
  induction es generalizing k with
  | nil => rfl
  | cons e es ih =>
    unfold appendAll
    rw [hfine k]
    simp only [ih, length_cons, Prod.mk.injEq, and_true]
    omega

-- ==== the journal

/-- The shape of what a step leaves: the changes without a record, the
first of the records, and dead letters. -/
theorem renderAndProduce_shape (engine : Engine) (keeps : Pos → Bool) (onError : OnError)
    (o : Outcome) (es : List Element) :
    ∃ (f : Element → Rendered) (recs : List Element) (without dead : List (Verdict × Pos)),
      (renderAndProduce engine keeps onError o es).1 =
        without ++ recs.map (fun e => (.produced, e.pos)) ++ dead ∧
      (∀ e, f e = .ofFilter (keeps e.pos) ∨ f e = .failed) ∧
      recs <+: es.filter (fun e => f e = .record) ∧
      (∀ v ∈ without ++ dead, v.1 ≠ .produced ∧
        ∃ e ∈ es, v.2 = e.pos ∧ (v.1 = .passed → f e = .nothing)) ∧
      (recs ≠ [] → ∀ e ∈ es, f e ≠ .record → ∃ v ∈ without, v.2 = e.pos) := by
  unfold renderAndProduce
  cases hphase : renderPhase keeps onError o es with
  | none =>
    exact ⟨fun e => .ofFilter (keeps e.pos), [], [], [], rfl, fun _ => .inl rfl, nil_prefix,
      by simp, fun h => absurd rfl h⟩
  | some rendered =>
    obtain ⟨f, rfl, hf⟩ := renderPhase_eq hphase
    dsimp only
    rw [records_map]
    generalize happ : appendAll o 0 (es.filter fun e => f e = .record) = a
    obtain ⟨k, last⟩ := a
    obtain ⟨hset, hset'⟩ := without_record es f (g := settled) (.inl rfl)
    obtain ⟨hund, hund'⟩ := without_record es f (g := undone) (.inr rfl)
    have hpre := take_prefix k (es.filter fun e => f e = .record)
    split_ifs
    · exact ⟨f, _, _, [], (append_nil _).symm, hf, hpre, by simpa using hset, fun _ => hset'⟩
    · refine ⟨f, _, _, _, rfl, hf, hpre, fun v hv => ?_, fun _ => hset'⟩
      rcases mem_append.1 hv with hv | hv
      · exact hset v hv
      · obtain ⟨e, he, rfl⟩ := mem_map.1 hv
        exact ⟨by simp, e, he, rfl, by simp⟩
    · cases engine with
      | table =>
        exact ⟨f, [], [], [], rfl, hf, nil_prefix, by simp, fun h => absurd rfl h⟩
      | segment =>
        exact ⟨f, _, _, [], (append_nil _).symm, hf, hpre, by simpa using hund, fun _ => hund'⟩

/-- A step that does not fail settles every change of the run. -/
theorem renderAndProduce_settles (h : (renderAndProduce engine keeps onError o es).2 = some k) :
    ∀ e ∈ es, ∃ v ∈ (renderAndProduce engine keeps onError o es).1, v.2 = e.pos ∧ v.1 ≠ .tried := by
  unfold renderAndProduce at h ⊢
  cases hphase : renderPhase keeps onError o es with
  | none =>
    simp [hphase] at h
  | some rendered =>
    obtain ⟨f, rfl, -⟩ := renderPhase_eq hphase
    rw [hphase] at h
    dsimp only at h ⊢
    rw [records_map] at h ⊢
    generalize happ : appendAll o 0 (es.filter fun e => f e = .record) = a at h ⊢
    obtain ⟨k', last⟩ := a
    intro e he
    split_ifs with hall hpart
    · by_cases hrec : f e = .record
      · -- every record was appended
        obtain rfl : last = .appended := hall.2
        have hk := appendAll_all happ
        refine ⟨(.produced, e.pos), mem_append_right _ (mem_map_of_mem ?_), rfl, by simp⟩
        rw [take_of_length_le (by omega)]
        exact mem_filter.2 ⟨he, by simpa using hrec⟩
      · obtain ⟨v, hv, hpos, hstands⟩ := settled_stands he hrec
        exact ⟨v, mem_append_left _ hv, hpos, hstands⟩
    · exact ⟨(.dead, e.pos), mem_append_right _ (mem_map_of_mem he), rfl, by simp⟩
    · rw [if_neg hall, if_neg hpart] at h
      cases engine <;> cases h

/-- What a step says of a change, other than that it is a dead letter, is
what the filter says. -/
theorem renderAndProduce_filtered {v : Verdict × Pos}
    (hv : v ∈ (renderAndProduce engine keeps onError o es).1)
    (hkind : v.1 = .produced ∨ v.1 = .passed) : v.1 = .ofFilter (keeps v.2) := by
  obtain ⟨f, recs, without, dead, hshape, hf, hrecs, hother, -⟩ :=
    renderAndProduce_shape engine keeps onError o es
  have hout : v ∈ without ++ dead → v.1 = .ofFilter (keeps v.2) := by
    intro hv
    obtain ⟨hne, e, -, hpos, hpassed⟩ := hother v hv
    have hpass : v.1 = .passed := hkind.resolve_left hne
    rw [hpass, hpos, ofFilter_eq_nothing (hf e) (hpassed hpass)]
    rfl
  rw [hshape] at hv
  rcases mem_append.1 hv with hv | hv
  · rcases mem_append.1 hv with hv | hv
    · exact hout (mem_append_left _ hv)
    · obtain ⟨e, he, rfl⟩ := mem_map.1 hv
      have hrec : f e = .record := by simpa using (mem_filter.1 (hrecs.subset he)).2
      rw [ofFilter_eq_record (hf e) hrec]
      rfl
  · exact hout (mem_append_right _ hv)

/-- In a fine step every change has one entry: a record, or nothing by
its filter. -/
theorem renderAndProduce_fine (engine : Engine) (keeps : Pos → Bool) (onError : OnError)
    (es : List Element) (hfine : o.Fine) :
    (∃ k, (renderAndProduce engine keeps onError o es).2 = some k) ∧
    ((renderAndProduce engine keeps onError o es).1.map (·.2)).Perm (es.map (·.pos)) ∧
    ∀ v ∈ (renderAndProduce engine keeps onError o es).1, v.1 = .produced ∨ v.1 = .passed := by
  have hphase : renderPhase keeps onError o es
      = some (es.map fun e => (e, .ofFilter (keeps e.pos))) := by
    unfold renderPhase
    rw [if_pos hfine.topic, if_pos hfine.batch]
  unfold renderAndProduce
  rw [hphase]
  dsimp only
  rw [records_map, appendAll_fine hfine.append]
  simp only [hfine.ok, and_self, if_true, Nat.zero_add]
  refine ⟨⟨_, rfl⟩, ?_, ?_⟩
  · rw [take_of_length_le le_rfl]
    clear hphase
    -- each element goes to one side or the other
    induction es with
    | nil => exact .nil
    | cons e es ih =>
      cases hk : keeps e.pos with
      | true =>
        simp only [map_cons, hk, ofFilter, if_true,
          filterMap_cons, settled, filter_cons,
          decide_true, map_append] at ih ⊢
        exact perm_middle.trans (ih.cons _)
      | false =>
        simp only [map_cons, hk, ofFilter, Bool.false_eq_true, if_false, filterMap_cons,
          settled, filter_cons, reduceCtorEq,
          decide_false, map_append, cons_append] at ih ⊢
        exact ih.cons _
  · intro v hv
    rcases mem_append.1 hv with hv | hv
    · obtain ⟨r, hr, hv⟩ := mem_filterMap.1 hv
      obtain ⟨e, -, rfl⟩ := mem_map.1 hr
      cases hk : keeps e.pos <;>
        simp only [hk, ofFilter, settled, if_true,
          Bool.false_eq_true, if_false, reduceCtorEq,
          Option.some.injEq] at hv
      exact .inr (hv ▸ rfl)
    · obtain ⟨e, -, rfl⟩ := mem_map.1 hv
      exact .inl rfl

-- ==== the justification

variable {cfg : Config n} {st : Stream} {J J' : List (Entry n)} {lane : Fin n} {p : Pos}

theorem Seen.mono (h : Seen J lane p) (hsub : J ⊆ J') : Seen J' lane p := by
  obtain ⟨e, he, hl⟩ := h
  exact ⟨e, hsub he, hl⟩

theorem Settled.mono (h : Settled cfg J lane p) (hsub : J ⊆ J') : Settled cfg J' lane p := by
  obtain ⟨e, he, hl⟩ := h
  exact ⟨e, hsub he, hl⟩

theorem Settled.seen (h : Settled cfg J lane p) : Seen J lane p := by
  obtain ⟨e, he, hl, hp, -⟩ := h
  exact ⟨e, he, hl, hp⟩

/-- Both things that are to be there before a production. -/
def Ready (cfg : Config n) (st : Stream) (pre : List (Entry n)) (e : Entry n) : Prop :=
  e.verdict = .produced → (∀ p, Due cfg st e.lane p → p < e.pos → Seen pre e.lane p) ∧
    ((cfg.mapping e.lane).summary = true → ∀ i p, (cfg.mapping i).summary = false → Due cfg st i p →
        p.endLsn ≤ e.pos.endLsn → Settled cfg pre i p)

/-- A run whose earlier changes are seen or in it, and whose summaries
come after their changes, is justified entry by entry. -/
theorem render_justified (hJ : Justified (Ready cfg st) J)
    (hinc : es.Pairwise fun a b => a.pos < b.pos)
    (hcov : ∀ e ∈ es, ∀ p, Due cfg st lane p → p < e.pos → Seen J lane p ∨ ∃ e' ∈ es, e'.pos = p)
    (hsum : (cfg.mapping lane).summary = true → ∀ e ∈ es, ∀ i p,
      (cfg.mapping i).summary = false → Due cfg st i p → p.endLsn ≤ e.pos.endLsn →
      Settled cfg J i p) :
    Justified (Ready cfg st) (J ++ (renderAndProduce engine keeps onError o es).1.map
        fun v => ⟨lane, v.1, v.2⟩) := by
  obtain ⟨f, recs, without, dead, hshape, -, hrecs, hother, hwithout⟩ :=
    renderAndProduce_shape engine keeps onError o es
  have hquiet : ∀ vs : List (Verdict × Pos), (∀ v ∈ vs, v ∈ without ++ dead) →
      ∀ pre, ∀ e ∈ vs.map (fun v => (⟨lane, v.1, v.2⟩ : Entry n)), Ready cfg st pre e := by
    intro vs hvs pre e he hprod
    obtain ⟨v, hv, rfl⟩ := mem_map.1 he
    exact absurd hprod (hother v (hvs v hv)).1
  rw [hshape, map_append, map_append, ← append_assoc, ← append_assoc]
  refine Justified.append_of_forall (Justified.append
    (Justified.append_of_forall hJ (hquiet without ?_)) ?_) (hquiet dead ?_)
  · exact fun v hv => mem_append_left _ hv
  · -- at a record: the run is in order, so the records before it are there
    intro pre x post hsplit _
    rw [map_map] at hsplit
    obtain ⟨r₁, r₂, hr, rfl, hr₂⟩ := map_eq_append_iff.1 hsplit
    obtain ⟨e, r₃, rfl, rfl, -⟩ := map_eq_cons_iff.1 hr₂
    have hmem : ∀ a ∈ recs, a ∈ es ∧ f a = .record := fun a ha => by
      simpa using mem_filter.1 (hrecs.subset ha)
    have he := (hmem e (by simp [hr])).1
    have hne : recs ≠ [] := by simp [hr]
    constructor
    · intro p hdue hlt
      rcases hcov e he p hdue hlt with hseen | ⟨e', he', rfl⟩
      · exact hseen.mono fun a ha => mem_append_left _ (mem_append_left _ ha)
      by_cases hrec : f e' = .record
      · obtain ⟨more, hmore⟩ := hrecs
        have hsorted : (recs ++ more).Pairwise fun a b => a.pos < b.pos := hmore ▸ hinc.filter _
        have hin : e' ∈ recs ++ more := hmore ▸ mem_filter.2 ⟨he', by simpa using hrec⟩
        rw [hr, append_assoc, pairwise_append] at hsorted
        rw [hr, append_assoc] at hin
        have hbefore : e' ∈ r₁ := by
          rcases mem_append.1 hin with hin | hin
          · exact hin
          rcases mem_cons.1 hin with rfl | hin
          · exact absurd hlt (lt_irrefl _)
          · exact absurd hlt ((pairwise_cons.1 hsorted.2.1).1 e' hin).not_gt
        exact ⟨_, mem_append_right _ (mem_map_of_mem hbefore), rfl, rfl⟩
      · obtain ⟨v, hv, hpos⟩ := hwithout hne e' he' hrec
        exact ⟨_, mem_append_left _ (mem_append_right _ (mem_map_of_mem hv)), rfl, hpos⟩
    · intro hs i p htable hdue hle
      exact (hsum hs e he i p htable hdue hle).mono fun a ha =>
        mem_append_left _ (mem_append_left _ ha)
  · exact fun v hv => mem_append_right _ hv

end Kafgres.Cdc
