/-
What the offset map of a plan holds, from the first batch it reads
(`MapOf`) to the moment rewriting starts (`MapFits`).
-/
import Kafgres.Compaction.Proofs.Log

namespace Kafgres.Compaction

open Peaks List

variable {B : Type} {p : Partition B} {b : Batch B} {m : OffsetMap B}
variable {t : Txns} {d : ℤ} {pre : List (Batch B)}

-- ==== the map of a list

/-- The map of the batches of `pre` that reach to `d` or above it. -/
structure MapOf (t : Txns) (d : ℤ) (pre : List (Batch B))
    (m : OffsetMap B) : Prop where
  covered : ∀ b ∈ pre, b.lastOffset < d ∨ b.lastOffset ≤ m.endOffset
  reached : m.endOffset = -1 ∨
    ∃ b ∈ pre, d ≤ b.lastOffset ∧ b.lastOffset = m.endOffset
  complete : ∀ b ∈ pre, d ≤ b.lastOffset → t.Live b → b.keyFault = none →
    ∀ e ∈ b.entries, ∀ k, e.key = some k → Reaches m.latest (m.fingerprint k) e.offset
  sound : ∀ f o, (f, o) ∈ m.latest → ∃ b ∈ pre,
    d ≤ b.lastOffset ∧ b.lastOffset ≤ m.endOffset ∧ t.Live b ∧
      ∃ e ∈ b.entries, e.offset = o ∧ ∃ k, e.key = some k ∧ m.fingerprint k = f

/-- A new plan's map, of batches that all lie in the clean section. -/
theorem MapOf.new {fingerprint : B → BitVec 128} (h : ∀ b ∈ pre, b.lastOffset < d) :
    MapOf t d pre (OffsetMap.new fingerprint) := by
  refine ⟨fun b hb => Or.inl (h b hb), Or.inl rfl, fun b hb hd => ?_, fun f o hf => ?_⟩
  · have := h b hb
    omega
  · cases hf

/-- A batch of the clean section is not mapped. -/
theorem MapOf.skip (h : MapOf t d pre m) (hb : b.lastOffset < d) : MapOf t d (pre ++ [b]) m := by
  refine ⟨forall_mem_append.2 ⟨h.covered, by simp [hb]⟩, ?_, ?_, fun f o hf => ?_⟩
  · refine h.reached.imp id ?_
    rintro ⟨x, hx, hrest⟩
    exact ⟨x, mem_append_left _ hx, hrest⟩
  · refine forall_mem_append.2 ⟨h.complete, forall_mem_singleton.2 fun hd => ?_⟩
    omega
  · obtain ⟨x, hx, hrest⟩ := h.sound f o hf
    exact ⟨x, mem_append_left _ hx, hrest⟩

/-- The end of the map moved past a batch of the dirty section, with
what the map then has of its keys. -/
theorem MapOf.grow {m' : OffsetMap B} (h : MapOf t d pre m)
    (hd : d ≤ b.lastOffset) (hfp : m'.fingerprint = m.fingerprint)
    (hend : m'.endOffset = max m.endOffset b.lastOffset)
    (hold : ∀ f o, Reaches m.latest f o → Reaches m'.latest f o)
    (hnew : t.Live b → b.keyFault = none → ∀ e ∈ b.entries, ∀ k,
      e.key = some k → Reaches m'.latest (m.fingerprint k) e.offset)
    (hback : ∀ f o, (f, o) ∈ m'.latest → (f, o) ∈ m.latest ∨ (t.Live b ∧ ∃ e ∈ b.entries,
        e.offset = o ∧ ∃ k, e.key = some k ∧ m.fingerprint k = f)) : MapOf t d (pre ++ [b]) m' := by
  refine ⟨fun x hx => ?_, ?_, fun x hx hdx hlive hk e he k hkey => ?_, fun f o hf => ?_⟩
  · rcases mem_append.1 hx with hx | hx
    · have := h.covered x hx
      omega
    · rw [mem_singleton.1 hx]
      omega
  · -- the end is the last offset of the batch or what it was
    rcases le_total m.endOffset b.lastOffset with hle | hle
    · exact Or.inr ⟨b, mem_append_right _ mem_cons_self, hd, by omega⟩
    · rcases h.reached with hneg | ⟨x, hx, hdx, hlast⟩
      · exact Or.inl (by omega)
      · exact Or.inr ⟨x, mem_append_left _ hx, hdx, by omega⟩
  · rw [hfp]
    rcases mem_append.1 hx with hx | hx
    · exact hold _ _ (h.complete x hx hdx hlive hk e he k hkey)
    · rw [mem_singleton.1 hx] at hlive hk he
      exact hnew hlive hk e he k hkey
  · rw [hfp]
    rcases hback f o hf with hf | ⟨hlive, hrest⟩
    · obtain ⟨x, hx, hdx, hle, hrest⟩ := h.sound f o hf
      exact ⟨x, mem_append_left _ hx, hdx, by omega, hrest⟩
    · exact ⟨b, mem_append_right _ mem_cons_self, hd, by omega, hlive, hrest⟩

/-- A batch that is not live, or whose keys cannot be read, only moves
the end. -/
theorem MapOf.past (h : MapOf t d pre m) (hd : d ≤ b.lastOffset)
    (hb : t.Live b → b.keyFault.isSome) : MapOf t d (pre ++ [b]) (m.past b.lastOffset) := by
  refine h.grow hd rfl rfl (fun _ _ hr => hr) (fun hlive hk => ?_) fun _ _ hf => Or.inl hf
  have := hb hlive
  simp [hk] at this

/-- A live batch with its keys. -/
theorem MapOf.add (h : MapOf t d pre m) (hd : d ≤ b.lastOffset) (hlive : t.Live b) :
    MapOf t d (pre ++ [b]) ((m.withKeys b).past b.lastOffset) := by
  refine h.grow hd rfl rfl (fun f o hr => hr.raises _) (fun _ _ e he k hk => ?_) fun f o hf => ?_
  · obtain ⟨r, hr, rfl⟩ := mem_entries.1 he
    have hkey : (m.fingerprint k, b.offset r) ∈ m.keysOf b b.records :=
      mem_keysOf.2 ⟨r, hr, k, hk, rfl, rfl⟩
    -- the batch's own map peaks at or above the record, and so does this
    obtain ⟨o, ho, hle⟩ := reaches_raises (l := ([] : List (BitVec 128 × ℤ))) hkey
    obtain ⟨q, hq, hoq⟩ := reaches_raises (l := m.latest) (mem_of_lookup ho)
    exact ⟨q, hq, hle.trans hoq⟩
  · refine (mem_of_mem_raises hf).imp id fun hin => ⟨hlive, ?_⟩
    have hkey : (f, o) ∈ m.keysOf b b.records := (mem_of_mem_raises hin).resolve_left not_mem_nil
    obtain ⟨r, hr, k, hk, hf, ho⟩ := mem_keysOf.1 hkey
    exact ⟨_, mem_entries.2 ⟨r, hr, rfl⟩, ho, k, hk, hf⟩

/-- A longer stretch: the map ends at or below where it did, or within
what was added. -/
theorem MapOf.end_le {more : List (Batch B)} {m' : OffsetMap B} {o : ℤ} (h : MapOf t d pre m)
    (h' : MapOf t d (pre ++ more) m') (ho : 0 ≤ o) (hle : o ≤ m'.endOffset) :
    o ≤ m.endOffset ∨ ∃ b ∈ more, o ≤ b.lastOffset := by
  rcases h'.reached with hneg | ⟨b, hb, hd, hlast⟩
  · omega
  rcases mem_append.1 hb with hb | hb
  · have := h.covered b hb
    exact Or.inl (by omega)
  · exact Or.inr ⟨b, hb, hle.trans hlast.ge⟩

-- ==== one mapping loop

/-- The batches a process knows not to decode are in the log, committed,
and do not decode. -/
def KnownOk (p : Partition B) (known : List (ℤ × ℕ)) : Prop :=
  ∀ id ∈ known, ∃ b ∈ p.log, b.baseOffset = id.1 ∧ b.keyFault.isSome ∧
    p.txns.Live b ∧ b.lastOffset < p.lastStable

variable {known known' : List (ℤ × ℕ)}

theorem KnownOk.keyFault (hp : p.Shape) (h : KnownOk p known)
    (hb : b ∈ p.log) (hk : isKnownUndecodable known b = true) : b.keyFault.isSome := by
  obtain ⟨b', hb', hbase, hfault, -⟩ := h _ (contains_iff_mem.1 hk)
  rw [hp.eq_of_base_eq hb hb' hbase.symm]
  exact hfault

theorem KnownOk.insert (h : KnownOk p known) (hb : b ∈ p.log)
    (hlive : p.txns.Live b) (hk : b.keyFault.isSome) (hlast : b.lastOffset < p.lastStable) :
    KnownOk p (undecodable known b) := by
  unfold undecodable
  split
  · exact h
  intro id hid
  rcases mem_insert_iff.1 hid with rfl | hid
  · exact ⟨b, hb, rfl, hk, hlive, hlast⟩
  · exact h id hid

/-- The map after the batches of `pre`. -/
structure Mapping (p : Partition B) (d : ℤ) (pre : List (Batch B))
    (fingerprint : B → BitVec 128) (m : OffsetMap B) : Prop where
  map : MapOf p.txns d pre m
  stable : m.endOffset < p.lastStable
  hashers : m.fingerprint = fingerprint

variable {c : Call B} {j : Judge} {w w' : MapWork B}
variable {fp : B → BitVec 128} {s : Segment B} {pos : ℕ}

/-- A batch of the loop is added to the stretch, or mapping stops before
it with the map as it was. -/
theorem mapOne_cases {stop : Option Mapped} (hp : p.Shape)
    (hj : j.txns = p.txns) (h : Mapping p j.dirtyFrom pre fp w.map)
    (hknown : KnownOk p w.known) (hb : b ∈ p.log)
    (hone : mapOne c j p.lastStable b w = (w', stop)) :
    KnownOk p w'.known ∧ ((stop = none ∧ Mapping p j.dirtyFrom (pre ++ [b]) fp w'.map) ∨
      (stop ≠ none ∧ stop ≠ some .ran ∧ (∀ n, stop ≠ some (.paused n)) ∧
        Mapping p j.dirtyFrom pre fp w'.map)) := by
  unfold mapOne at hone
  split at hone
  · cases hone
    exact ⟨hknown, Or.inr ⟨by simp, by simp, by simp, h⟩⟩
  dsimp only at hone
  split at hone
  · next hclean =>
      cases hone
      exact ⟨hknown, Or.inl ⟨rfl, h.map.skip hclean, h.stable, h.hashers⟩⟩
  next hd =>
  split at hone
  · cases hone
    exact ⟨hknown, Or.inr ⟨by simp, by simp, by simp, h⟩⟩
  next hs =>
  have hd : j.dirtyFrom ≤ b.lastOffset := by omega
  have hs : b.lastOffset < p.lastStable := by omega
  have hdec : j.txns.Decided b := hj ▸ hp.decided b hb hs
  have hend : (w.map.past b.lastOffset).endOffset < p.lastStable := max_lt h.stable hs
  split at hone
  · cases hone
    exact ⟨hknown, Or.inr ⟨by simp, by simp, by simp, h⟩⟩
  · next hcom =>
      cases hone
      have hset := committed_ok (hp.sound b hb) hdec hcom
      rw [hj] at hset
      refine ⟨hknown, Or.inl ⟨rfl, h.map.past hd fun hlive => ?_, hend, h.hashers⟩⟩
      exact absurd (hset.symm.trans hlive.2) (by simp)
  · next hcom =>
      have hset := committed_ok (hp.sound b hb) hdec hcom
      rw [hj] at hset
      have hfaulty := fun hk => hknown.keyFault hp hb hk
      split at hone
      · next hmap =>
          cases hone
          rcases mapBatch_cases hfaulty hmap with ⟨hf, -⟩ |
              ⟨-, rfl, hwhy, hk⟩ | ⟨-, rfl, hctl, -, rfl⟩
          · cases hf
          · refine ⟨?_, Or.inl ⟨rfl, h.map.past hd fun hlive => ?_, hend, h.hashers⟩⟩
            · rcases hk with rfl | ⟨rfl, hctl, hfault⟩
              · exact hknown
              · exact hknown.insert hb ⟨hctl, hset⟩ hfault hs
            · exact hwhy.resolve_left (by simp [hlive.1])
          · exact ⟨hknown, Or.inl ⟨rfl, h.map.add hd ⟨hctl, hset⟩, hend, h.hashers⟩⟩
      · next hmap =>
          cases hone
          rcases mapBatch_cases hfaulty hmap with ⟨-, rfl, rfl⟩ | ⟨hf, -⟩ | ⟨hf, -⟩
          · exact ⟨hknown, Or.inr ⟨by simp, by simp, by simp, h⟩⟩
          · cases hf
          · cases hf

/-- The loop over part of a segment maps some of its batches from the
front, all of them when it runs to the end, and says where it paused. -/
theorem mapSegment_maps {bs : List (Batch B)} {out : Mapped} (hp : p.Shape) (hj : j.txns = p.txns)
    (h : Mapping p j.dirtyFrom pre fp w.map) (hknown : KnownOk p w.known)
    (hbs : ∀ b ∈ bs, b ∈ p.log) (hrun : mapSegment c j p.lastStable bs pos w = (w', out)) :
    KnownOk p w'.known ∧
    ∃ n ≤ bs.length, Mapping p j.dirtyFrom (pre ++ bs.take n) fp w'.map ∧
      (out = .ran → n = bs.length) ∧
      ∀ pos', out = .paused pos' → pos' = pos + n := by
  induction bs generalizing pre pos w with
  | nil =>
    unfold mapSegment at hrun
    split at hrun
    all_goals
      cases hrun
      exact ⟨hknown, 0, le_rfl, by simpa using h, by simp, by simp⟩
  | cons b bs ih =>
    unfold mapSegment at hrun
    split at hrun
    · cases hrun
      exact ⟨hknown, 0, by simp, by simpa using h, by simp, by simp⟩
    cases hone : mapOne c j p.lastStable b w with
    | mk w₁ stop =>
    rw [hone] at hrun
    obtain ⟨hknown₁, hcases⟩ := mapOne_cases hp hj h hknown (hbs b mem_cons_self) hone
    cases stop with
    | none =>
      have h₁ := (hcases.resolve_right (by simp)).2
      obtain ⟨hknown', n, hn, hmap, hran, hpause⟩ := ih h₁ hknown₁
        (fun x hx => hbs x (.tail _ hx)) hrun
      refine ⟨hknown', n + 1, by simpa using hn, ?_, ?_, fun pos' hpos => ?_⟩
      · simpa using hmap
      · intro ho
        simpa using hran ho
      · rw [hpause pos' hpos]
        omega
    | some stop =>
      cases hrun
      obtain ⟨-, hr, hpz, h₁⟩ := hcases.resolve_left (by simp)
      exact ⟨hknown₁, 0, by simp, by simpa using h₁, fun ho => absurd (congrArg some ho) hr,
        fun pos' ho => absurd (congrArg some ho) (hpz pos')⟩

/-- Where mapping stands: between two batches of a sealed segment, or
done with the sealed segments up to some batch. -/
def MapsTo (p : Partition B) (d : ℤ) (fp : B → BitVec 128) (m : OffsetMap B) : Option (ℤ × ℕ) → Prop
  | none => ∃ pre post, p.closed.flatMap (·.batches) = pre ++ post ∧ Mapping p d pre fp m
  | some (base, pos) => ∃ before s after, p.closed = before ++ s :: after ∧ s.base = base ∧
        pos ≤ s.batches.length ∧
        Mapping p d (before.flatMap (·.batches) ++ s.batches.take pos) fp m

/-- How the loop over the segments leaves the map. -/
def Stands (p : Partition B) (d : ℤ) (fp : B → BitVec 128) (w : MapWork B)
    (r : Except StoreError (Option (ℤ × ℕ))) : Prop :=
  KnownOk p w.known ∧ ∀ resume, r = .ok resume → MapsTo p d fp w.map resume

/-- The map ends at or below where it did, or within the segments. -/
def Ends (segs : List (Segment B)) (m m' : OffsetMap B) : Prop :=
  ∀ o, 0 ≤ o → o ≤ m'.endOffset → o ≤ m.endOffset ∨ ∃ s ∈ segs, ∃ b ∈ s.batches, o ≤ b.lastOffset

/-- The batches before some point of a sealed segment are a start of the
sealed segments. -/
theorem MapsTo.done {before after : List (Segment B)} (hclosed : p.closed = before ++ s :: after)
    (h : Mapping p d (before.flatMap (·.batches) ++ s.batches.take pos) fp m) :
    MapsTo p d fp m none := by
  refine ⟨_, s.batches.drop pos ++ after.flatMap (·.batches), ?_, h⟩
  rw [hclosed, flatMap_append, flatMap_cons, append_assoc,
    ← append_assoc (s.batches.take _), take_append_drop]

variable {r : Except StoreError (Option (ℤ × ℕ))} {at_ : ℤ × ℕ}
  {before segs after : List (Segment B)}

/-- The loop entered in a segment at `start`, given how it goes on
behind the segment. -/
theorem mapSegments_cons {start : ℕ} (hp : p.Shape) (hj : j.txns = p.txns)
    (hclosed : p.closed = before ++ s :: after)
    (hat : (if s.base = at_.1 then at_.2 else 0) = start) (hstart : start ≤ s.batches.length)
    (h : Mapping p j.dirtyFrom (before.flatMap (·.batches) ++ s.batches.take start) fp w.map)
    (hknown : KnownOk p w.known)
    (hrest : ∀ w₁, Mapping p j.dirtyFrom ((before ++ [s]).flatMap (·.batches)) fp w₁.map →
      KnownOk p w₁.known → mapSegments c j p.lastStable at_ segs w₁ = (w', r) →
      Stands p j.dirtyFrom fp w' r ∧ Ends segs w₁.map w'.map)
    (hrun : mapSegments c j p.lastStable at_ (s :: segs) w = (w', r)) :
    Stands p j.dirtyFrom fp w' r ∧ Ends (s :: segs) w.map w'.map := by
  have hmem : ∀ b ∈ s.batches.drop start, b ∈ p.log := by
    intro b hb
    refine Partition.mem_log.2 ⟨s, ?_, mem_of_mem_drop hb⟩
    unfold Partition.segments
    rw [hclosed]
    simp
  unfold mapSegments at hrun
  rw [hat] at hrun
  dsimp only at hrun
  cases hseg : mapSegment c j p.lastStable (s.batches.drop start) start w with
  | mk w₁ out =>
  rw [hseg] at hrun
  obtain ⟨hknown', n, hn, hmap, hran, hpause⟩ := mapSegment_maps hp hj h hknown hmem hseg
  rw [length_drop] at hn hran
  have hend : Ends (s :: segs) w.map w₁.map := by
    intro o ho hle
    refine (h.map.end_le hmap.map ho hle).imp id ?_
    rintro ⟨b, hb, hle⟩
    exact ⟨s, .head _, b, mem_of_mem_drop (mem_of_mem_take hb), hle⟩
  -- the batches mapped before and now are a longer start of the segment
  rw [append_assoc, ← take_add] at hmap
  cases out with
  | ran =>
    have hall : s.batches.take (start + n) = s.batches :=
      take_of_length_le (by rw [hran rfl]; omega)
    rw [hall] at hmap
    obtain ⟨hstands, hends⟩ := hrest w₁ (by simpa using hmap) hknown' hrun
    refine ⟨hstands, fun o ho hle => ?_⟩
    rcases hends o ho hle with hle | ⟨x, hx, hin⟩
    · exact hend o ho hle
    · exact Or.inr ⟨x, .tail _ hx, hin⟩
  | paused pos =>
    cases hrun
    refine ⟨⟨hknown', ?_⟩, hend⟩
    rintro _ ⟨⟩
    rw [hpause pos rfl]
    exact ⟨before, s, after, hclosed, rfl, by omega, hmap⟩
  | stopped =>
    cases hrun
    refine ⟨⟨hknown', ?_⟩, hend⟩
    rintro _ ⟨⟩
    exact .done hclosed hmap
  | failed e =>
    cases hrun
    exact ⟨⟨hknown', nofun⟩, hend⟩

/-- The loop over the segments after the one it was entered in. -/
theorem mapSegments_fresh (hp : p.Shape)
    (hj : j.txns = p.txns) (hclosed : p.closed = before ++ (segs ++ after))
    (hfresh : ∀ s ∈ segs, s.base = at_.1 → at_.2 = 0)
    (h : Mapping p j.dirtyFrom (before.flatMap (·.batches)) fp w.map) (hknown : KnownOk p w.known)
    (hrun : mapSegments c j p.lastStable at_ segs w = (w', r)) :
    Stands p j.dirtyFrom fp w' r ∧ Ends segs w.map w'.map := by
  induction segs generalizing before w with
  | nil =>
    cases hrun
    refine ⟨⟨hknown, ?_⟩, fun _ _ => Or.inl⟩
    rintro _ ⟨⟩
    exact ⟨_, after.flatMap (·.batches), by simp [hclosed], h⟩
  | cons s segs ih =>
    have hzero : (if s.base = at_.1 then at_.2 else 0) = 0 := by
      simpa using hfresh s mem_cons_self
    refine mapSegments_cons hp hj hclosed hzero (Nat.zero_le _) (by simpa using h) hknown ?_ hrun
    intro w₁ hran hknown₁ hrest
    exact ih (by simpa using hclosed) (fun x hx => hfresh x (.tail _ hx)) hran hknown₁ hrest

/-- The loop resumed where it stood. -/
theorem mapSegments_resumed (hp : p.Shape)
    (hj : j.txns = p.txns) (hclosed : p.closed = segs ++ after)
    (h : MapsTo p j.dirtyFrom fp w.map (some at_)) (hknown : KnownOk p w.known)
    (hrun : mapSegments c j p.lastStable at_
      (segs.filter fun s => decide (at_.1 ≤ s.base)) w = (w', r)) :
    Stands p j.dirtyFrom fp w' r ∧
      Ends (segs.filter fun s => decide (at_.1 ≤ s.base)) w.map w'.map := by
  obtain ⟨base, pos⟩ := at_
  obtain ⟨before, s, rest, hsplit, rfl, hpos, hmap⟩ := h
  have hsorted : p.closed.Pairwise (·.base < ·.base) :=
    (pairwise_append.1 hp.placed).1.imp fun hlt => hlt.1
  have hlow : ∀ x ∈ before, ¬ s.base ≤ x.base := by
    intro x hx
    rw [hsplit] at hsorted
    have := (pairwise_append.1 hsorted).2.2 x hx s mem_cons_self
    omega
  have hhigh : ∀ x ∈ rest, s.base < x.base := by
    rw [hsplit] at hsorted
    exact (pairwise_cons.1 (pairwise_append.1 hsorted).2.1).1
  -- a listing that stops short of the segment leaves nothing to map
  have hnone : (segs.filter fun x => decide (s.base ≤ x.base)) = [] →
      Stands p j.dirtyFrom fp w' r ∧
        Ends (segs.filter fun x => decide (s.base ≤ x.base)) w.map w'.map := by
    intro hnil
    rw [hnil] at hrun
    cases hrun
    refine ⟨⟨hknown, ?_⟩, fun _ _ => Or.inl⟩
    rintro _ ⟨⟩
    exact .done hsplit hmap
  rcases append_eq_append_iff.1 (hclosed.symm.trans hsplit) with
      ⟨a, hbefore, -⟩ | ⟨a, hsegs, hrest⟩
  · refine hnone (filter_eq_nil_iff.2 fun x hx => ?_)
    have hx : x ∈ before := hbefore ▸ mem_append_left a hx
    simpa using hlow x hx
  cases a with
  | nil =>
    refine hnone (filter_eq_nil_iff.2 fun x hx => ?_)
    rw [hsegs, append_nil] at hx
    simpa using hlow x hx
  | cons s' tail =>
    rw [cons_append, cons.injEq] at hrest
    obtain ⟨rfl, hrest⟩ := hrest
    have hfilter : (segs.filter fun x => decide (s.base ≤ x.base)) = s :: tail := by
      rw [hsegs, filter_append, filter_eq_nil_iff.2
        (fun x hx => by simpa using hlow x hx), nil_append,
        filter_eq_self]
      intro x hx
      rcases mem_cons.1 hx with rfl | hx
      · simp
      · have := hhigh x (hrest ▸ mem_append_left _ hx)
        simp only [decide_eq_true_eq]
        omega
    rw [hfilter] at hrun ⊢
    refine mapSegments_cons hp hj hsplit (if_pos rfl) hpos hmap hknown ?_ hrun
    intro w₁ hran hknown₁ hrun
    have hnext : p.closed = (before ++ [s]) ++ (tail ++ after) := by
      simp [hsplit, hrest]
    refine mapSegments_fresh hp hj hnext (fun x hx heq => ?_) hran hknown₁ hrun
    have := hhigh x (hrest ▸ mem_append_left _ hx)
    omega

-- ==== the map of the log

/-- What rewriting relies on: the map has the dirty section up to its
end, and what it has is in the log. -/
structure MapFits (p : Partition B) (d : ℤ) (m : OffsetMap B) : Prop where
  stable : m.endOffset < p.lastStable
  inactive : m.endOffset < p.active.base
  dirty : m.endOffset = -1 ∨ d ≤ m.endOffset
  boundary : ∀ b ∈ p.log, b.baseOffset ≤ m.endOffset →
    b.lastOffset ≤ m.endOffset
  complete : ∀ b ∈ p.log, p.txns.Live b → b.keyFault = none →
    ∀ e ∈ b.entries, ∀ k, e.key = some k → d ≤ e.offset →
      e.offset ≤ m.endOffset → Reaches m.latest (m.fingerprint k) e.offset
  sound : ∀ f o, m.latest.lookup f = some o → d ≤ o ∧ o ≤ m.endOffset ∧
    ∃ e ∈ p.table, e.offset = o ∧ ∃ k, e.key = some k ∧ m.fingerprint k = f

theorem MapFits.lt_stable (h : MapFits p d m) (hb : b ∈ p.log) (hle : b.baseOffset ≤ m.endOffset) :
    b.lastOffset < p.lastStable :=
  lt_of_le_of_lt (h.boundary b hb hle) h.stable

/-- Mapping done, the map fits the log. -/
theorem Mapping.fits (hp : p.Shape) (hd : ∀ b ∈ p.log, b.baseOffset < d → b.lastOffset < d)
    (h : MapsTo p d fp m none) : MapFits p d m := by
  obtain ⟨pre, post, hsplit, hmap⟩ := h
  have hlog : p.log = pre ++ (post ++ p.active.batches) := by
    rw [p.log_eq, hsplit, append_assoc]
  have hmem : ∀ b ∈ pre, b ∈ p.log := fun b hb =>
    hlog ▸ mem_append_left _ hb
  -- what lies under the end has been read
  have hunder : ∀ b ∈ p.log, b.baseOffset ≤ m.endOffset → b ∈ pre := by
    intro b hb hle
    rw [hlog] at hb
    refine (mem_append.1 hb).resolve_right fun hin => ?_
    rcases hmap.map.reached with hneg | ⟨x, hx, -, hlast⟩
    · have := hp.base_nonneg (hlog ▸ hb)
      omega
    have hord := hp.ordered
    rw [hlog] at hord
    have := (pairwise_append.1 hord).2.2 x hx b hin
    omega
  have hlower : ∀ b ∈ p.log, d ≤ b.lastOffset → d ≤ b.baseOffset := by
    intro b hb hle
    by_contra hlt
    have := hd b hb (by omega)
    omega
  refine ⟨hmap.stable, ?_, ?_, fun b hb hle => ?_, ?_, fun f o hf => ?_⟩
  · rcases hmap.map.reached with hneg | ⟨x, hx, -, hlast⟩
    · have := (hp.based _ p.active_mem).1
      omega
    have hx' : x ∈ p.closed.flatMap (·.batches) := hsplit ▸ mem_append_left _ hx
    obtain ⟨s, hs, hin⟩ := mem_flatMap.1 hx'
    have := ((pairwise_append.1 hp.placed).2.2 s hs p.active mem_cons_self).2 x hin
    omega
  · refine hmap.map.reached.imp id ?_
    rintro ⟨x, -, hdx, hlast⟩
    omega
  · rcases hmap.map.covered b (hunder b hb hle) with hlt | hin
    · rcases hmap.map.reached with hneg | ⟨x, hx, hdx, hlast⟩
      · have := hp.base_nonneg hb
        omega
      · omega
    · exact hin
  · intro b hb hlive hk e he k hkey hde hend
    have hin := (hp.sound b hb).entry_mem he
    exact hmap.map.complete b (hunder b hb (by omega)) (by omega) hlive hk e he k hkey
  · obtain ⟨b, hb, hdb, hle, hlive, e, he, ho, hk⟩ := hmap.map.sound f o (mem_of_lookup hf)
    have hin := (hp.sound b (hmem b hb)).entry_mem he
    have := hlower b (hmem b hb) hdb
    exact ⟨by omega, by omega, e, Partition.mem_table.2 ⟨b, hmem b hb, hlive, he⟩, ho, hk⟩

end Kafgres.Compaction
