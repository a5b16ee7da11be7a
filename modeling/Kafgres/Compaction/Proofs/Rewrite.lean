/-
Rewriting one segment: the scan, the copy and the swap, each from where
the last pass left it.
-/
import Kafgres.Compaction.Proofs.Map
import Kafgres.Compaction.Proofs.Swap

namespace Kafgres.Compaction

open KeyedLog Rewriting List

variable {B : Type} {p p' : Partition B} {b : Batch B} {m : OffsetMap B}
variable {d : ℤ}

/-- The fingerprints of the keys do not collide. -/
def Collisionless (keys : List B) (fingerprint : B → BitVec 128) : Prop :=
  ∀ k ∈ keys, ∀ k' ∈ keys, fingerprint k = fingerprint k' → k = k'

/-- The keys of the log are among `keys`. -/
def KeysIn (keys : List B) (p : Partition B) : Prop :=
  ∀ b ∈ p.log, ∀ e ∈ b.entries, ∀ k, e.key = some k → k ∈ keys

variable {keys : List B} {k : B} {e : Entry ℤ B B}

theorem KeysIn.table (h : KeysIn keys p) (he : e ∈ p.table) (hk : e.key = some k) : k ∈ keys := by
  obtain ⟨b, hb, -, hin⟩ := Partition.mem_table.1 he
  exact h b hb e hin k hk

/-- What the map supersedes is superseded in the log. -/
theorem MapFits.superseded (h : MapFits p d m)
    (hkeys : KeysIn keys p) (hfp : Collisionless keys m.fingerprint)
    (hk : e.key = some k) (hmem : k ∈ keys)
    (hs : m.superseded k e.offset = true) : Superseded p.table e := by
  obtain ⟨o, ho, hlt⟩ := superseded_iff.1 hs
  obtain ⟨-, -, e', he', hoff, k', hk', hf⟩ := h.sound _ o ho
  have heq : k' = k := hfp k' (hkeys.table he' hk') k hmem hf
  exact ⟨e', he', by rw [hk', hk, heq], by omega⟩

section

variable [Wire B] {out : List (Batch B)} {known : List (ℤ × ℕ)}

/-- A batch reduced under the plan's map is one a reader does not
miss. -/
theorem Reduced.replaces (hp : p.Shape) (hm : MapFits p d m)
    (hkeys : KeysIn keys p) (hfp : Collisionless keys m.fingerprint)
    (hclean : CleanBelow p d) (hb : b ∈ p.log)
    (h : Reduced p.txns m d b out) : Replaces p b out := by
  refine ⟨h.thin, h.under.imp id fun hle => hp.decided b hb (hm.lt_stable hb hle), h.faulty,
    fun hlive e he hkey hout => ?_⟩
  obtain ⟨k, hk⟩ := Option.isSome_iff_exists.1 hkey
  rcases h.dropped hlive e he k hk hout with hs | ⟨hv, hlt, hkf⟩
  · exact Or.inl (hm.superseded hkeys hfp hk (hkeys b hb e he k hk) hs)
  · exact Or.inr (hclean b hb hlive hkf e he hkey hv hlt)

-- ==== the swapped segment

/-- Segments replaced by what the rewrite made of their batches. -/
structure Swapped (p p' : Partition B) (m : OffsetMap B) (d : ℤ) : Prop where
  closed : Rewrites (SegReplaces (Reduced p.txns m d)) p.closed p'.closed
  active : p'.active = p.active
  nextOffset : p'.nextOffset = p.nextOffset
  compactCursor : p'.compactCursor = p.compactCursor
  lastStable : p'.lastStable = p.lastStable
  txns : p'.txns = p.txns

theorem Swapped.thinned (hp : p.Shape) (hm : MapFits p d m)
    (hkeys : KeysIn keys p) (hfp : Collisionless keys m.fingerprint)
    (hclean : CleanBelow p d) (h : Swapped p p' m d) : Thinned p p' := by
  refine { h with closed := h.closed.mono fun s hs segs hR => ?_ }
  obtain ⟨bs, hbs, hsegs⟩ := hR
  refine ⟨bs, hbs.mono fun b hb out hR => ?_, hsegs⟩
  refine hR.replaces hp hm hkeys hfp hclean ?_
  exact Partition.mem_log.2 ⟨s, mem_append_left _ hs, hb⟩

/-- The map still fits: what it supersedes goes, what it has stays. -/
theorem Swapped.fits (hp : p.Shape) (hm : MapFits p d m)
    (hkeys : KeysIn keys p) (hfp : Collisionless keys m.fingerprint)
    (hclean : CleanBelow p d) (h : Swapped p p' m d) : MapFits p' d m := by
  have hthin := h.thinned hp hm hkeys hfp hclean
  refine ⟨h.lastStable ▸ hm.stable, h.active ▸ hm.inactive, hm.dirty,
    fun b' hb' hle => ?_, ?_, fun f o hf => ?_⟩
  · obtain ⟨b, hb, -, out, hR, hin⟩ := hthin.source hp hb'
    have hw := hR.thin.within b' hin
    exact hw.2.trans (hm.boundary b hb (hw.1.trans hle))
  · intro b' hb' hlive hk e he k hkey hde hend
    obtain ⟨b, hb, hiff, out, hR, hin⟩ := hthin.source hp hb'
    exact hm.complete b hb (hiff.1 hlive) (hR.thin.keys b' hin hk) e
      (hR.thin.entries b' hin e he) k hkey hde hend
  · obtain ⟨hlo, hhi, e, he, hoff, k, hk, hfk⟩ := hm.sound f o hf
    refine ⟨hlo, hhi, e, ?_, hoff, k, hk, hfk⟩
    obtain ⟨b, hb, hlive, hin⟩ := Partition.mem_table.1 he
    -- the record behind a peak is neither superseded nor below the plan
    have hlog : Rewrites (Reduced p.txns m d) p.log p'.log := Replaced.log { h with } fun x hx =>
        Reduced.refl (hp.sound x hx)
    obtain ⟨out, hR, hsub⟩ := hlog.image hb
    by_cases hgone : ∀ b' ∈ out, e ∉ b'.entries
    · exfalso
      rcases hR.dropped hlive e hin k hk hgone with hs | ⟨-, hlt, -⟩
      · obtain ⟨q, hq, hlt⟩ := superseded_iff.1 hs
        rw [hfk, hf, Option.some.injEq] at hq
        omega
      · omega
    · push Not at hgone
      obtain ⟨b', hb', he'⟩ := hgone
      refine Partition.mem_table.2 ⟨b', hsub b' hb', ?_, he'⟩
      have hdec : out = [b] ∨ p.txns.Decided b := (hR.replaces hp hm hkeys hfp hclean hb).decided
      rw [h.txns]
      exact (hR.thin.live_iff (hp.sound b hb) hdec hb').2 hlive

theorem Thinned.keysIn (hp : p.Shape) (h : Thinned p p')
    (hkeys : KeysIn keys p) : KeysIn keys p' := by
  intro b' hb' e he k hk
  obtain ⟨b, hb, -, out, hR, hin⟩ := h.source hp hb'
  exact hkeys b hb e (hR.thin.entries b' hin e he) k hk

/-- A batch known not to decode is still there. -/
theorem Thinned.knownOk (hp : p.Shape)
    (h : Thinned p p') (hk : KnownOk p known) : KnownOk p' known := by
  intro id hid
  obtain ⟨b, hb, hbase, hfault, hlive, hlast⟩ := hk id hid
  obtain ⟨out, hR, hsub⟩ := (h.log hp).image hb
  rw [hR.faulty hlive hfault] at hsub
  refine ⟨b, hsub b mem_cons_self, hbase, hfault, ?_, ?_⟩
  · rwa [h.live_iff]
  · rwa [h.lastStable]

-- ==== the scan and the copy

/-- Nothing the map supersedes is left in the batch, unless it is
unwieldy. -/
def SweptOr (p : Partition B) (m : OffsetMap B) (b : Batch B) : Prop :=
  p.txns.Live b → b.baseOffset ≤ m.endOffset → b.Unwieldy ∨ Swept m b

variable {c : Call B} {j : Judge} {w w' : CleanWork} {bs : List (Batch B)}

/-- One batch judged by a pass. -/
theorem judgeBatch_ok {known' : List (ℤ × ℕ)} {kept : Option (List (KeptRecord B))} (hp : p.Shape)
    (hm : MapFits p d m) (hj : j.txns = p.txns) (hd : j.dirtyFrom = d)
    (hknown : KnownOk p known) (hb : b ∈ p.log) (h : judgeBatch j m known b = (known', .ok kept)) :
    Judged p.txns m d b (b.replaced kept) ∧ KnownOk p known' := by
  obtain ⟨hjudged, hk⟩ := judgeBatch_judged (hp.sound b hb)
    (fun hle => hj ▸ hp.decided b hb (hm.lt_stable hb hle))
    (fun hk => hknown.keyFault hp hb hk) h
  rw [hj, hd] at hjudged
  refine ⟨hjudged, ?_⟩
  rcases hk with rfl | ⟨rfl, hlive, hfault, hle⟩
  · exact hknown
  · exact hknown.insert hb (hj ▸ hlive) hfault (hm.lt_stable hb hle)

/-- A batch that is judged to keep everything is swept. -/
theorem Judged.sweptOr (h : Judged p.txns m d b [b]) : SweptOr p m b :=
  fun hlive hle => h.swept hlive b mem_cons_self hle

/-- The scan goes over batches that lose nothing, and over the whole
segment when it says so. -/
theorem scan_swept {pos : ℕ} {out : Scanned}
    (hp : p.Shape) (hm : MapFits p d m) (hj : j.txns = p.txns)
    (hd : j.dirtyFrom = d) (hknown : KnownOk p w.known) (hbs : ∀ b ∈ bs, b ∈ p.log)
    (hord : bs.Pairwise (·.lastOffset < ·.baseOffset)) (h : scan c j m bs pos w = (w', out)) :
    KnownOk p w'.known ∧ (∀ pos', out = .paused pos' → ∃ n ≤ bs.length, pos' = pos + n ∧
        ∀ b ∈ bs.take n, SweptOr p m b) ∧
      (out = .unchanged → ∀ b ∈ bs, SweptOr p m b) := by
  induction bs generalizing pos w with
  | nil =>
    unfold scan at h
    split at h
    · cases h
      refine ⟨hknown, fun pos' hpos => ⟨0, le_rfl, ?_, by simp⟩, by simp⟩
      cases hpos
      rfl
    · cases h
      exact ⟨hknown, by simp, by simp⟩
  | cons b bs ih =>
    have hb := hbs b mem_cons_self
    obtain ⟨hhead, htail⟩ := pairwise_cons.1 hord
    unfold scan at h
    split at h
    · cases h
      refine ⟨hknown, fun pos' hpos => ⟨0, by simp, ?_, by simp⟩, by simp⟩
      cases hpos
      rfl
    split at h
    · cases h
      exact ⟨hknown, by simp, by simp⟩
    split at h
    · next hend =>
        -- past the map's end nothing is judged, here or further on
        cases h
        refine ⟨hknown, by simp, fun _ x hx _ hle => ?_⟩
        have hbl := (hp.sound b hb).base_le_last
        rcases mem_cons.1 hx with rfl | hx
        · omega
        · have := hhead x hx
          omega
    cases hjb : judgeBatch j m w.known b with
    | mk known₁ r =>
    rw [hjb] at h
    cases r with
    | error e =>
      cases h
      rw [judgeBatch_known hjb]
      exact ⟨hknown, by simp, by simp⟩
    | ok kept =>
      obtain ⟨hjudged, hknown₁⟩ := judgeBatch_ok hp hm hj hd hknown hb hjb
      cases kept with
      | some kept =>
        cases h
        exact ⟨hknown₁, by simp, by simp⟩
      | none =>
        have hb' : SweptOr p m b := hjudged.sweptOr
        obtain ⟨hk, hpause, hun⟩ := ih hknown₁ (fun x hx => hbs x (mem_cons_of_mem _ hx)) htail h
        refine ⟨hk, fun pos' hpos => ?_, fun ho x hx => ?_⟩
        · obtain ⟨n, hn, hpos', hall⟩ := hpause pos' hpos
          refine ⟨n + 1, by simpa using hn, by omega, ?_⟩
          rw [take_succ_cons, forall_mem_cons]
          exact ⟨hb', hall⟩
        · rcases mem_cons.1 hx with rfl | hx
          · exact hb'
          · exact hun ho x hx

end

end Kafgres.Compaction
