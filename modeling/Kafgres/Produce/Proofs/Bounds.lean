/-
Nothing is recorded beyond the log end.
-/
import Kafgres.Produce.Proofs.AtMostOnce

namespace Kafgres.Produce

open Storage Producer Fallible Function

variable {env : Env} {cat : Catalog} {req : Request} {p : Pending} {w : World}

/-- Log ends are offsets, and window rows are below them. -/
structure Sane (w : World) : Prop where
  nonneg : ∀ k, 0 ≤ w.next k
  rows : ∀ k pid, ∀ r ∈ w.windows k pid, r.baseOffset < w.next k

/-- So is what landed; `keyAt` is the partition of an entry. -/
structure Below (keyAt : Site → Option Key) (w : World) : Prop
    extends Sane w where
  landed : ∀ pos off k, w.landedAt pos = some off →
    keyAt pos.site = some k → off < w.next k

/-- Stay below, with log ends that do not go back. -/
def staysBelow (keyAt : Site → Option Key) : Motion World where
  rel s t := (Below keyAt s → Below keyAt t) ∧ ∀ k, s.next k ≤ t.next k
  refl _ := ⟨id, fun _ => le_rfl⟩
  trans h h' := ⟨h'.1 ∘ h.1, fun k => (h.2 k).trans (h'.2 k)⟩

section Steps

variable {keyAt : Site → Option Key} {s : World} {k : Key}

/-- Rewriting a window so that its rows are still below. -/
theorem staysBelow_onWindow (pid : ℤ) {f : Window → Window}
    (hf : Below keyAt s → ∀ r ∈ f (s.windows k pid), r.baseOffset < s.next k) :
    (staysBelow keyAt).rel s (s.onWindow k pid f) := by
  refine ⟨fun h => ⟨⟨h.nonneg, fun k' q r hr => ?_⟩, h.landed⟩, fun _ => le_rfl⟩
  rcases eq_or_ne k' k with rfl | hk
  · rw [onWindow_windows] at hr
    split_ifs at hr with hq
    · subst hq
      exact hf h r hr
    · exact h.rows k' q r hr
  · rw [show (s.onWindow k pid f).windows k' = s.windows k' from update_of_ne hk _ _] at hr
    exact h.rows k' q r hr

theorem staysBelow_land {pos : Pos} (view : View) (hkey : keyAt pos.site = some k) :
    (staysBelow keyAt).rel s (s.land k view pos) := by
  have hdelta := view.delta_nonneg
  have hnext : ∀ k', s.next k' ≤ (s.land k view pos).next k' := by
    intro k'
    show s.next k' ≤ update s.next k _ k'
    rcases eq_or_ne k' k with rfl | hk
    · rw [update_self]
      omega
    · rw [update_of_ne hk]
  refine ⟨fun h => ⟨⟨fun k' => (h.nonneg k').trans (hnext k'),
    fun k' q r hr => (h.rows k' q r hr).trans_le (hnext k')⟩,
    fun q off k' hq hk' => ?_⟩, hnext⟩
  rw [landedAt_land] at hq
  split_ifs at hq with hpos
  · subst hpos
    rw [hkey] at hk'
    cases hk'
    cases hq
    show s.next k < update s.next k _ k
    rw [update_self]
    omega
  · exact (h.landed q off k' hq hk').trans_le (hnext k')

theorem staysBelow_allows {site : Site} (hkey : keyAt site = some k) :
    Allows env (staysBelow keyAt) k fun pos => pos.site = site where
  reserve s pid idem := staysBelow_onWindow pid fun h r hr => by
    rcases Recency.mem_put hr with rfl | ⟨hr, -⟩
    · have := h.nonneg k
      show (-1 : ℤ) < s.next k
      omega
    · exact h.rows k pid r hr
  stamp s pid first pos off hpos hoff := staysBelow_onWindow pid fun h r hr => by
      obtain ⟨x, hx, rfl⟩ := List.mem_map.1 hr
      split_ifs
      · exact h.landed pos off k hoff (by rw [hpos, hkey])
      · exact h.rows k pid x hx
  release s pid first := staysBelow_onWindow pid fun h r hr =>
    h.rows k pid r (List.mem_of_mem_filter hr)
  land s view pos hpos _ _ := staysBelow_land view (by rw [hpos, hkey])

theorem staysBelow_rollback {t : World} (h : (staysBelow keyAt).rel s t) :
    (staysBelow keyAt).rel s (World.rollback s t) :=
  ⟨fun hs => ⟨⟨(h.1 hs).nonneg, fun k pid r hr =>
    (hs.rows k pid r hr).trans_le (h.2 k)⟩, (h.1 hs).landed⟩, h.2⟩

end Steps

/-- The partition of an entry of the request. -/
def Request.keyAt (cat : Catalog) (req : Request) (site : Site) : Option Key :=
  ((req.entries cat).find? fun e => e.site = site).bind Entry.key

theorem keyAt_pending (hp : p ∈ req.pendings cat w) : req.keyAt cat p.site = some p.key := by
  obtain ⟨e, he, hpe⟩ := mem_pendings.1 hp
  obtain ⟨hsite, hkey, -⟩ := pending_spec hpe
  rw [Request.keyAt, hsite, find_entry he]
  exact hkey

theorem Sane.cleared (h : Sane w) (keyAt : Site → Option Key) : Below keyAt w.cleared :=
  ⟨⟨h.nonneg, h.rows⟩, fun _ _ _ hoff => (by cases hoff)⟩

theorem passes_below : Stays (staysBelow (req.keyAt cat)) (passes env cat req) := fun _ =>
  passes_moves (fun _ _ => staysBelow_rollback) fun _ hp =>
    (staysBelow_allows (keyAt_pending hp)).mono fun _ h => h.1

/-- A request keeps the windows below the log ends, and no log end goes
back. -/
theorem handle_sane (env : Env) (cat : Catalog) (req : Request)
    (h : Sane w) :
    Sane (handle env cat req w).1 ∧ ∀ k, w.next k ≤ (handle env cat req w).1.next k := by
  cases hc : env.prelude with
  | ok =>
    rw [handle_of_prelude hc]
    obtain ⟨hbelow, hnext⟩ : (staysBelow (req.keyAt cat)).rel _ _ := passes_below w.cleared
    exact ⟨(hbelow (h.cleared _)).toSane, hnext⟩
  | err | raise =>
    rw [handle, hc]
    exact ⟨h, fun _ => le_rfl⟩

/-- A request that was answered got past its prelude. -/
theorem handle_below {w' : World} {out : Outcome} (h : Sane w)
    (hrun : handle env cat req w = (w', .ok out)) : Below (req.keyAt cat) w' := by
  obtain ⟨w₁, u, hpre, -⟩ := Prog.bind_eq_ok.1 hrun
  obtain ⟨hpre, -⟩ := Prog.call_eq_ok.1 hpre
  rw [handle_of_prelude hpre] at hrun
  exact (passes_below.run hrun).1 (h.cleared _)

end Kafgres.Produce
