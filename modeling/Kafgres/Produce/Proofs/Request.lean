/-
The entries of a request and the partitions it writes.
-/
import Kafgres.Produce.Handle
import Kafgres.Produce.Proofs.Plan
import Mathlib.Data.List.Pairwise

namespace Kafgres.Produce

open Storage List

variable {cat : Catalog} {req : Request}

-- ==== entries

variable {e : Entry} {d : Entry} {k : Key}

theorem mem_entries (h : e ∈ req.entries cat) :
    ∃ (t : TopicData) (ti pi : ℕ), req.topics[ti]? = some t ∧
      t.partitions[pi]? = some e.data ∧ e.site = (ti, pi) ∧
      e.name = (t.topic.map fun id => cat.nameOf id.1).getD t.name ∧
      e.key = t.topic.map fun id => ⟨id.1, e.data.index, id.2⟩ := by
  obtain ⟨⟨t, ti⟩, ht, he⟩ := mem_flatMap.1 h
  obtain ⟨⟨pd, pi⟩, hpd, rfl⟩ := mem_map.1 he
  exact ⟨t, ti, pi, mk_mem_zipIdx_iff_getElem?.1 ht,
    mk_mem_zipIdx_iff_getElem?.1 hpd, rfl, rfl, rfl⟩

/-- An entry stands where its site says. -/
theorem entries_site_inj (he : e ∈ req.entries cat)
    (hd : d ∈ req.entries cat) (h : e.site = d.site) : e = d := by
  obtain ⟨t, ti, pi, ht, hpd, hsite, hname, hkey⟩ := mem_entries he
  obtain ⟨t', ti', pi', ht', hpd', hsite', hname', hkey'⟩ := mem_entries hd
  have hpos : (ti, pi) = (ti', pi') := by rw [← hsite, ← hsite', h]
  cases hpos
  rw [ht] at ht'
  cases ht'
  rw [hpd] at hpd'
  cases e
  cases d
  simp_all

theorem find_entry (he : e ∈ req.entries cat) :
    (req.entries cat).find? (fun x => x.site = e.site) = some e := by
  cases hf : (req.entries cat).find? fun x => x.site = e.site with
  | none =>
    have hno := find?_eq_none.1 hf e he
    simp at hno
  | some x =>
    have hsite : x.site = e.site := by simpa using find?_some hf
    rw [entries_site_inj (mem_of_find?_eq_some hf) he hsite]

theorem entries_sites_nodup (cat : Catalog) (req : Request) :
    ((req.entries cat).map Entry.site).Nodup := by
  have hsnd : ∀ {α : Type} (l : List α), (l.zipIdx.map Prod.snd).Nodup := by
    intro α l
    rw [zipIdx_map_snd]
    exact nodup_range'
  rw [Request.entries, map_flatMap, nodup_flatMap]
  constructor
  · rintro ⟨t, ti⟩ -
    rw [map_map]
    have := (hsnd t.partitions).map (f := fun pi => (ti, pi)) (fun a b h => (Prod.mk.inj h).2)
    rwa [map_map] at this
  · refine List.Pairwise.imp ?_ (pairwise_map.1 (hsnd req.topics))
    rintro ⟨t, ti⟩ ⟨t', ti'⟩ hne site hs hs'
    obtain ⟨e, he, rfl⟩ := mem_map.1 hs
    obtain ⟨e', he', hsite⟩ := mem_map.1 hs'
    obtain ⟨x, -, rfl⟩ := mem_map.1 he
    obtain ⟨y, -, rfl⟩ := mem_map.1 he'
    exact hne (Prod.mk.inj hsite).1.symm

/-- An entry's partition, from its key: a resolved topic goes by one
name. -/
theorem entry_of_key (h : e ∈ req.entries cat) (hk : e.key = some k) :
    e.name = cat.nameOf k.topic ∧ e.data.index = k.partition := by
  obtain ⟨t, ti, pi, -, -, -, hname, hkey⟩ := mem_entries h
  cases ht : t.topic with
  | none =>
    simp [hkey, ht] at hk
  | some id =>
    rw [ht] at hname hkey
    rw [hkey] at hk
    cases hk
    exact ⟨hname, rfl⟩

theorem repeats_iff : e.repeats d = true ↔ d.name = e.name ∧ d.data.index = e.data.index := by
  simp [Entry.repeats]

/-- The repeats of an entry are those of any of them. -/
theorem repeats_congr (h : e.repeats d = true) : d.repeats = e.repeats := by
  funext x
  obtain ⟨hn, hi⟩ := repeats_iff.1 h
  simp [Entry.repeats, hn, hi]

variable {entries : List Entry} {p : Pending} {w : World}

/-- The deciding entry of a partition. -/
theorem decider_spec (he : e ∈ entries) :
    ∃ d ∈ entries, decider entries e = d.site ∧
      decider entries d = d.site ∧ e.repeats d = true := by
  cases hf : entries.reverse.find? e.repeats with
  | none =>
    have hno := find?_eq_none.1 hf e (mem_reverse.2 he)
    exact (hno (repeats_iff.2 ⟨rfl, rfl⟩)).elim
  | some d =>
    have hrep := find?_some hf
    refine ⟨d, mem_reverse.1 (mem_of_find?_eq_some hf), ?_, ?_, hrep⟩
    · rw [decider, hf]
    · rw [decider, repeats_congr hrep, hf]

/-- Two entries of one partition have one decider. -/
theorem decider_congr (he : e ∈ entries) (h : e.repeats d = true) :
    decider entries e = decider entries d := by
  obtain ⟨x, hx, hxe, -, hrep⟩ := decider_spec he
  cases hf : entries.reverse.find? e.repeats with
  | none =>
    have hno := find?_eq_none.1 hf x (mem_reverse.2 hx)
    exact (hno hrep).elim
  | some y =>
    rw [decider, decider, repeats_congr h, hf]

-- ==== pendings

/-- An entry that is written passed its checks, was planned, and
decides. -/
theorem pending_spec (h : e.pending cat entries w = some p) :
    p.site = e.site ∧ e.key = some p.key ∧ p.index = e.data.index ∧
      e.data.gate = none ∧ e.plan cat w p.key = .ok p.plan ∧
      decider entries e = e.site := by
  unfold Entry.pending at h
  split at h
  · next hgate hkey =>
      split at h
      · next hplan =>
          split_ifs at h with hdec
          cases h
          exact ⟨rfl, hkey, rfl, hgate, hplan, hdec⟩
      · cases h
  · cases h

/-- And nothing else is needed. -/
theorem pending_of {plan : Plan} (hgate : e.data.gate = none) (hkey : e.key = some k)
    (hplan : e.plan cat w k = .ok plan) (hdec : decider entries e = e.site) :
    e.pending cat entries w = some ⟨e.site, k, e.data.index, e.data.size, plan⟩ := by
  unfold Entry.pending
  simp only [hgate, hkey, hplan, if_pos hdec]

theorem mem_pendings :
    p ∈ req.pendings cat w ↔ ∃ e ∈ req.entries cat, e.pending cat (req.entries cat) w = some p :=
  mem_filterMap

/-- The plan of a pending partition, as planning decided it. -/
theorem pending_decided (h : p ∈ req.pendings cat w) :
    Decided ⟨w.windows p.key, cat.epochStart p.key, cat.verify p.key⟩ p.plan := by
  obtain ⟨e, -, hp⟩ := mem_pendings.1 h
  obtain ⟨-, -, -, -, hplan, -⟩ := pending_spec hp
  exact planPartition_decided hplan

/-- Different entries, different partitions. -/
def Pending.Apart (p q : Pending) : Prop := p.site ≠ q.site ∧ p.key ≠ q.key

theorem pendings_apart (cat : Catalog) (req : Request) (w : World) :
    (req.pendings cat w).Pairwise Pending.Apart := by
  refine pairwise_filterMap.2 ?_
  have hsites := pairwise_map.1 (entries_sites_nodup cat req)
  refine hsites.imp_of_mem fun {e d} he hd hne p hp q hq => ?_
  obtain ⟨hps, hpk, -, -, -, hpd⟩ := pending_spec hp
  obtain ⟨hqs, hqk, -, -, -, hqd⟩ := pending_spec hq
  refine ⟨by rw [hps, hqs]; exact hne, fun hkey => hne ?_⟩
  -- One partition has one decider, so the two are one entry.
  obtain ⟨hen, hei⟩ := entry_of_key he hpk
  obtain ⟨hdn, hdi⟩ := entry_of_key hd hqk
  have hrep : e.repeats d = true := by
    rw [repeats_iff, hen, hei, hdn, hdi, hkey]
    exact ⟨rfl, rfl⟩
  rw [← hpd, ← hqd, decider_congr he hrep]

/-- Only the windows matter to what is pending. -/
theorem pendings_congr {w' : World} (h : w.windows = w'.windows) :
    req.pendings cat w = req.pendings cat w' := by
  unfold Request.pendings Entry.pending Entry.plan
  rw [h]

end Kafgres.Produce
