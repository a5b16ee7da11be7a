/-
A run and its transactions, through every push and cut.
-/
import Kafgres.Cdc.Drain
import Mathlib.Data.List.TakeWhile

namespace Kafgres.Cdc

open List

/-- One transaction of a run: its hold, last position and elements. -/
abbrev Seg := Option ℕ × Pos × List Element

variable {r : Run} {segs A B : List Seg} {c : ℕ} {hold : Option ℕ}

def bodyOf (segs : List Seg) : List Element := segs.flatMap (·.2.2)

/-- The ends of transactions that begin at a count. -/
def endsOf : ℕ → List Seg → List End
  | _, [] => []
  | c, (hold, last, es) :: segs =>
    ⟨last, hold, c + es.length⟩ :: endsOf (c + es.length) segs

@[simp] theorem bodyOf_append : bodyOf (A ++ B) = bodyOf A ++ bodyOf B := flatMap_append

@[simp] theorem bodyOf_cons (s : Seg) : bodyOf (s :: A) = s.2.2 ++ bodyOf A := rfl

@[simp] theorem bodyOf_nil : bodyOf [] = [] := rfl

theorem endsOf_append : endsOf c (A ++ B) = endsOf c A ++ endsOf (c + (bodyOf A).length) B := by
  induction A generalizing c with
  | nil => rfl
  | cons s A ih =>
    show _ :: endsOf _ (A ++ B) = _ :: (endsOf _ A ++ _)
    rw [ih, bodyOf_cons, length_append, Nat.add_assoc]

/-- The elements of one transaction are of it, up to its last. -/
structure SegOk (s : Seg) : Prop where
  last : s.2.2.getLast?.map (·.pos) = some s.2.1
  same : ∀ e ∈ s.2.2, e.pos.endLsn = s.2.1.endLsn

/-- A run's body and ends are those of its transactions. -/
structure Run.CutInto (r : Run) (segs : List Seg) : Prop where
  body : r.body = bodyOf segs
  ends : r.ends = endsOf 0 segs
  hold : segs.head?.map (·.1) = some r.hold
  last : segs.getLast?.map (·.2.1) = some r.last
  each : ∀ s ∈ segs, SegOk s
  apart : segs.Pairwise fun s s' => s.2.1.endLsn < s'.2.1.endLsn

theorem SegOk.ne_nil {s : Seg} (h : SegOk s) : s.2.2 ≠ [] := by
  intro hnil
  have := h.last
  simp [hnil] at this

theorem Run.CutInto.ne_nil (h : r.CutInto segs) : segs ≠ [] := by
  rintro rfl
  cases h.hold

/-- A run ends with the last element of its last transaction. -/
theorem Run.CutInto.body_last (h : r.CutInto segs) : r.body.getLast?.map (·.pos) = some r.last := by
  rcases segs.eq_nil_or_concat with rfl | ⟨A, t, rfl⟩
  · exact absurd rfl h.ne_nil
  rw [concat_eq_append] at h
  have hlast : t.2.1 = r.last := by simpa using h.last
  have ht := h.each t (by simp)
  rw [h.body, bodyOf_append, bodyOf_cons, bodyOf_nil, append_nil,
    getLast?_append_of_ne_nil _ ht.ne_nil, ht.last, hlast]

-- ==== the transactions

theorem segments_endsOf (start : List Element) (segs : List Seg) :
    segments (start ++ bodyOf segs) start.length (endsOf start.length segs) = segs := by
  induction segs generalizing start with
  | nil => rfl
  | cons s segs ih =>
    obtain ⟨hold, last, es⟩ := s
    show (hold, last, _) :: segments _ _ _ = _
    rw [bodyOf_cons, ← append_assoc, ← length_append]
    rw [ih (start ++ es)]
    congr 3
    rw [take_left, drop_left]

theorem Run.CutInto.transactions_eq (h : r.CutInto segs) : transactions r = segs := by
  unfold transactions
  rw [h.body, h.ends]
  exact segments_endsOf [] segs

-- ==== pushing

/-- The transactions of a run with one more element. -/
def pushSeg (segs : List Seg) (pos : Pos) (hold : Option ℕ) (len : ℕ) : List Seg :=
  match segs.getLast? with
  | some s =>
    if s.2.1.endLsn = pos.endLsn then
      segs.dropLast ++ [(s.1, pos, s.2.2 ++ [⟨pos, len⟩])]
    else segs ++ [(hold, pos, [⟨pos, len⟩])]
  | none => [(hold, pos, [⟨pos, len⟩])]

theorem pushSeg_snoc (s : Seg) (pos : Pos) (hold : Option ℕ) (len : ℕ) :
    pushSeg (A ++ [s]) pos hold len = if s.2.1.endLsn = pos.endLsn then
        A ++ [(s.1, pos, s.2.2 ++ [⟨pos, len⟩])]
      else A ++ [s] ++ [(hold, pos, [⟨pos, len⟩])] := by
  simp [pushSeg]

/-- A new run's first element. -/
theorem cutInto_first (cols : String) (pos : Pos) (hold : Option ℕ) (len : ℕ) :
    (Run.push ⟨cols, [], hold, pos, []⟩ pos hold len).CutInto [(hold, pos, [⟨pos, len⟩])] where
  body := rfl
  ends := rfl
  hold := rfl
  last := rfl
  each := forall_mem_singleton.2 ⟨rfl, forall_mem_singleton.2 rfl⟩
  apart := List.pairwise_singleton _ _

/-- A run whose last transaction is given. -/
theorem cutInto_snoc {t : Seg} (hbody : r.body = bodyOf A ++ t.2.2)
    (hends : r.ends = endsOf 0 A ++ [⟨t.2.1, t.1, r.body.length⟩])
    (hhold : (A ++ [t]).head?.map (·.1) = some r.hold) (hlast : t.2.1 = r.last)
    (heach : ∀ s ∈ A, SegOk s) (ht : SegOk t)
    (hA : A.Pairwise fun s s' => s.2.1.endLsn < s'.2.1.endLsn)
    (hbefore : ∀ s ∈ A, s.2.1.endLsn < t.2.1.endLsn) : r.CutInto (A ++ [t]) where
  body := by simp [hbody]
  ends := by
    rw [hends, hbody, endsOf_append]
    simp [endsOf]
  hold := hhold
  last := by simp [hlast]
  each := forall_mem_append.2 ⟨heach, forall_mem_singleton.2 ht⟩
  apart := pairwise_append.2
    ⟨hA, pairwise_singleton _ _, fun s hs _ hb => mem_singleton.1 hb ▸ hbefore s hs⟩

/-- An element past the last one: of the last transaction, or of a later
one. -/
theorem Run.CutInto.push {pos : Pos} {len : ℕ} (h : r.CutInto segs) (hlt : r.last < pos) :
    (r.push pos hold len).CutInto (pushSeg segs pos hold len) := by
  rcases segs.eq_nil_or_concat with rfl | ⟨A, s, rfl⟩
  · exact absurd rfl h.ne_nil
  rw [concat_eq_append] at h ⊢
  have hlast : s.2.1 = r.last := by simpa using h.last
  have hseg := h.each s (by simp)
  have hends : r.ends = endsOf 0 A ++
      [⟨s.2.1, s.1, r.body.length⟩] := by
    rw [h.ends, endsOf_append, h.body, bodyOf_append, length_append]
    simp [endsOf]
  have hget : r.ends.getLast? = some ⟨s.2.1, s.1, r.body.length⟩ := by
    simp [hends]
  obtain ⟨hA, -, hbefore⟩ := pairwise_append.1 h.apart
  have hbefore : ∀ a ∈ A, a.2.1.endLsn < s.2.1.endLsn := fun a ha => hbefore a ha s (by simp)
  have hhold := h.hold
  rw [pushSeg_snoc]
  by_cases hsame : s.2.1.endLsn = pos.endLsn
  · rw [if_pos hsame]
    refine cutInto_snoc ?_ ?_ ?_ rfl (fun a ha => h.each a (mem_append_left _ ha)) ⟨by simp, ?_⟩ hA
      fun a ha => hsame ▸ hbefore a ha
    · simp [Run.push, h.body]
    · simp only [Run.push, hget]
      rw [if_pos hsame, hends, dropLast_concat]
    · show _ = some r.hold
      cases A with
      | nil | cons => simpa using hhold
    · exact forall_mem_append.2 ⟨fun e he => (hseg.same e he).trans hsame,
        forall_mem_singleton.2 rfl⟩
  · rw [if_neg hsame]
    have hlater : s.2.1.endLsn < pos.endLsn := by
      rw [← hlast] at hlt
      rw [Pos.lt_iff] at hlt
      omega
    refine cutInto_snoc ?_ ?_ ?_ rfl h.each ⟨rfl, forall_mem_singleton.2 rfl⟩ h.apart
      (forall_mem_append.2 ⟨fun a ha => (hbefore a ha).trans hlater, forall_mem_singleton.2 hlater⟩)
    · simp [Run.push, h.body]
    · simp only [Run.push, hget]
      rw [if_neg hsame, h.ends]
    · show _ = some r.hold
      cases A with
      | nil | cons => simpa using hhold

-- ==== cutting

theorem takeWhile_endsOf (q : Pos → Bool) :
    (endsOf c segs).takeWhile (fun e => q e.last) =
      endsOf c (segs.takeWhile fun s => q s.2.1) := by
  induction segs generalizing c with
  | nil => rfl
  | cons s segs ih =>
    obtain ⟨hold, last, es⟩ := s
    simp only [endsOf, takeWhile_cons, ih]
    cases q last <;> rfl

theorem filter_endsOf (q : Pos → Bool) (hA : ∀ s ∈ A, q s.2.1 = true)
    (hB : ∀ s ∈ B, q s.2.1 = false) :
    (endsOf c (A ++ B)).filter (fun e => q e.last) = endsOf c A := by
  induction A generalizing c with
  | nil =>
    induction B generalizing c with
    | nil => rfl
    | cons s B ih =>
      have hs := hB s mem_cons_self
      simp only [nil_append, endsOf, filter_cons, hs, Bool.false_eq_true, if_false] at ih ⊢
      exact ih fun t ht => hB t (mem_cons_of_mem _ ht)
  | cons s A ih =>
    have hs := hA s mem_cons_self
    simp only [cons_append, endsOf, filter_cons, hs, if_true]
    rw [ih fun t ht => hA t (mem_cons_of_mem _ ht)]

/-- Cutting at a hold: the transactions up to it are a run of their own,
and the others end past it. -/
theorem Run.CutInto.cut {r' : Run} (h : r.CutInto segs) (hcut : r.cut hold = some r') :
    ∃ A B x, hold = some x ∧ segs = A ++ B ∧ r'.CutInto A ∧
      r'.cols = r.cols ∧ r'.hold = r.hold ∧
      (∀ s ∈ A, s.2.1.endLsn ≤ x) ∧ ∀ s ∈ B, x < s.2.1.endLsn := by
  obtain ⟨e, he, rfl⟩ := Option.map_eq_some_iff.1 hcut
  unfold deliverable at he
  cases hold with
  | none =>
    rw [h.ends] at he
    cases segs <;> simp [endsOf] at he
  | some x =>
    simp only [Option.any_some] at he
    rw [h.ends, takeWhile_endsOf fun p => p.endLsn ≤ x] at he
    have hsplit := takeWhile_append_dropWhile
      (p := fun s : Seg => decide (s.2.1.endLsn ≤ x)) (l := segs)
    generalize hA : segs.takeWhile (fun s => decide (s.2.1.endLsn ≤ x)) = A at he hsplit
    generalize hB : segs.dropWhile (fun s => decide (s.2.1.endLsn ≤ x)) = B at hsplit
    have hleA : ∀ s ∈ A, s.2.1.endLsn ≤ x := by
      intro s hs
      rw [← hA] at hs
      have := mem_takeWhile_imp hs
      simpa using this
    have hapart := pairwise_append.1 (hsplit ▸ h.apart)
    have hgtB : ∀ s ∈ B, x < s.2.1.endLsn := by
      intro s hs
      cases hBs : B with
      | nil =>
        simp [hBs] at hs
      | cons b B' =>
        -- the first one out is past the hold, the others past it
        have hb : x < b.2.1.endLsn := by
          have := head?_dropWhile_not
            (fun s : Seg => decide (s.2.1.endLsn ≤ x)) segs
          rw [hB, hBs] at this
          simpa using this
        rw [hBs] at hs hapart
        rcases mem_cons.1 hs with rfl | hs
        · exact hb
        · exact hb.trans ((pairwise_cons.1 hapart.2.1).1 s hs)
    rcases A.eq_nil_or_concat with rfl | ⟨A', a, rfl⟩
    · simp [endsOf] at he
    rw [concat_eq_append] at he hsplit hleA hapart
    obtain ⟨hA', -, hlast⟩ := pairwise_append.1 hapart.1
    have hcount : e = ⟨a.2.1, a.1, (bodyOf (A' ++ [a])).length⟩ := by
      rw [endsOf_append] at he
      simp only [endsOf, Nat.zero_add, getLast?_append,
        getLast?_singleton, Option.some_or, Option.some.injEq] at he
      rw [← he]
      simp
    subst hcount
    refine ⟨A' ++ [a], B, x, rfl, hsplit.symm, ?_, rfl, rfl, hleA, hgtB⟩
    exact {
      body := by
        rw [h.body, ← hsplit, bodyOf_append (B := B), take_left]
      ends := by
        rw [h.ends, ← hsplit]
        refine filter_endsOf (fun p => decide (p.endLsn ≤ a.2.1.endLsn)) (forall_mem_append.2
          ⟨fun s hs => ?_, forall_mem_singleton.2 (by simp)⟩) fun s hs => ?_
        · simpa using (hlast s hs a (by simp)).le
        · simpa using hapart.2.2 a (by simp) s hs
      hold := by
        have hhold := h.hold
        rw [← hsplit] at hhold
        cases A' with
        | nil | cons => simpa using hhold
      last := by simp
      each := fun s hs => h.each s
        (hsplit ▸ mem_append_left _ hs)
      apart := hapart.1 }

end Kafgres.Cdc
