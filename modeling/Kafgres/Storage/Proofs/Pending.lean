/-
The reservation ring is a sorted list.
-/
import Kafgres.Storage.Pending
import Mathlib.Data.Multiset.AddSub
import Mathlib.Data.List.Sort

namespace Kafgres.Storage

open List PendingRing Cells

variable {r : PendingRing} {ring : Cells} {l : List ℤ} {head : ℕ} {c : PendingRing × Cells}
  {i j n : ℕ} {base : ℤ}

-- ==== view

/-- The cell of logical index `j`. -/
def Cells.view (ring : Cells) (head j : ℕ) : ℤ := ring.cell (phys head j ring.cap)

theorem phys_inj {cap : ℕ} (hi : i < cap) (hj : j < cap)
    (h : phys head i cap = phys head j cap) : i = j := by
  unfold phys at h
  split_ifs at h <;> omega

theorem view_put {p : ℕ} {v : ℤ} (hp : p < ring.cap) (hj : j < ring.cap) :
    (ring.put (phys head p ring.cap) v).view head j = if j = p then v else ring.view head j := by
  rw [view, put_cap, put_cell, view]
  by_cases hjp : j = p
  · rw [if_pos hjp, if_pos (by rw [hjp])]
  · rw [if_neg hjp, if_neg fun h => hjp (phys_inj hj hp h)]

/-- The view from a head moved up by one. -/
theorem view_phys_one (hh : head < ring.cap) (hj : j + 1 < ring.cap) :
    ring.view (phys head 1 ring.cap) j = ring.view head (j + 1) := by
  unfold view
  congr 1
  unfold phys
  split_ifs <;> omega

theorem view_zero (hh : head < ring.cap) : ring.view head 0 = ring.cell head := by
  rw [view, phys, if_neg (by omega)]
  rfl

/-- A cell copied one index up. -/
def Cells.lift (ring : Cells) (head n : ℕ) : Cells :=
  ring.put (phys head (n + 1) ring.cap) (ring.cell (phys head n ring.cap))

theorem view_lift (hn : n + 1 < ring.cap) (hj : j < ring.cap) :
    (ring.lift head n).view head j = if j = n + 1 then ring.view head n else ring.view head j :=
  view_put hn hj

theorem cell_head (hh : head < ring.cap)
    (hcells : ∀ j (hj : j < l.length), ring.view head j = l[j]) :
    ∀ x ∈ l.head?, ring.cell head = x := by
  intro x hx
  cases l with
  | nil => cases hx
  | cons y l =>
    rw [← view_zero hh, hcells 0 (by simp)]
    exact Option.some.inj hx

/-- The header and the cells describe `l`. A ring without cells has its
head at zero. -/
structure Holds (r : PendingRing) (ring : Cells) (l : List ℤ) : Prop where
  len : r.len = l.length
  fits : l.length ≤ ring.cap
  head : r.head < max 1 ring.cap
  cells : ∀ j (h : j < l.length), ring.view r.head j = l[j]
  sorted : l.Pairwise (· ≤ ·)
  min : ∀ x ∈ l.head?, r.min = x

theorem holds_empty (ring : Cells) : Holds {} ring [] :=
  ⟨rfl, Nat.zero_le _, by simp, by simp, .nil, by simp⟩

/-- The floor is the least element. -/
theorem Holds.floor (h : Holds r ring l) : r.floor = l.head? := by
  rw [PendingRing.floor, h.len]
  cases l with
  | nil => rfl
  | cons x l => rw [if_pos (by simp), h.min x rfl, head?_cons]

theorem Holds.head_lt (h : Holds r ring l) (hc : 0 < ring.cap) : r.head < ring.cap := by
  have := h.head
  omega

-- ==== reserve

/-- The insertion walk stops at the index the base belongs at, with
everything above it moved up by one. -/
theorem shiftUp_spec (head : ℕ) (base : ℤ) (hn : n < ring.cap) :
    let w := shiftUp head base ring n
    w.1.cap = ring.cap ∧ w.2 ≤ n ∧ (∀ j < ring.cap, w.1.view head j = if w.2 < j ∧ j ≤ n then
        ring.view head (j - 1) else ring.view head j) ∧
      (∀ j, w.2 ≤ j → j < n → base < ring.view head j) ∧
      (∀ j, j + 1 = w.2 → ring.view head j ≤ base) := by
  induction n generalizing ring with
  | zero =>
    intro w
    refine ⟨rfl, le_rfl, fun j hj => ?_, by omega, fun j hj => ?_⟩
    · rw [if_neg (by omega)]
      rfl
    · have hw : w.2 = 0 := rfl
      omega
  | succ n ih =>
    intro w
    by_cases hgt : ring.cell (phys head n ring.cap) > base
    · -- The cell moves up and the walk goes on below it.
      have hw : w = shiftUp head base (ring.lift head n) n := by
        show shiftUp head base ring (n + 1) = _
        rw [shiftUp, if_pos hgt]
        rfl
      obtain ⟨hcap, hle, hview, habove, hbelow⟩ :=
        ih (show n < (ring.lift head n).cap from Nat.lt_of_succ_lt hn)
      rw [← hw] at hcap hle hview habove hbelow
      refine ⟨hcap, by omega, fun j hj => ?_, fun j h₁ h₂ => ?_, fun j hj => ?_⟩
      · rw [hview j hj]
        by_cases hj1 : j = n + 1
        · rw [if_neg (by omega), view_lift hn hj, if_pos hj1, if_pos (by omega), hj1]
          rfl
        by_cases hin : w.2 < j ∧ j ≤ n
        · rw [if_pos hin, if_pos (by omega), view_lift hn (by omega), if_neg (by omega)]
        · rw [if_neg hin, if_neg (by omega), view_lift hn hj, if_neg hj1]
      · by_cases hj : j = n
        · rw [hj]
          exact hgt
        · have := habove j h₁ (by omega)
          rwa [view_lift hn (by omega), if_neg (by omega)] at this
      · have := hbelow j hj
        rwa [view_lift hn (by omega), if_neg (by omega)] at this
    · have hw : w = (ring, n + 1) := by
        show shiftUp head base ring (n + 1) = _
        rw [shiftUp, if_neg hgt]
      rw [hw]
      refine ⟨rfl, le_rfl, fun j hj => ?_, by omega, fun j hj => ?_⟩
      · rw [if_neg (by omega)]
      · obtain rfl : j = n := by omega
        exact not_lt.1 hgt

/-- Inserting where nothing before is larger and nothing after is
smaller is the ordered insertion. -/
theorem insertIdx_eq_orderedInsert (hl : l.Pairwise (· ≤ ·)) (hi : i ≤ l.length)
    (hlo : ∀ j (h : j < l.length), j < i → l[j] ≤ base)
    (hhi : ∀ j (h : j < l.length), i ≤ j → base ≤ l[j]) :
    l.insertIdx i base = l.orderedInsert (· ≤ ·) base := by
  refine List.Perm.eq_of_pairwise' (r := (· ≤ ·)) ?_ (hl.orderedInsert base l)
    ((perm_insertIdx base l hi).trans (perm_orderedInsert _ _ _).symm)
  rw [pairwise_iff_getElem] at hl ⊢
  intro a b ha hb hab
  rw [length_insertIdx_of_le_length hi] at ha hb
  rw [getElem_insertIdx, getElem_insertIdx]
  split_ifs with h₁ h₂ h₃ h₄ h₅ h₆ h₇ <;> first
    | omega
    | exact le_rfl
    | exact hl _ _ _ _ (by omega)
    | exact hlo _ _ (by omega)
    | exact hhi _ _ (by omega)

/-- `reserve` inserts in order while there is room, and refuses without
a change when there is none. -/
theorem reserve_holds (h : Holds r ring l) (base : ℤ) :
    let o := r.reserve ring base
    o.2.2 = decide (l.length < ring.cap) ∧ o.2.1.cap = ring.cap ∧
      (l.length < ring.cap → Holds o.1 o.2.1 (l.orderedInsert (· ≤ ·) base)) ∧
      (¬ l.length < ring.cap → o.1 = r ∧ o.2.1 = ring) := by
  intro o
  by_cases hroom : l.length < ring.cap
  swap
  · have ho : o = (r, ring, false) := by
      show r.reserve ring base = _
      rw [reserve, if_pos (by rw [h.len]; omega)]
    rw [ho]
    exact ⟨by simp [hroom], rfl, fun h => absurd h hroom, fun _ => ⟨rfl, rfl⟩⟩
  have hh : r.head < ring.cap := h.head_lt (by omega)
  obtain ⟨hcap, hle, hview, habove, hbelow⟩ := shiftUp_spec r.head base hroom
  set w := shiftUp r.head base ring l.length
  have ho : o = ({ r with
      len := l.length + 1
      min := (w.1.put (phys r.head w.2 ring.cap) base).cell r.head },
      w.1.put (phys r.head w.2 ring.cap) base, true) := by
    show r.reserve ring base = _
    rw [reserve, if_neg (by rw [h.len]; omega)]
    simp only [h.len, w]
  have hsorted := pairwise_iff_getElem.1 h.sorted
  have hinsert : l.insertIdx w.2 base = l.orderedInsert (· ≤ ·) base := by
    refine insertIdx_eq_orderedInsert h.sorted hle (fun j hj hlt => ?_) fun j hj hge => ?_
    · have hlast := hbelow (w.2 - 1) (by omega)
      rw [h.cells _ (by omega)] at hlast
      rcases eq_or_ne j (w.2 - 1) with rfl | hj'
      · exact hlast
      · exact (hsorted j (w.2 - 1) hj (by omega) (by omega)).trans hlast
    · have hlt := habove j hge hj
      rw [h.cells j hj] at hlt
      exact hlt.le
  have hlen : (l.insertIdx w.2 base).length = l.length + 1 := length_insertIdx_of_le_length hle base
  have hcells : ∀ j (hj : j < (l.insertIdx w.2 base).length),
      (w.1.put (phys r.head w.2 ring.cap) base).view r.head j = (l.insertIdx w.2 base)[j] := by
    intro j hj
    rw [← hcap, view_put (by omega) (by omega), getElem_insertIdx]
    by_cases hj' : j = w.2
    · rw [if_pos hj', dif_neg (by omega), dif_pos hj']
    rw [if_neg hj', hview j (by omega)]
    by_cases hlt : j < w.2
    · rw [dif_pos hlt, if_neg (by omega), h.cells]
    · rw [dif_neg hlt, dif_neg hj', if_pos (by omega), h.cells]
  rw [ho, ← hinsert]
  refine ⟨by simp [hroom], hcap, fun _ => ?_, fun h => absurd hroom h⟩
  refine ⟨hlen.symm, ?_, h.head.trans_le ?_, hcells, ?_, cell_head ?_ hcells⟩
  · rw [hlen, put_cap, hcap]
    omega
  · rw [put_cap, hcap]
  · rw [hinsert]
    exact h.sorted.orderedInsert base l
  · rw [put_cap, hcap]
    exact hh

-- ==== release

/-- The search ends at the first index that is not below the base. -/
theorem bisect_spec (h : l.Pairwise (· ≤ ·)) (base : ℤ)
    (hcells : ∀ j (hj : j < l.length), ring.view head j = l[j])
    {fuel lo hi : ℕ} (hfuel : hi - lo ≤ fuel) (hle : lo ≤ hi) (hhi : hi ≤ l.length)
    (hbelow : ∀ j (hj : j < l.length), j < lo → l[j] < base)
    (habove : ∀ j (hj : j < l.length), hi ≤ j → base ≤ l[j]) :
    let i := bisect ring head base fuel lo hi
    i ≤ l.length ∧ (∀ j (hj : j < l.length), j < i → l[j] < base) ∧
      (∀ j (hj : j < l.length), i ≤ j → base ≤ l[j]) := by
  have hsorted := pairwise_iff_getElem.1 h
  induction fuel generalizing lo hi with
  | zero =>
    obtain rfl : lo = hi := by omega
    exact ⟨hhi, hbelow, habove⟩
  | succ fuel ih =>
    intro i
    by_cases hlt : lo < hi
    swap
    · have hi' : i = lo := by
        show bisect ring head base (fuel + 1) lo hi = lo
        rw [bisect, if_neg hlt]
      obtain rfl : lo = hi := by omega
      rw [hi']
      exact ⟨hhi, hbelow, habove⟩
    have hmid : (lo + hi) / 2 < l.length := by omega
    have hcell := hcells _ hmid
    rw [view] at hcell
    by_cases hsmall : l[(lo + hi) / 2] < base
    · have hi' : i = bisect ring head base fuel ((lo + hi) / 2 + 1) hi := by
        show bisect ring head base (fuel + 1) lo hi = _
        rw [bisect, if_pos hlt, if_pos (hcell ▸ hsmall)]
      rw [hi']
      refine ih (by omega) (by omega) hhi (fun j hj hj' => ?_) habove
      by_cases hj'' : j = (lo + hi) / 2
      · subst hj''
        exact hsmall
      · exact (hsorted j _ hj hmid (by omega)).trans_lt hsmall
    · have hi' : i = bisect ring head base fuel lo ((lo + hi) / 2) := by
        show bisect ring head base (fuel + 1) lo hi = _
        rw [bisect, if_pos hlt, if_neg (hcell ▸ hsmall)]
      rw [hi']
      refine ih (by omega) (by omega) (by omega) hbelow fun j hj hj' => ?_
      by_cases hj'' : j = (lo + hi) / 2
      · subst hj''
        exact not_lt.1 hsmall
      · exact (not_lt.1 hsmall).trans (hsorted _ j hmid hj (by omega))

theorem closeLeft_spec (head : ℕ) (hn : n < ring.cap) :
    (closeLeft head ring n).cap = ring.cap ∧
      ∀ j < ring.cap, (closeLeft head ring n).view head j
        = if 0 < j ∧ j ≤ n then ring.view head (j - 1)
          else ring.view head j := by
  induction n generalizing ring with
  | zero =>
    refine ⟨rfl, fun j _ => ?_⟩
    rw [if_neg (by omega)]
    rfl
  | succ n ih =>
    obtain ⟨hcap, hview⟩ := ih (show n < (ring.lift head n).cap from Nat.lt_of_succ_lt hn)
    refine ⟨hcap, fun j hj => (hview j hj).trans ?_⟩
    rw [view_lift hn hj, view_lift hn (by omega)]
    by_cases hj' : j = n + 1
    · rw [if_neg (by omega), if_pos hj', if_pos (by omega), hj']
      rfl
    · by_cases hin : 0 < j ∧ j ≤ n
      · rw [if_pos hin, if_neg (by omega), if_pos (by omega)]
      · rw [if_neg hin, if_neg hj', if_neg (by omega)]

theorem closeRight_spec (head : ℕ) (hn : j + n < ring.cap) :
    (closeRight head ring j n).cap = ring.cap ∧
      ∀ k < ring.cap, (closeRight head ring j n).view head k
        = if j ≤ k ∧ k < j + n then ring.view head (k + 1)
          else ring.view head k := by
  induction n generalizing ring j with
  | zero =>
    refine ⟨rfl, fun k _ => ?_⟩
    rw [if_neg (by omega)]
    rfl
  | succ n ih =>
    have hj : j < ring.cap := by omega
    obtain ⟨hcap, hview⟩ := ih (show j + 1 + n < (ring.put (phys head j ring.cap)
        (ring.cell (phys head (j + 1) ring.cap))).cap by
          rw [put_cap]
          omega)
    refine ⟨hcap, fun k hk => ?_⟩
    rw [closeRight, hview k hk]
    by_cases hin : j + 1 ≤ k ∧ k < j + 1 + n
    · rw [if_pos hin, if_pos (by omega), view_put hj (by omega), if_neg (by omega)]
    rw [if_neg hin, view_put hj hk]
    by_cases hk' : k = j
    · rw [if_pos hk', if_pos (by omega), hk']
      rfl
    · rw [if_neg hk', if_neg (by omega)]

theorem eraseIdx_eq_erase (hl : l.Pairwise (· ≤ ·)) (hi : i < l.length) (hb : l[i] = base) :
    l.eraseIdx i = l.erase base := by
  refine List.Perm.eq_of_pairwise' (r := (· ≤ ·))
    (hl.sublist (eraseIdx_sublist ..)) (hl.sublist erase_sublist) ?_
  refine List.Perm.cons_inv (a := base) ?_
  have hidx := getElem_cons_eraseIdx_perm hi
  rw [hb] at hidx
  exact hidx.trans (perm_cons_erase (hb ▸ getElem_mem hi))

/-- Closing the gap at `i` from the shorter side: what the new head sees
is the list without it. -/
theorem closed_cells (h : Holds r ring l) (hi : i < l.length) :
    let closed := if i < l.length / 2 then closeLeft r.head ring i
      else closeRight r.head ring i (l.length - 1 - i)
    let head := if i < l.length / 2 then phys r.head 1 ring.cap else r.head
    closed.cap = ring.cap ∧ head < ring.cap ∧ ∀ j (hj : j < (l.eraseIdx i).length),
        closed.view head j = (l.eraseIdx i)[j] := by
  intro closed head
  have hfits := h.fits
  have hh : r.head < ring.cap := h.head_lt (by omega)
  have hlen : (l.eraseIdx i).length = l.length - 1 := length_eraseIdx_of_lt hi
  by_cases hleft : i < l.length / 2
  · obtain ⟨hcap, hview⟩ := closeLeft_spec r.head (show i < ring.cap by omega)
    have hclosed : closed = closeLeft r.head ring i := if_pos hleft
    have hhead : head = phys r.head 1 ring.cap := if_pos hleft
    rw [← hclosed] at hcap hview
    rw [hhead]
    refine ⟨hcap, ?_, fun j hj => ?_⟩
    · unfold phys
      split_ifs <;> omega
    rw [← hcap, view_phys_one (by omega) (by omega), hview _ (by omega), getElem_eraseIdx]
    by_cases hj' : j < i
    · rw [if_pos (by omega), dif_pos hj']
      exact h.cells j (by omega)
    · rw [if_neg (by omega), dif_neg hj', h.cells]
  · obtain ⟨hcap, hview⟩ := closeRight_spec r.head (show i + (l.length - 1 - i) < ring.cap by omega)
    have hclosed : closed = closeRight r.head ring i (l.length - 1 - i) := if_neg hleft
    have hhead : head = r.head := if_neg hleft
    rw [← hclosed] at hcap hview
    rw [hhead]
    refine ⟨hcap, hh, fun j hj => ?_⟩
    rw [hview j (by omega), getElem_eraseIdx]
    by_cases hj' : j < i
    · rw [if_neg (by omega), dif_pos hj', h.cells]
    · rw [if_pos (by omega), dif_neg hj', h.cells]

/-- `release` erases one occurrence, and does nothing when there is
none. -/
theorem release_holds (h : Holds r ring l) (base : ℤ) :
    let o := r.release ring base
    o.2.2 = decide (base ∈ l) ∧ o.2.1.cap = ring.cap ∧ Holds o.1 o.2.1 (l.erase base) ∧
      (base ∉ l → o.1 = r ∧ o.2.1 = ring) := by
  intro o
  have hfits := h.fits
  -- Every refusal is this case: the base is not there.
  have habsent : o = (r, ring, false) → base ∉ l →
      o.2.2 = decide (base ∈ l) ∧ o.2.1.cap = ring.cap ∧ Holds o.1 o.2.1 (l.erase base) ∧
        (base ∉ l → o.1 = r ∧ o.2.1 = ring) := by
    intro ho hmem
    rw [ho, erase_of_not_mem hmem]
    exact ⟨by simp [hmem], rfl, h, fun _ => ⟨rfl, rfl⟩⟩
  by_cases hempty : l.length = 0
  · refine habsent ?_ (by simp [eq_nil_of_length_eq_zero hempty])
    show r.release ring base = _
    rw [release, if_pos (.inl (h.len.trans hempty))]
  have hh : r.head < ring.cap := h.head_lt (by omega)
  obtain ⟨hle, hbelow, habove⟩ := bisect_spec h.sorted base h.cells
    (le_refl (l.length - 0)) (Nat.zero_le _) le_rfl (by omega) (by omega)
  rw [Nat.sub_zero] at hle hbelow habove
  set i := bisect ring r.head base l.length 0 l.length with hi_def
  by_cases hfound : ∃ hi : i < l.length, l[i] = base
  swap
  · refine habsent ?_ fun hmem => ?_
    · show r.release ring base = _
      rw [release, if_neg (by rw [h.len]; omega), h.len]
      refine if_pos ?_
      rw [← hi_def]
      by_cases hend : i = l.length
      · exact .inl hend
      · refine .inr fun hcell => hfound ⟨by omega, ?_⟩
        rw [← h.cells i (by omega)]
        exact hcell
    · obtain ⟨j, hj, hjb⟩ := getElem_of_mem hmem
      have hge : i ≤ j := by
        by_contra hlt
        exact absurd hjb (hbelow j hj (by omega)).ne
      have hi : i < l.length := by omega
      refine hfound ⟨hi, le_antisymm ?_ (habove i hi le_rfl)⟩
      rw [← hjb]
      rcases eq_or_ne i j with rfl | hij
      · exact le_rfl
      · exact pairwise_iff_getElem.1 h.sorted i j hi hj (by omega)
  obtain ⟨hi, hib⟩ := hfound
  have hmem : base ∈ l := hib ▸ getElem_mem hi
  have hlen : (l.eraseIdx i).length = l.length - 1 := length_eraseIdx_of_lt hi
  have hsorted : (l.eraseIdx i).Pairwise (· ≤ ·) := h.sorted.sublist (eraseIdx_sublist ..)
  obtain ⟨hcap, hhead, hcells⟩ := closed_cells h hi
  set closed := if i < l.length / 2 then closeLeft r.head ring i
    else closeRight r.head ring i (l.length - 1 - i)
  set head := if i < l.length / 2 then phys r.head 1 ring.cap else r.head
  rw [← eraseIdx_eq_erase h.sorted hi hib]
  have ho : o = if l.length - 1 = 0 then ({}, closed, true) else
      (⟨closed.cell head, head, l.length - 1⟩, closed, true) := by
    show r.release ring base = _
    rw [release, if_neg (by rw [h.len]; omega), h.len]
    refine if_neg ?_
    rw [← hi_def]
    rintro (hend | hcell)
    · omega
    · refine hcell ?_
      rw [← hib, ← h.cells i hi]
      rfl
  by_cases hone : l.length - 1 = 0
  · rw [if_pos hone] at ho
    rw [ho, eq_nil_of_length_eq_zero (hlen.trans hone)]
    exact ⟨by simp [hmem], hcap, holds_empty _, fun hno => absurd hmem hno⟩
  rw [if_neg hone] at ho
  rw [ho]
  refine ⟨by simp [hmem], hcap, ⟨hlen.symm, ?_, ?_, hcells, hsorted, cell_head ?_ hcells⟩,
    fun hno => absurd hmem hno⟩
  · show (l.eraseIdx i).length ≤ closed.cap
    omega
  · show head < max 1 closed.cap
    omega
  · exact hcap ▸ hhead

-- ==== runs

/-- The two operations on a ring. -/
inductive RingOp where
  | reserve (base : ℤ)
  | release (base : ℤ)

/-- The operation on the ring and its cells, with its answer. -/
def RingOp.exec : RingOp → PendingRing × Cells → (PendingRing × Cells) × Bool
  | reserve base, c => ((c.1.reserve c.2 base).map id Prod.fst, (c.1.reserve c.2 base).2.2)
  | release base, c => ((c.1.release c.2 base).map id Prod.fst, (c.1.release c.2 base).2.2)

/-- The operation on a multiset of at most `cap` offsets, with its
answer. -/
def RingOp.apply (cap : ℕ) : RingOp → Multiset ℤ → Multiset ℤ × Bool
  | reserve base, m => if m.card < cap then (base ::ₘ m, true) else (m, false)
  | release base, m => (m.erase base, decide (base ∈ m))

/-- The step lemma: the answers agree, the ring goes on to hold what the
multiset does, and an operation answered with false changes nothing. -/
theorem Holds.exec (h : Holds c.1 c.2 l) (op : RingOp) :
    (op.exec c).2 = (op.apply c.2.cap l).2 ∧ (op.exec c).1.2.cap = c.2.cap ∧
      (∃ l' : List ℤ, Holds (op.exec c).1.1 (op.exec c).1.2 l' ∧ l' = (op.apply c.2.cap l).1) ∧
      ((op.exec c).2 = false → (op.exec c).1 = c) := by
  cases op with
  | reserve base =>
    obtain ⟨hans, hcap, hin, hfull⟩ := reserve_holds h base
    by_cases hroom : l.length < c.2.cap
    · refine ⟨by simp [RingOp.exec, RingOp.apply, hans, hroom], hcap, ⟨_, hin hroom, ?_⟩, ?_⟩
      · simpa [RingOp.apply, hroom] using perm_orderedInsert (· ≤ ·) base l
      · simp [RingOp.exec, hans, hroom]
    obtain ⟨hr, hring⟩ := hfull hroom
    refine ⟨by simp [RingOp.exec, RingOp.apply, hans, hroom], hcap, ⟨l, ?_, ?_⟩, fun _ => ?_⟩
    · simpa [RingOp.exec, hr, hring] using h
    · simp [RingOp.apply, hroom]
    · exact Prod.ext hr hring
  | release base =>
    obtain ⟨hans, hcap, hout, hstray⟩ := release_holds h base
    refine ⟨hans, hcap, ⟨_, hout, rfl⟩, fun hno => ?_⟩
    obtain ⟨hr, hring⟩ := hstray (of_decide_eq_false (hans.symm.trans hno))
    exact Prod.ext hr hring

/-- The run lemma. -/
theorem Holds.run (h : Holds c.1 c.2 l) (ops : List RingOp) :
    let c' := ops.foldl (fun c op => (op.exec c).1) c
    c'.2.cap = c.2.cap ∧ ∃ l' : List ℤ, Holds c'.1 c'.2 l' ∧
      l' = ops.foldl (fun m op => (op.apply c.2.cap m).1) (l : Multiset ℤ) := by
  induction ops generalizing c l with
  | nil => exact ⟨rfl, l, h, rfl⟩
  | cons op ops ih =>
    obtain ⟨-, hcap, ⟨l₁, h₁, hl₁⟩, -⟩ := h.exec op
    rw [foldl_cons, foldl_cons, ← hl₁, ← hcap]
    exact ih h₁

/-- Whatever was reserved and released, in any order, the length of the
ring and its floor are those of the multiset, and so is the answer of
the operation that follows; one answered with false changes nothing. -/
theorem ring_refines_multiset (ring : Cells) (ops : List RingOp) :
    let c := ops.foldl (fun c op => (op.exec c).1) ({}, ring)
    let m := ops.foldl (fun m op => (op.apply ring.cap m).1) (0 : Multiset ℤ)
    c.1.len = m.card ∧ m.card ≤ ring.cap ∧ c.1.head < max 1 ring.cap ∧
      (∀ x, c.1.floor = some x ↔ x ∈ m ∧ ∀ y ∈ m, x ≤ y) ∧
      ∀ op : RingOp, (op.exec c).2 = (op.apply ring.cap m).2 ∧
        ((op.exec c).2 = false → (op.exec c).1 = c) := by
  intro c m
  obtain ⟨hcap, l, h, hl⟩ := (holds_empty ring).run (c := ({}, ring)) ops
  have hm : m = l := hl.symm
  rw [hm, ← hcap]
  refine ⟨h.len, h.fits, h.head, fun x => ?_, fun op => ?_⟩
  · rw [h.floor]
    cases l with
    | nil => simp
    | cons a l =>
      have ha : ∀ y ∈ a :: l, a ≤ y := forall_mem_cons.2 ⟨le_rfl, (pairwise_cons.1 h.sorted).1⟩
      rw [head?_cons, Option.some_inj]
      constructor
      · rintro rfl
        exact ⟨mem_cons_self, ha⟩
      · rintro ⟨hx, hle⟩
        exact le_antisymm (ha x hx) (hle a mem_cons_self)
  · obtain ⟨hans, -, -, hsame⟩ := h.exec op
    exact ⟨hans, hsame⟩

end Kafgres.Storage
