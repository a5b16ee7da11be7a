/-
LSO reservations of in-flight `kafgres_produce()` transactions, one
ring per slot (storage/segment/pending.rs). `PendingRing` is the
header kept in the slot; the cells it describes live in a shared region
and are passed in beside it, as the source passes `&mut [i64]`. The loops
are transcribed with their own indices.
-/
import Mathlib.Logic.Function.Basic
import Mathlib.Data.Int.Notation
import Mathlib.Data.Nat.Notation

namespace Kafgres.Storage

/-- The cells one ring may use: a slice of `cap` words. Cells at or past
`cap` exist only in the model and are never addressed. -/
structure Cells where
  cap : ℕ
  cell : ℕ → ℤ

namespace Cells

/-- `ring[p] = v`. -/
def put (c : Cells) (p : ℕ) (v : ℤ) : Cells :=
  { c with cell := Function.update c.cell p v }

@[simp] theorem put_cap (c : Cells) (p : ℕ) (v : ℤ) : (c.put p v).cap = c.cap := rfl

@[simp] theorem put_cell (c : Cells) (p q : ℕ) (v : ℤ) :
    (c.put p v).cell q = if q = p then v else c.cell q := by
  simp [put, Function.update_apply]

end Cells

/-- One partition's reserved bases, ascending, in its ring. -/
structure PendingRing where
  /-- The lowest base, cached so an LSO read never touches the region. -/
  min : ℤ := -1
  head : ℕ := 0
  len : ℕ := 0
deriving DecidableEq, Repr

/-- The physical cell of logical index `j`. -/
def phys (head j cap : ℕ) : ℕ :=
  if head + j ≥ cap then head + j - cap else head + j

namespace PendingRing

/-- The lowest reserved base, if any. -/
def floor (r : PendingRing) : Option ℤ :=
  if r.len > 0 then some r.min else none

-- ==== reserve

/-- The insertion walk: while the cell below `j` holds more than `base`,
move it up. Returns the cells and the index where `base` goes. -/
def shiftUp (head : ℕ) (base : ℤ) : Cells → ℕ → Cells × ℕ
  | ring, 0 => (ring, 0)
  | ring, j + 1 =>
    if ring.cell (phys head j ring.cap) > base then
      shiftUp head base (ring.put (phys head (j + 1) ring.cap) (ring.cell (phys head j ring.cap))) j
    else (ring, j + 1)

/-- Add `base`; false when the ring is full. -/
def reserve (r : PendingRing) (ring : Cells) (base : ℤ) : PendingRing × Cells × Bool :=
  if r.len ≥ ring.cap ∨ r.head ≥ ring.cap then (r, ring, false)
  else
    let walked := shiftUp r.head base ring r.len
    let placed := walked.1.put (phys r.head walked.2 ring.cap) base
    ({ r with len := r.len + 1, min := placed.cell r.head }, placed, true)

-- ==== release

/-- The binary search for the first index in `[lo, hi)` not below `base`.
The interval at least halves, so `fuel ≥ hi - lo` steps are enough. -/
def bisect (ring : Cells) (head : ℕ) (base : ℤ) : ℕ → ℕ → ℕ → ℕ
  | 0, lo, _ => lo
  | fuel + 1, lo, hi =>
    if lo < hi then
      if ring.cell (phys head ((lo + hi) / 2) ring.cap) < base then
        bisect ring head base fuel ((lo + hi) / 2 + 1) hi
      else bisect ring head base fuel lo ((lo + hi) / 2)
    else lo

/-- `for j in (0..lo).rev()`: the cells below the gap move up one. -/
def closeLeft (head : ℕ) : Cells → ℕ → Cells
  | ring, 0 => ring
  | ring, j + 1 =>
    closeLeft head (ring.put (phys head (j + 1) ring.cap) (ring.cell (phys head j ring.cap))) j

/-- `for j in lo..len - 1`, with `n` steps left: the cells above the gap
move down one. -/
def closeRight (head : ℕ) : Cells → ℕ → ℕ → Cells
  | ring, _, 0 => ring
  | ring, j, n + 1 =>
    closeRight head (ring.put (phys head j ring.cap)
        (ring.cell (phys head (j + 1) ring.cap))) (j + 1) n

/-- Remove one entry equal to `base`; false, changing nothing, if there
is none. -/
def release (r : PendingRing) (ring : Cells) (base : ℤ) : PendingRing × Cells × Bool :=
  if r.len = 0 ∨ r.len > ring.cap ∨ r.head ≥ ring.cap then (r, ring, false)
  else
    let lo := bisect ring r.head base r.len 0 r.len
    if lo = r.len ∨ ring.cell (phys r.head lo ring.cap) ≠ base then
      (r, ring, false)
    else
      let closed := if lo < r.len / 2 then closeLeft r.head ring lo
        else closeRight r.head ring lo (r.len - 1 - lo)
      let head := if lo < r.len / 2 then phys r.head 1 ring.cap else r.head
      if r.len - 1 = 0 then ({}, closed, true)
      else
        ({ min := closed.cell head, head := head, len := r.len - 1 }, closed, true)

end PendingRing

end Kafgres.Storage
