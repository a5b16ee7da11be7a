/-
Byte strings as lists: fixed-width big-endian numbers, fields at a
position, and a file that is written in place.

`fromBe_toBe` is the round trip; `writeAt` is what one positioned write
leaves of a file, and its three lemmas say which bytes it kept.
-/
import Mathlib.Data.List.Basic
import Mathlib.Tactic.Ring

namespace Bytes

open List

-- ==== big endian

/-- The number a big-endian byte string spells. -/
def fromBe (bs : List UInt8) : ℕ := bs.foldl (fun n b => n * 256 + b.toNat) 0

/-- The low `w` bytes of `n`, most significant first. -/
def toBe : ℕ → ℕ → List UInt8
  | 0, _ => []
  | w + 1, n => UInt8.ofNat (n / 256 ^ w) :: toBe w n

/-- An `n`-bit pattern read as a two's complement number. -/
def signed (bits : ℕ) (n : ℕ) : ℤ :=
  if n < 2 ^ (bits - 1) then n else (n : ℤ) - 2 ^ bits

/-- The `bits`-bit pattern of an integer: the cast to an unsigned
type. -/
def pattern (bits : ℕ) (x : ℤ) : ℕ := (x % 2 ^ bits).toNat

@[simp] theorem toBe_length (w n : ℕ) : (toBe w n).length = w := by
  induction w with
  | zero => rfl
  | succ w ih => rw [toBe, length_cons, ih]

private theorem foldl_be (bs : List UInt8) (a : ℕ) :
    bs.foldl (fun n b => n * 256 + b.toNat) a = a * 256 ^ bs.length + fromBe bs := by
  induction bs generalizing a with
  | nil => simp [fromBe]
  | cons b bs ih =>
    rw [fromBe, List.foldl_cons, List.foldl_cons, ih, ih (0 * 256 + _), List.length_cons, pow_succ]
    ring

theorem fromBe_cons (b : UInt8) (bs : List UInt8) :
    fromBe (b :: bs) = b.toNat * 256 ^ bs.length + fromBe bs := by
  rw [fromBe, foldl_cons, foldl_be]
  simp

theorem fromBe_lt (bs : List UInt8) : fromBe bs < 256 ^ bs.length := by
  induction bs with
  | nil => decide
  | cons b bs ih =>
    have hb : b.toNat + 1 ≤ 256 := b.toNat_lt
    calc fromBe (b :: bs) < b.toNat * 256 ^ bs.length + 256 ^ bs.length := by
          rw [fromBe_cons]
          exact Nat.add_lt_add_left ih _
      _ = (b.toNat + 1) * 256 ^ bs.length := by ring
      _ ≤ 256 * 256 ^ bs.length := Nat.mul_le_mul_right _ hb
      _ = 256 ^ (b :: bs).length := by
          rw [length_cons]
          ring

/-- Writing and reading back keeps what fits. -/
theorem fromBe_toBe (w n : ℕ) : fromBe (toBe w n) = n % 256 ^ w := by
  induction w with
  | zero => simp [toBe, fromBe, Nat.mod_one]
  | succ w ih =>
    rw [toBe, fromBe_cons, ih, toBe_length, pow_succ, Nat.mod_mul, UInt8.toNat_ofNat']
    ring

/-- A number that fits its field survives the round trip. -/
theorem fromBe_toBe_of_lt {w n : ℕ} (h : n < 256 ^ w) : fromBe (toBe w n) = n := by
  rw [fromBe_toBe, Nat.mod_eq_of_lt h]

-- ==== fields

/-- The `len` bytes at position `at_`, fewer at the end of the
string. -/
def field (bs : List UInt8) (at_ len : ℕ) : List UInt8 := (bs.drop at_).take len

/-- A field that lies inside a prefix is read from the prefix. -/
theorem field_of_begins {x s : List UInt8} (h : x <+: s) {at_ len : ℕ}
    (hlen : at_ + len ≤ x.length) : field s at_ len = field x at_ len := by
  obtain ⟨rest, rfl⟩ := h
  rw [field, field, drop_append_of_le_length (by omega),
    take_append_of_le_length (by rw [length_drop]; omega)]

-- ==== files

/-- The file after writing `data` at `pos`; a gap before it reads as
zeros. -/
def writeAt (f : List UInt8) (pos : ℕ) (data : List UInt8) : List UInt8 :=
  f.take pos ++ List.replicate (pos - f.length) 0 ++ data ++ f.drop (pos + data.length)

variable {f : List UInt8} {pos : ℕ}

/-- Nothing before the position changes. -/
theorem writeAt_take (data : List UInt8)
    (h : pos ≤ f.length) : (writeAt f pos data).take pos = f.take pos := by
  have hlen : (f.take pos).length = pos := by
    rw [length_take]
    omega
  rw [writeAt, Nat.sub_eq_zero_of_le h, replicate_zero,
    append_nil, append_assoc, take_append_of_le_length hlen.ge, take_of_length_le hlen.le]

/-- What was written is there. -/
theorem writeAt_take_append (data : List UInt8) (h : pos ≤ f.length) :
    (writeAt f pos data).take (pos + data.length) = f.take pos ++ data := by
  have hlen : (f.take pos ++ data).length = pos + data.length := by
    rw [length_append, length_take]
    omega
  rw [writeAt, Nat.sub_eq_zero_of_le h, replicate_zero, append_nil, ← hlen, take_left]

/-- Writing at the end appends. -/
theorem writeAt_end (f data : List UInt8) : writeAt f f.length data = f ++ data := by
  rw [writeAt, take_length, Nat.sub_self, replicate_zero,
    append_nil, drop_eq_nil_of_le (Nat.le_add_right ..),
    append_nil]

end Bytes
