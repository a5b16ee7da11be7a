/-
Frames on a connection (codec/src/framing.rs): `take_frame` and
`write_frame`.

A reader appends what arrives to its buffer and takes frames off the
front until there is none. `Fed` is what it has then: the bodies taken,
and a buffer that is the unread rest of what has arrived and does not
begin with the next frame. It holds after every chunk, however the
stream is cut.
-/
import Kafgres.Codec.RecordBatch
import Mathlib.Data.List.Infix

namespace Kafgres.Codec

open Bytes List

-- ==== the functions

/-- `FrameError`. -/
structure Oversized where
  declared : ℤ
  max : ℕ

/-- `take_frame`: what it answers, and the buffer after it. -/
def takeFrame (max : ℕ) (buf : List UInt8) : Except Oversized (Option (List UInt8)) × List UInt8 :=
  if buf.length < 4 then (.ok none, buf)
  else
    let declared := readI32 buf 0
    if declared < 0 ∨ declared > max then (.error ⟨declared, max⟩, buf)
    else
      let total := 4 + declared.toNat
      if buf.length < total then (.ok none, buf)
      else (.ok (some ((buf.take total).drop 4)), buf.drop total)

/-- `i32::MAX`, the longest body a length field can say. -/
def i32Max : ℕ := 2147483647

/-- The refusals of an encoder. -/
inductive CodecError where
  | invalidLength (len : ℤ)
  | unexpectedNull (field : String)

/-- `write_frame`: four bytes, what `encodeBody` appends, and then the
length over the four. -/
def writeFrame (out : List UInt8) (encodeBody : List UInt8 → Except CodecError (List UInt8)) :
    Except CodecError (List UInt8) := do
  let all ← encodeBody (out ++ List.replicate 4 0)
  let len := all.length - out.length - 4
  if len > i32Max then throw (.invalidLength len)
  return writeAt all out.length (toBe 4 len)

/-- Bodies written one after the other. -/
def writeFrames (bodies : List (List UInt8)) : Except CodecError (List UInt8) :=
  bodies.foldlM (fun out body => writeFrame out fun out => .ok (out ++ body)) []

/-- `take_frame` until it yields nothing. A frame has four bytes at
least, so the buffer's length bounds the rounds. -/
def takeFrames (max : ℕ) : ℕ → List UInt8 → List (List UInt8) × List UInt8
  | 0, buf => ([], buf)
  | n + 1, buf =>
    match takeFrame max buf with
    | (.ok (some body), rest) =>
      let more := takeFrames max n rest
      (body :: more.1, more.2)
    | (_, rest) => ([], rest)

/-- A chunk arrives. -/
def feed (max : ℕ) (st : List (List UInt8) × List UInt8) (chunk : List UInt8) :
    List (List UInt8) × List UInt8 :=
  let buf := st.2 ++ chunk
  let r := takeFrames max buf.length buf
  (st.1 ++ r.1, r.2)

-- ==== one frame

variable {max n : ℕ} {buf body rest out stream : List UInt8} {bodies : List (List UInt8)}

/-- The encoding of a body. -/
def frame (body : List UInt8) : List UInt8 := toBe 4 body.length ++ body

theorem writeFrame_eq (h : body.length ≤ i32Max) :
    writeFrame out (fun out => .ok (out ++ body)) = .ok (out ++ frame body) := by
  have hlen : (out ++ replicate 4 0 ++ body).length - out.length - 4 = body.length := by
    simp only [length_append, length_replicate]
    omega
  have hover : writeAt (out ++ replicate 4 0 ++ body) out.length (toBe 4 body.length)
      = out ++ frame body := by
    simp [writeAt, frame, append_assoc, drop_append]
  show (if _ then _ else _) = _
  rw [hlen, if_neg (not_lt.2 h), hover]
  rfl

theorem writeFrames_eq (hb : ∀ b ∈ bodies, b.length ≤ i32Max) :
    writeFrames bodies = .ok (bodies.flatMap frame) := by
  have hfold : ∀ out,
      bodies.foldlM (fun out body => writeFrame out fun out => .ok (out ++ body)) out
      = .ok (out ++ bodies.flatMap frame) := by
    induction bodies with
    | nil => exact fun out => by simp [pure, Except.pure]
    | cons body bodies ih =>
      intro out
      obtain ⟨h, hb⟩ := forall_mem_cons.1 hb
      rw [foldlM_cons, writeFrame_eq h, flatMap_cons, ← append_assoc]
      exact ih hb _
  exact hfold []

/-- The length field of a frame, once it has arrived. -/
theorem readI32_frame (h : body.length ≤ i32Max) (hbuf : buf <+: frame body ++ rest)
    (h4 : 4 ≤ buf.length) : readI32 buf 0 = body.length := by
  have hfield : field buf 0 4 = toBe 4 body.length := by
    rw [← field_of_begins hbuf (by simpa using h4)]
    simp [field, frame]
  unfold i32Max at h
  rw [readI32, hfield, fromBe_toBe_of_lt (by omega), signed, if_pos (by omega)]

theorem takeFrame_frame (hmax : body.length ≤ max) (h : body.length ≤ i32Max) :
    takeFrame max (frame body ++ rest) = (.ok (some body), rest) := by
  have hlen : (frame body).length = 4 + body.length := by simp [frame]
  have hall : (frame body ++ rest).length = (frame body).length + rest.length := length_append
  unfold takeFrame
  rw [if_neg (by omega), readI32_frame h (prefix_refl _) (by omega)]
  rw [if_neg (by omega), if_neg (by omega), Int.toNat_natCast, ← hlen, take_left, drop_left]
  simp [frame]

/-- A frame that has not all arrived. -/
theorem takeFrame_short (hmax : body.length ≤ max) (h : body.length ≤ i32Max)
    (hbuf : buf <+: frame body ++ rest) (hno : ¬ frame body <+: buf) :
    takeFrame max buf = (.ok none, buf) := by
  have hlen : buf.length < 4 + body.length := by
    by_contra hge
    refine hno (prefix_of_prefix_length_le (prefix_append _ rest) hbuf ?_)
    simpa [frame] using hge
  unfold takeFrame
  split
  · rfl
  next h4 =>
    rw [readI32_frame h hbuf (not_lt.1 h4)]
    rw [if_neg (by omega), if_pos (by omega)]

-- ==== the stream

/-- A reader of `bodies` that was given the bytes `seen`. -/
def Fed (bodies : List (List UInt8)) (seen : List UInt8)
    (st : List (List UInt8) × List UInt8) : Prop :=
  ∃ later, bodies = st.1 ++ later ∧ st.1.flatMap frame ++ st.2 = seen ∧
    ∀ body ∈ later.head?, ¬ frame body <+: st.2

section

variable (hb : ∀ b ∈ bodies, b.length ≤ max ∧ b.length ≤ i32Max)
include hb

theorem takeFrames_spec (hbuf : buf <+: bodies.flatMap frame) (hn : buf.length ≤ n) :
    Fed bodies buf (takeFrames max n buf) := by
  induction n generalizing buf bodies with
  | zero =>
    obtain rfl := eq_nil_of_length_eq_zero (Nat.le_zero.1 hn)
    refine ⟨bodies, rfl, rfl, fun body _ hpre => ?_⟩
    simpa [takeFrames, frame] using hpre.length_le
  | succ n ih =>
    cases bodies with
    | nil =>
      obtain rfl := prefix_nil.1 hbuf
      exact ⟨[], rfl, rfl, nofun⟩
    | cons body bodies =>
      obtain ⟨⟨hmax, h32⟩, hb⟩ := forall_mem_cons.1 hb
      rw [flatMap_cons] at hbuf
      by_cases hall : frame body <+: buf
      · obtain ⟨more, rfl⟩ := hall
        have hlen : (frame body).length = 4 + body.length := by simp [frame]
        rw [length_append] at hn
        obtain ⟨later, heq, hseen, hstop⟩ := ih hb ((prefix_append_right_inj _).1 hbuf) (by omega)
        rw [takeFrames, takeFrame_frame hmax h32]
        exact ⟨later, congrArg _ heq, by rw [flatMap_cons, append_assoc, hseen], hstop⟩
      · rw [takeFrames, takeFrame_short hmax h32 hbuf hall]
        refine ⟨body :: bodies, rfl, rfl, ?_⟩
        rintro _ ⟨⟩
        exact hall

theorem Fed.feed {seen chunk : List UInt8} {st : List (List UInt8) × List UInt8}
    (h : Fed bodies seen st)
    (hmore : seen ++ chunk <+: bodies.flatMap frame) :
    Fed bodies (seen ++ chunk) (Codec.feed max st chunk) := by
  obtain ⟨later, rfl, rfl, -⟩ := h
  rw [flatMap_append, append_assoc, prefix_append_right_inj] at hmore
  have hfed : Fed _ _ (takeFrames max _ _) :=
    takeFrames_spec (forall_mem_append.1 hb).2 hmore le_rfl
  obtain ⟨rest, heq, hseen, hstop⟩ := hfed
  refine ⟨rest, by rw [heq, ← append_assoc]; rfl, ?_, hstop⟩
  rw [append_assoc, ← hseen, ← append_assoc, ← flatMap_append]
  rfl

/-- Once the whole stream has arrived, nothing is left. -/
theorem Fed.run {seen : List UInt8} {st : List (List UInt8) × List UInt8}
    {chunks : List (List UInt8)}
    (h : Fed bodies seen st) (hall : seen ++ chunks.flatten = bodies.flatMap frame) :
    chunks.foldl (Codec.feed max) st = (bodies, []) := by
  induction chunks generalizing seen st with
  | nil =>
    obtain ⟨later, rfl, rfl, hstop⟩ := h
    rw [flatten_nil, append_nil, flatMap_append, append_cancel_left_eq] at hall
    cases later with
    | nil => exact Prod.ext (append_nil _).symm hall
    | cons body later =>
      refine absurd ?_ (hstop body rfl)
      rw [hall, flatMap_cons]
      exact prefix_append ..
  | cons chunk chunks ih =>
    rw [flatten_cons, ← append_assoc] at hall
    exact ih (h.feed hb (hall ▸ prefix_append ..)) hall

end

/-- Bodies within the size limit are written and read back in order,
however the bytes are cut into chunks, and a call that yields no frame
leaves the buffer. -/
theorem frames_read_back (max : ℕ) :
    (∀ bodies : List (List UInt8), (∀ b ∈ bodies, b.length ≤ max ∧ b.length ≤ i32Max) →
      ∃ stream, writeFrames bodies = .ok stream ∧ ∀ chunks : List (List UInt8),
        chunks.flatten = stream → chunks.foldl (feed max) ([], []) = (bodies, [])) ∧
    ∀ buf, (∀ body, (takeFrame max buf).1 ≠ .ok (some body)) → (takeFrame max buf).2 = buf := by
  refine ⟨fun bodies hb => ?_, fun buf hno => ?_⟩
  · refine ⟨_, writeFrames_eq fun b hin => (hb b hin).2, fun chunks hcut => ?_⟩
    refine Fed.run hb ⟨bodies, rfl, rfl, fun body _ hpre => ?_⟩ hcut
    simpa [frame] using hpre.length_le
  · unfold takeFrame at hno ⊢
    dsimp only at hno ⊢
    split_ifs at hno ⊢ <;> first | rfl | exact absurd rfl (hno _)

/-- An empty frame and one of two bytes, cut inside both length
fields. -/
theorem frames_read_back_two :
    writeFrames [[], [7, 8]] = .ok [0, 0, 0, 0, 0, 0, 0, 2, 7, 8] ∧
    [[0, 0, 0], [0, 0, 0], [0, 2, 7, 8]].foldl (feed 2) ([], []) = ([[], [7, 8]], []) := by
  have hw : writeFrames [[], [7, 8]] = .ok [0, 0, 0, 0, 0, 0, 0, 2, 7, 8] := by rfl
  obtain ⟨stream, hs, hall⟩ := (frames_read_back 2).1 [[], [7, 8]] (by decide)
  refine ⟨hw, hall _ ?_⟩
  cases hw.symm.trans hs
  rfl

end Kafgres.Codec
