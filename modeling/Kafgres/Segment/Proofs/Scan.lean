/-
What the two readers of a segment return.
-/
import Kafgres.Codec.Proofs.RecordBatch
import Kafgres.Segment.Recover

namespace Kafgres.Segment

open Storage Codec Bytes Framing List

variable {crc : List UInt8 → ℕ} {log : List UInt8} {frames : List (List UInt8)} {whole : List UInt8}
  {s : Scan} {pos : ℕ} {base : ℤ} {e : ℤ × ℕ}

-- ==== the scan

/-- A scan accepts whole batches only. -/
theorem batchAt_some (h : batchAt crc log pos = some whole) :
    IsBatch crc whole ∧ whole <+: log.drop pos := by
  unfold batchAt at h
  split_ifs at h with hhead
  dsimp only at h
  split_ifs at h with hlen htotal
  cases hv : RecordBatch.validated crc (field log pos (lengthOffset + 4
      + (readI32 (log.drop pos) lengthOffset).toNat)) with
  | error e =>
    simp [hv] at h
  | ok v =>
    rw [hv] at h
    obtain ⟨rfl, hb⟩ := isBatch_of_validated hv
    cases h
    exact ⟨hb, take_prefix ..⟩

/-- It accepts every one. -/
theorem batchAt_of_frame {x : List UInt8} (hx : IsBatch crc x)
    (hpre : x <+: log.drop pos) : batchAt crc log pos = some x := by
  obtain ⟨hlen, -, hdecl, -⟩ := isBatch_iff.1 hx
  have hfit : pos + x.length ≤ log.length := by
    have := hpre.length_le
    rw [length_drop] at this
    unfold recordBatchOverhead at hlen
    omega
  have hread : readI32 (log.drop pos) lengthOffset = batchLength x := by
    rw [batchLength, readI32, readI32, field_of_begins hpre]
    unfold recordBatchOverhead at hlen
    unfold lengthOffset
    omega
  have htotal : lengthOffset + 4 + (batchLength x).toNat = x.length := by
    unfold recordBatchOverhead at hlen
    unfold lengthOffset at hdecl ⊢
    omega
  have hfield : field log pos x.length = x := (prefix_iff_eq_take.1 hpre).symm
  unfold batchAt
  rw [if_pos (by omega)]
  dsimp only
  rw [hread, htotal, if_neg, if_neg (by omega), hfield]
  · rw [show RecordBatch.validated crc x = .ok x from hx]
  · unfold recordBatchOverhead at hlen
    unfold lengthOffset at hdecl
    omega

/-- A hint names the start of a batch of the parse that has its
offset. -/
def HintFor (frames : List (List UInt8)) (e : ℤ × ℕ) : Prop :=
  ∃ x, StartsAt frames e.2 x ∧ baseOffset x = e.1

theorem HintFor.mono {fs gs : List (List UInt8)}
    (h : HintFor fs e) (hp : fs <+: gs) : HintFor gs e := by
  obtain ⟨x, hx, hbase⟩ := h
  exact ⟨x, hx.mono hp, hbase⟩

/-- A batch appended to a parse is named by its offset and the parse's
old end. -/
theorem hintFor_snoc (frames : List (List UInt8)) (x : List UInt8) :
    HintFor (frames ++ [x]) (baseOffset x, frames.flatten.length) :=
  ⟨x, ⟨frames, [], rfl, rfl⟩, rfl⟩

/-- The log end after the batches of a segment: its base if it has
none. -/
def endOffset (base : ℤ) (frames : List (List UInt8)) : ℤ :=
  match frames.getLast? with
  | none => base
  | some x => baseOffset x + lastOffsetDelta x + 1

/-- A scan so far, against the batches it has passed. -/
structure ScanOf (crc : List UInt8 → ℕ) (base : ℤ) (log : List UInt8)
    (s : Scan) (frames : List (List UInt8)) : Prop where
  parse : Parse (IsBatch crc) frames log
  pos : s.pos = frames.flatten.length
  hints : ∀ e ∈ s.index, HintFor frames e
  first : s.index.head? = frames.head?.map fun x => (baseOffset x, 0)
  next : s.nextOffset = endOffset base frames

theorem scanOf_push (h : ScanOf crc base log s frames) (hb : batchAt crc log s.pos = some whole) :
    ScanOf crc base log (s.push whole) (frames ++ [whole]) := by
  obtain ⟨hbatch, hpre⟩ := batchAt_some hb
  rw [h.pos] at hpre
  refine ⟨h.parse.snoc hbatch hpre, ?_, ?_, ?_, ?_⟩
  · simp [Scan.push, h.pos]
  · intro e he
    have hold : ∀ e ∈ s.index, HintFor (frames ++ [whole]) e :=
      fun e he => (h.hints e he).mono (prefix_append ..)
    simp only [Scan.push] at he
    split at he
    · rcases mem_append.1 he with he | he
      · exact hold e he
      · rw [mem_singleton.1 he, h.pos]
        exact hintFor_snoc frames whole
    · exact hold e he
  · have hfirst := h.first
    cases frames with
    | nil =>
      have hnil : s.index = [] := head?_eq_none_iff.1 hfirst
      simp [Scan.push, hnil, indexable, h.pos]
    | cons x frames =>
      obtain ⟨rest, hcons⟩ := head?_eq_some_iff.1 hfirst
      simp only [Scan.push, hcons]
      split <;> rfl
  · simp [Scan.push, endOffset]

theorem scanOf_loop (fuel : ℕ) (h : ScanOf crc base log s frames) :
    ∃ frames', ScanOf crc base log (scanLoop crc log fuel s) frames' := by
  induction fuel generalizing s frames with
  | zero => exact ⟨frames, h⟩
  | succ fuel ih =>
    rw [scanLoop]
    split
    · exact ⟨frames, h⟩
    · rename_i whole hb
      exact ih (scanOf_push h hb)

/-- A scan returns a parse of the file. -/
theorem readSegment_spec (crc : List UInt8 → ℕ) (base : ℤ) (log : List UInt8) :
    ∃ frames, ScanOf crc base log (readSegment crc base log) frames :=
  scanOf_loop log.length ⟨.nil log, rfl, fun _ he => absurd he not_mem_nil, rfl, rfl⟩

variable {fs pre : List (List UInt8)} {tail : List UInt8} {torn : List UInt8}

theorem not_begins_nil (x : List UInt8) (hx : IsBatch crc x) : ¬ x <+: [] :=
  fun hnil => hx.ne_nil (prefix_nil.1 hnil)

/-- The loop over batches that are followed by none takes them one by
one. -/
theorem scanLoop_frames {fuel : ℕ} (h : ScanOf crc base log s pre) (hb : ∀ x ∈ fs, IsBatch crc x)
    (hlog : log = (pre ++ fs).flatten ++ tail) (htail : ∀ x, IsBatch crc x → ¬ x <+: tail)
    (hfuel : fs.flatten.length ≤ fuel) :
    scanLoop crc log fuel s = fs.foldl Scan.push s ∧
    ScanOf crc base log (fs.foldl Scan.push s) (pre ++ fs) := by
  induction fs generalizing s pre fuel with
  | nil =>
    rw [append_nil] at hlog ⊢
    refine ⟨?_, h⟩
    have hat : batchAt crc log s.pos = none := by
      refine Option.eq_none_iff_forall_ne_some.2 fun x hx => ?_
      obtain ⟨hx, hpre⟩ := batchAt_some hx
      rw [h.pos, hlog, drop_left] at hpre
      exact htail x hx hpre
    cases fuel with
    | zero => rfl
    | succ fuel =>
      rw [scanLoop, hat]
      rfl
  | cons x fs ih =>
    have hx := hb x mem_cons_self
    have hpos := length_pos_iff.2 hx.ne_nil
    rw [flatten_cons, length_append] at hfuel
    obtain ⟨fuel, rfl⟩ : ∃ k, fuel = k + 1 := ⟨fuel - 1, by omega⟩
    have hat : batchAt crc log s.pos = some x := by
      apply batchAt_of_frame hx
      rw [h.pos, hlog, flatten_append, append_assoc, drop_left, flatten_cons, append_assoc]
      exact prefix_append ..
    rw [append_cons] at hlog ⊢
    rw [scanLoop, hat]
    exact ih (scanOf_push h hat) (fun y hy => hb y (.tail _ hy)) hlog (by omega)

/-- A scan stops where the whole batches do. -/
theorem readSegment_frames (base : ℤ) (hb : ∀ x ∈ fs, IsBatch crc x)
    (htail : ∀ x, IsBatch crc x → ¬ x <+: tail) :
    readSegment crc base (fs.flatten ++ tail) = fs.foldl Scan.push ⟨[], 0, base, (i64Min, -1)⟩ ∧
    ScanOf crc base (fs.flatten ++ tail) (fs.foldl Scan.push ⟨[], 0, base, (i64Min, -1)⟩) fs :=
  scanLoop_frames ⟨.nil _, rfl, fun _ he => absurd he not_mem_nil, rfl, rfl⟩ hb rfl htail (by simp)

-- ==== the index

/-- The `.index` bytes of a list of hints for the segment at `base`. -/
def encodeIndex (base : ℤ) (entries : List (ℤ × ℕ)) : List UInt8 :=
  (entries.map fun e => encodeEntry (e.1 - base) e.2).flatten

/-- The hint fits an entry: offset and position each take four
bytes. -/
def Encodable (base : ℤ) (e : ℤ × ℕ) : Prop := 0 ≤ e.1 - base ∧ e.1 - base < 2 ^ 32 ∧ e.2 < 2 ^ 32

theorem encodeEntry_length (rel : ℤ) (pos : ℕ) : (encodeEntry rel pos).length = indexEntry := by
  rw [encodeEntry, length_append, toBe_length, toBe_length]
  rfl

theorem encodeIndex_cons (base : ℤ) (e : ℤ × ℕ) (entries : List (ℤ × ℕ)) :
    encodeIndex base (e :: entries)
      = encodeEntry (e.1 - base) e.2 ++ encodeIndex base entries := rfl

theorem encodeIndex_snoc (base : ℤ) (e : ℤ × ℕ) (entries : List (ℤ × ℕ)) :
    encodeIndex base (entries ++ [e])
      = encodeIndex base entries ++ encodeEntry (e.1 - base) e.2 := by
  simp [encodeIndex]

theorem encodeIndex_length (base : ℤ) (entries : List (ℤ × ℕ)) :
    (encodeIndex base entries).length = indexEntry * entries.length := by
  induction entries with
  | nil => rfl
  | cons e entries ih =>
    rw [encodeIndex_cons, length_append, ih, encodeEntry_length, length_cons]
    ring

/-- The two halves of an entry read back. -/
theorem decode_entry (h : Encodable base e) (rest : List UInt8) :
    let bs := encodeEntry (e.1 - base) e.2 ++ rest
    base + (fromBe (field bs 0 4) : ℕ) = e.1 ∧ fromBe (field bs 4 4) = e.2 := by
  intro bs
  obtain ⟨h0, h1, h2⟩ := h
  have hrel : field bs 0 4 = toBe 4 (pattern 32 (e.1 - base)) := by
    show (bs.drop 0).take 4 = _
    rw [drop_zero, show bs = toBe 4 (pattern 32 (e.1 - base))
      ++ (toBe 4 (e.2 % 2 ^ 32) ++ rest) from append_assoc ..]
    exact take_left' (toBe_length 4 _)
  have hpos : field bs 4 4 = toBe 4 (e.2 % 2 ^ 32) := by
    show (bs.drop 4).take 4 = _
    rw [show bs = toBe 4 (pattern 32 (e.1 - base))
      ++ (toBe 4 (e.2 % 2 ^ 32) ++ rest) from append_assoc ..,
      drop_left' (toBe_length 4 _)]
    exact take_left' (toBe_length 4 _)
  have hpat : pattern 32 (e.1 - base) = (e.1 - base).toNat := by
    unfold pattern
    rw [Int.emod_eq_of_lt h0 h1]
  constructor
  · rw [hrel, hpat, fromBe_toBe_of_lt (by omega)]
    omega
  · rw [hpos, fromBe_toBe_of_lt (by omega), Nat.mod_eq_of_lt h2]

/-- The reader returns what was written, up to the first entry that
points past the end; a torn last entry is not read. -/
theorem readIndexLoop_encoded (base : ℤ) (dataEnd : ℕ) (htorn : torn.length < indexEntry)
    (entries : List (ℤ × ℕ)) (henc : ∀ e ∈ entries, Encodable base e)
    (fuel : ℕ) (hfuel : entries.length ≤ fuel) :
    readIndexLoop base dataEnd fuel (encodeIndex base entries ++ torn)
      = entries.takeWhile fun e => e.2 < dataEnd := by
  induction entries generalizing fuel with
  | nil =>
    cases fuel with
    | zero => rfl
    | succ fuel =>
      rw [readIndexLoop, if_neg]
      · rfl
      · simpa [encodeIndex] using htorn
  | cons e entries ih =>
    cases fuel with
    | zero => cases hfuel
    | succ fuel =>
      have he := henc e (.head _)
      obtain ⟨hrel, hpos⟩ := decode_entry he (encodeIndex base entries ++ torn)
      have hlen := encodeEntry_length (e.1 - base) e.2
      rw [encodeIndex_cons, append_assoc, readIndexLoop, if_pos (by
        rw [length_append]
        omega)]
      dsimp only
      rw [hrel, hpos, drop_left' hlen]
      by_cases hend : e.2 < dataEnd
      · rw [if_neg (by omega), takeWhile_cons_of_pos (by simpa),
          ih (fun x hx => henc x (.tail _ hx)) fuel (by simpa using hfuel)]
      · rw [if_pos (by omega), takeWhile_cons_of_neg (by simpa using hend)]

theorem readIndex_encoded {entries : List (ℤ × ℕ)} (dataEnd : ℕ) (htorn : torn.length < indexEntry)
    (henc : ∀ e ∈ entries, Encodable base e) :
    readIndex base (encodeIndex base entries ++ torn) dataEnd
      = entries.takeWhile fun e => e.2 < dataEnd := by
  refine readIndexLoop_encoded base dataEnd htorn entries henc _ ?_
  rw [length_append, encodeIndex_length]
  unfold indexEntry
  omega

/-- Cutting an index file leaves whole entries and at most one torn
one. -/
theorem take_encoded (base : ℤ) (entries : List (ℤ × ℕ))
    (htorn : torn.length < indexEntry) (n : ℕ) :
    ∃ k torn', torn'.length < indexEntry ∧ (encodeIndex base entries ++ torn).take n
        = encodeIndex base (entries.take k) ++ torn' := by
  induction entries generalizing n with
  | nil =>
    refine ⟨0, torn.take n, ?_, by simp [encodeIndex]⟩
    rw [length_take]
    omega
  | cons e entries ih =>
    have hlen := encodeEntry_length (e.1 - base) e.2
    by_cases hn : n < indexEntry
    · refine ⟨0, (encodeEntry (e.1 - base) e.2).take n, ?_, ?_⟩
      · rw [length_take]
        omega
      · rw [encodeIndex_cons, append_assoc, take_append_of_le_length (by omega)]
        simp [encodeIndex]
    · obtain ⟨k, torn', ht, hk⟩ := ih (n - indexEntry)
      refine ⟨k + 1, torn', ht, ?_⟩
      rw [take_succ_cons, encodeIndex_cons, encodeIndex_cons,
        append_assoc, append_assoc, take_append, hlen, hk,
        take_of_length_le (by omega)]

end Kafgres.Segment
