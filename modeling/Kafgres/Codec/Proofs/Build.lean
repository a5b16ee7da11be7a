/-
What `BatchIter` makes of a blob, and what can be read back of a built
batch.
-/
import Kafgres.Codec.Build
import Kafgres.Codec.Proofs.RecordBatch

namespace Kafgres.Codec

open Bytes RecordBatch List

variable {crc : List UInt8 → ℕ} {bs : List UInt8} {base epoch : ℤ}

-- ==== blobs

variable {buf : List UInt8} {n : ℕ}

/-- A round that takes what the length field says. -/
theorem batchRounds_taken {k : ℕ} (hhead : lengthOffset + 4 ≤ buf.length) (hk : 0 < k)
    (hle : k ≤ buf.length) (htotal : (k : ℤ) = batchLength buf + (lengthOffset + 4)) (n : ℕ) :
    batchRounds (n + 1) buf = new (buf.take k) :: batchRounds n (buf.drop k) := by
  have hne : buf ≠ [] := ne_nil_of_length_pos (by omega)
  simp only [batchRounds, if_neg hne, if_neg (not_lt.2 hhead), ← htotal, Int.toNat_natCast]
  exact if_neg (by omega)

/-- Induction over the rounds: one is the last, or takes some bytes. -/
theorem batchRounds_rec {motive : List UInt8 → List (Except BatchError (List UInt8)) → Prop}
    (nil : motive [] []) (last : ∀ buf e, buf ≠ [] → (∀ n, batchRounds (n + 1) buf = [.error e]) →
      motive buf [.error e]) (go : ∀ buf k items, 0 < k → k ≤ buf.length →
      (∀ n, batchRounds (n + 1) buf = new (buf.take k) :: batchRounds n (buf.drop k)) →
      motive (buf.drop k) items → motive buf (new (buf.take k) :: items))
    (h : buf.length ≤ n) : motive buf (batchRounds n buf) := by
  induction n generalizing buf with
  | zero => rwa [eq_nil_of_length_eq_zero (Nat.le_zero.1 h)]
  | succ n ih =>
    rcases eq_or_ne buf [] with rfl | hne
    · exact nil
    by_cases hshort : buf.length < lengthOffset + 4
    · have hlast := fun n => show batchRounds (n + 1) buf = _ by
        rw [batchRounds, if_neg hne, if_pos hshort]
      exact hlast n ▸ last buf _ hne hlast
    by_cases hno : batchLength buf + (lengthOffset + 4) ≤ 0 ∨
        batchLength buf + (lengthOffset + 4) > buf.length
    · have hlast := fun n => show batchRounds (n + 1) buf = [.error (.lengthMismatch
          (batchLength buf + (lengthOffset + 4)) buf.length)] by
        rw [batchRounds, if_neg hne, if_neg hshort]
        exact if_pos hno
      exact hlast n ▸ last buf _ hne hlast
    obtain ⟨k, hk⟩ := Int.eq_ofNat_of_zero_le (a := batchLength buf + (lengthOffset + 4)) (by omega)
    have hgo := batchRounds_taken (not_lt.1 hshort) (k := k) (by omega) (by omega) hk.symm
    rw [hgo]
    exact go buf k _ (by omega) (by omega) hgo (ih (by rw [length_drop]; omega))

/-- The batches of a blob have whole headers. -/
theorem length_of_mem_batchIter (h : .ok bs ∈ batchIter buf) : recordBatchOverhead ≤ bs.length := by
  refine batchRounds_rec (motive := fun _ items => .ok bs ∈ items → recordBatchOverhead ≤ bs.length)
    nofun ?_ ?_ le_rfl h
  · intro _ e _ _ h
    cases mem_singleton.1 h
  · intro _ k items _ _ _ ih h
    rcases mem_cons.1 h with hnew | h
    · obtain ⟨rfl, hlen, -⟩ := of_new hnew.symm
      exact hlen
    · exact ih h

/-- As many rounds as there are bytes are enough. -/
theorem batchRounds_eq (h : buf.length ≤ n) : batchRounds n buf = batchIter buf := by
  refine batchRounds_rec
    (motive := fun buf items => ∀ n, buf.length ≤ n → batchRounds n buf = items)
    ?_ ?_ ?_ le_rfl n h
  · intro n _
    cases n <;> rfl
  · intro buf e hne hlast n hn
    obtain ⟨n, rfl⟩ := Nat.exists_eq_add_one.2 ((length_pos_iff.2 hne).trans_le hn)
    exact hlast n
  · intro buf k items hk hle hgo ih n hn
    obtain ⟨n, rfl⟩ := Nat.exists_eq_add_one.2 ((hk.trans_le hle).trans_le hn)
    rw [hgo, ih n (by rw [length_drop]; omega)]

/-- One batch, and the rest. -/
theorem batchIter_cons (hb : new bs = .ok bs) (rest : List UInt8) :
    batchIter (bs ++ rest) = .ok bs :: batchIter rest := by
  obtain ⟨-, hlen, -⟩ := of_new hb
  have hdecl : batchLength bs + (lengthOffset + 4) = bs.length := by
    unfold new at hb
    split_ifs at hb with h1 h2 h3
    exact not_not.1 h3
  have hsame : batchLength (bs ++ rest) = batchLength bs := by
    unfold batchLength readI32
    rw [field_of_begins (prefix_append bs rest) (le_trans (by decide) hlen)]
  unfold recordBatchOverhead at hlen
  have hall : (bs ++ rest).length = bs.length + rest.length := length_append
  have hgo := batchRounds_taken
    (show lengthOffset + 4 ≤ (bs ++ rest).length by unfold lengthOffset; omega)
    (show 0 < bs.length by omega) (by omega) (by rw [hsame, hdecl]) (bs ++ rest).length
  rw [batchRounds_eq (Nat.le_succ _), take_left, drop_left, hb, batchRounds_eq (by omega)] at hgo
  exact hgo

/-- `BatchIter` reads a concatenation of batches back; on any bytes it
ends after at most as many items, and if all are batches they are the
bytes. -/
theorem batchIter_inverts_flatten :
    (∀ batches : List (List UInt8), (∀ b ∈ batches, new b = .ok b) →
      batchIter batches.flatten = batches.map .ok) ∧
    ∀ buf, (batchIter buf).length ≤ buf.length ∧
      (∀ n, buf.length ≤ n → batchRounds n buf = batchIter buf) ∧
      ∀ batches : List (List UInt8), batchIter buf = batches.map .ok → batches.flatten = buf := by
  refine ⟨fun batches hall => ?_, fun buf => ⟨?_, fun _ => batchRounds_eq, ?_⟩⟩
  · induction batches with
    | nil => rfl
    | cons b batches ih =>
      obtain ⟨hb, hall⟩ := forall_mem_cons.1 hall
      rw [flatten_cons, batchIter_cons hb, ih hall, map_cons]
  · refine batchRounds_rec (motive := fun buf items => items.length ≤ buf.length) le_rfl
      (fun _ _ hne _ => length_pos_iff.2 hne) ?_ le_rfl
    intro buf k items hk hle _ ih
    rw [length_drop] at ih
    rw [length_cons]
    omega
  · refine batchRounds_rec (motive := fun buf items => ∀ batches : List (List UInt8),
      items = batches.map .ok → batches.flatten = buf) ?_ ?_ ?_ le_rfl
    · intro batches h
      rw [map_eq_nil_iff.1 h.symm]
      rfl
    · intro _ e _ _ batches h
      cases batches <;> simp at h
    · intro buf k items _ _ _ ih batches h
      cases batches with
      | nil => cases h
      | cons b batches =>
        rw [map_cons, cons_eq_cons] at h
        obtain ⟨rfl, -⟩ := of_new h.1
        rw [flatten_cons, ih _ h.2, take_append_drop]

/-- Stamping keeps the attributes. -/
theorem attributes_stamp (hlen : recordBatchOverhead ≤ bs.length) :
    attributes (stamp bs base epoch) = attributes bs := by
  unfold attributes
  rw [field_stamp hlen (by decide)]

theorem isControl_stamp (hlen : recordBatchOverhead ≤ bs.length) :
    isControl (stamp bs base epoch) = isControl bs := by
  unfold isControl
  rw [attributes_stamp hlen]

variable (crc) (flags : BitVec 16) (count : ℕ) (first last pid pe : ℤ) (body : List UInt8)

theorem putBatch_length :
    recordBatchOverhead ≤ (putBatch crc flags count first last pid pe body).length := by
  simp only [putBatch, length_append, toBe_length, length_singleton, recordBatchOverhead]
  omega

/-- The attributes of a built batch. -/
theorem attributes_putBatch :
    attributes (putBatch crc flags count first last pid pe body) = flags := by
  have hfield : field (putBatch crc flags count first last pid pe body)
      attributesOffset 2 = toBe 2 flags.toNat := by
    unfold putBatch
    simp only [append_assoc]
    rfl
  unfold attributes
  rw [hfield, fromBe_toBe_of_lt flags.isLt, BitVec.ofNat_toNat, BitVec.setWidth_eq]

theorem isControl_buildBatchFull (r : NewRecord) (rest : List NewRecord) (transactional : Bool) :
    isControl (buildBatchFull crc r rest pid transactional) = false := by
  unfold isControl buildBatchFull
  rw [attributes_putBatch]
  cases transactional <;> decide

end Kafgres.Codec
