/-
What an append inside a SQL transaction does to the reservation ring
and the log end.
-/
import Kafgres.Segment.Proofs.Write
import Kafgres.Segment.Reserve
import Kafgres.Storage.Proofs.Pending

namespace Kafgres.Segment

open Storage

theorem readied_frame (defaultBytes : ℕ) (w : Writer) (data : List UInt8) (base now : ℤ) :
    SameTenure w.slot (w.readied defaultBytes data base now).slot ∧
      (w.readied defaultBytes data base now).slot.nextOffset = w.slot.nextOffset := by
  unfold Writer.readied
  split_ifs
  · exact ⟨⟨rfl, rfl, rfl, rfl⟩, rfl⟩
  · exact ⟨.refl _, rfl⟩

/-- An append leaves the reservations alone. It moves the log end past
its batch and answers the old one, or fails and moves nothing. -/
theorem append_frame (crc : List UInt8 → ℕ) (defaultBytes : ℕ) (w : Writer)
    (a : AppendArgs) (io : WriteIo) :
    let r := append crc defaultBytes w a io
    SameTenure w.slot r.1.slot ∧
      (((∃ e, r.2 = .error e) ∧ r.1.slot.nextOffset = w.slot.nextOffset) ∨
        (r.2 = .ok w.slot.nextOffset ∧ r.1.slot.nextOffset
          = w.slot.nextOffset + a.batch.lastOffsetDelta + 1)) := by
  intro r
  obtain ⟨hten, hext, -⟩ := enterAppend_frame w a
  obtain ⟨hten₂, hnext₂⟩ := readied_frame defaultBytes (w.enterAppend a).1
    (a.stored w.slot.nextOffset) w.slot.nextOffset io.now
  obtain ⟨hten₃, hplace⟩ := place_cases
    ((w.enterAppend a).1.readied defaultBytes (a.stored w.slot.nextOffset)
      w.slot.nextOffset io.now) (a.stored w.slot.nextOffset)
    w.slot.nextOffset io
  have hall := (hten.trans hten₂).trans hten₃
  rcases append_cases crc defaultBytes w a io with
    ⟨hr, he, -⟩ | ⟨-, -, ⟨hp, hr⟩ | ⟨hp, hr⟩⟩
  · rw [show r.1 = _ from hr]
    exact ⟨hten, .inl ⟨he, hext.nextOffset⟩⟩
  · rw [show r = _ from hr]
    refine ⟨hall, .inl ⟨⟨_, rfl⟩, ?_⟩⟩
    rcases hplace with ⟨-, hsame, -⟩ | ⟨hok, -⟩
    · rw [hsame.nextOffset, hnext₂, hext.nextOffset]
    · simp [hp] at hok
  · rw [show r = _ from hr]
    exact ⟨{ hall with }, .inr ⟨rfl, rfl⟩⟩

/-- The transactional append is the plain one, a refusal before it and a
reservation after it. -/
theorem appendPending_eq (crc : List UInt8 → ℕ) (defaultBytes : ℕ)
    (k : Key) (w : Writer) (ring : Cells) (a : AppendArgs) (reserve : Bool) (io : WriteIo) :
    (∃ e, appendPending crc defaultBytes k w ring a reserve io
        = (((w.enterAppend a).1, ring), .error e)) ∨
      (reserve = true → w.slot.pending.len < ring.cap) ∧
      appendPending crc defaultBytes k w ring a reserve io = let r := append crc defaultBytes w a io
          match r.2 with
          | .error err => ((r.1, ring), .error err)
          | .ok base =>
            let answer := .ok (base, base + a.batch.lastOffsetDelta)
            if reserve then
              let p := r.1.slot.pending.reserve ring base
              (({ r.1 with slot := { r.1.slot with pending := p.1 } }, p.2.1), answer)
            else ((r.1, ring), answer) := by
  obtain ⟨hten, -⟩ := enterAppend_frame w a
  cases hepoch : (w.enterAppend a).2 with
  | error e =>
    refine .inl ⟨e, ?_⟩
    simp only [appendPending, hepoch]
  | ok epoch =>
    by_cases hfull : reserve = true ∧ w.slot.pending.len ≥ ring.cap
    · refine .inl ⟨ringFull k w.slot.pending.len ring.cap, ?_⟩
      simp only [appendPending, hepoch, hten.pending, if_pos hfull]
    refine .inr ⟨fun hr => by_contra fun hge =>
      hfull ⟨hr, not_lt.1 hge⟩, ?_⟩
    simp only [appendPending, append, hepoch, hten.pending, if_neg hfull]
    cases (writeBatch crc defaultBytes (w.enterAppend a).1 a.batch epoch
      (w.enterAppend a).1.slot.nextOffset io).2 with
    | error | ok => rfl

/-- The reservations after a transactional append: the new base joins
them if it was to be reserved, and a failure changes nothing. -/
theorem appendPending_cases (crc : List UInt8 → ℕ) (defaultBytes : ℕ)
    (k : Key) {w : Writer} {ring : Cells} (a : AppendArgs)
    (reserve : Bool) (io : WriteIo) {l : List ℤ} (h : Holds w.slot.pending ring l) :
    let o := appendPending crc defaultBytes k w ring a reserve io
    ((∃ e, o.2 = .error e) ∧ Holds o.1.1.slot.pending o.1.2 l ∧
        o.1.1.slot.nextOffset = w.slot.nextOffset) ∨
      (∃ last, o.2 = .ok (w.slot.nextOffset, last)) ∧ w.slot.nextOffset < o.1.1.slot.nextOffset ∧
        Holds o.1.1.slot.pending o.1.2 (if reserve then
          l.orderedInsert (· ≤ ·) w.slot.nextOffset else l) := by
  intro o
  have hdelta := a.batch.delta_nonneg
  obtain ⟨hten, hend⟩ := append_frame crc defaultBytes w a io
  rcases appendPending_eq crc defaultBytes k w ring a reserve io with
    ⟨e, ho⟩ | ⟨hroom, ho⟩
  · obtain ⟨hten₁, hext, -⟩ := enterAppend_frame w a
    rw [show o = _ from ho]
    refine .inl ⟨⟨e, rfl⟩, ?_, hext.nextOffset⟩
    rw [hten₁.pending]
    exact h
  · rcases hend with ⟨⟨e, herr⟩, hnext⟩ | ⟨hok, hnext⟩
    · rw [show o = _ from ho]
      simp only [herr]
      refine .inl ⟨⟨e, rfl⟩, ?_, hnext⟩
      rw [hten.pending]
      exact h
    · rw [show o = _ from ho]
      simp only [hok]
      cases reserve with
      | false =>
        refine .inr ⟨⟨_, rfl⟩, ?_, ?_⟩
        · show _ < (append crc defaultBytes w a io).1.slot.nextOffset
          omega
        · simp only [Bool.false_eq_true, if_false]
          rw [hten.pending]
          exact h
      | true =>
        refine .inr ⟨⟨_, rfl⟩, ?_, ?_⟩
        · show _ < (append crc defaultBytes w a io).1.slot.nextOffset
          omega
        · simp only [if_true, hten.pending]
          exact (reserve_holds h _).2.2.1 (h.len ▸ hroom rfl)

end Kafgres.Segment
