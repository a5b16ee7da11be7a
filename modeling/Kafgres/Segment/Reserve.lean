/-
An append inside an open SQL transaction (storage/segment.rs,
`append_pending_impl`): an append that also reserves the LSO at its base
offset, under the same lock.
-/
import Kafgres.Segment.Write

namespace Kafgres.Segment

open Storage

/-- The refusal of a partition whose reservation ring has no room. -/
def ringFull (k : Key) (len cap : ℕ) : StoreError :=
  .io ("the reservation ring of topic " ++ toString k.topic
    ++ " partition " ++ toString k.partition ++ " is full ("
    ++ toString len ++ " of " ++ toString cap
    ++ " entries; its size is MaxBackends at startup)")

/-- Append `batch` for an uncommitted transaction. `reserve` holds the
LSO at its base until `release_pending`. The first and last offset of
the batch, or an error; a full ring is refused before the append, so no
record is left unreserved. -/
def appendPending (crc : List UInt8 → ℕ) (defaultBytes : ℕ) (k : Key)
    (w : Writer) (ring : Cells) (a : AppendArgs) (reserve : Bool)
    (io : WriteIo) : (Writer × Cells) × StoreResult (ℤ × ℤ) :=
  let e := w.enterAppend a
  match e.2 with
  | .error err => ((e.1, ring), .error err)
  | .ok epoch =>
    let base := e.1.slot.nextOffset
    let last := base + a.batch.lastOffsetDelta
    if reserve ∧ e.1.slot.pending.len ≥ ring.cap then
      ((e.1, ring), .error (ringFull k e.1.slot.pending.len ring.cap))
    else
      let r := writeBatch crc defaultBytes e.1 a.batch epoch base io
      match r.2 with
      | .error err => ((r.1, ring), .error err)
      | .ok () =>
        if reserve then
          let p := r.1.slot.pending.reserve ring base
          (({ r.1 with slot := { r.1.slot with pending := p.1 } }, p.2.1), .ok (base, last))
        else ((r.1, ring), .ok (base, last))

/-- The Last Stable Offset: the first offset a `read_committed` consumer
must not pass. `kafka` is the lowest open Kafka transaction, which the
metadata tables answer. -/
def lastStableOffset (pending : ℤ) (kafka : Option ℤ) : ℤ :=
  match kafka with
  | some offset => if offset ≥ 0 then min pending offset else pending
  | none => pending

end Kafgres.Segment
