/-
The storage boundary's shared vocabulary (storage/mod.rs): partition
keys and the errors every engine answers with.
-/
import Mathlib.Data.Nat.Notation

namespace Kafgres.Storage

/-- A partition as the storage layer names it. `topic` is drawn from
`kafgres_topic_id_seq`, which starts at 1; zero is what an empty slot
carries, so the field says it is never a topic's id. -/
structure Key where
  topic : UInt32
  partition : Int32
  topic_ne_zero : topic ≠ 0
deriving DecidableEq

theorem Key.one_ne_zero : (1 : UInt32) ≠ 0 := by decide

/-- Storage errors; each maps to a Kafka error code. -/
inductive StoreError where
  | unknownTopicOrPartition
  | offsetOutOfRange
  | corruptBatch
  | invalidFetchSize
  | leaderEpochUnsettled
  | io (message : String)
  | notImplemented (what : String)
deriving DecidableEq, Repr

/-- `StoreResult<T>`. -/
abbrev StoreResult (α : Type) := Except StoreError α

end Kafgres.Storage
