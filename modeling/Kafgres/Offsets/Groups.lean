/-
Who may commit for a group (handlers/offsets.rs, `validate_commit`).

A group id can be known to any of four tables, and the first that knows
it decides: a share group takes no offsets, a KIP-848 group asks for a
member at its epoch, a classic group for a member of its generation. A
group known only by its offsets is an empty classic one.
-/
import Kafgres.ClassicGroup.Coordinator
import Kafgres.Codec.ErrorCode
import Kafgres.ConsumerGroup.Heartbeat
import Kafgres.Meta.Topics
import Kafgres.Txn.Coordinator

namespace Kafgres.Offsets

open Storage Meta Codec
open Txn (OffsetKey OffsetCommit Staged)
open ClassicGroup (GroupState)
open ConsumerGroup (TopicPartition)

/-- What the group tables hold under one id. -/
structure GroupTables where
  /-- There is a row in `kafgres_share_groups`. -/
  share : Bool := false
  consumer : ConsumerGroup.Group := .none
  classic : ClassicGroup.Db := {}

structure Db where
  topics : Topics
  /-- `kafgres_offsets`. -/
  offsets : List Staged
  groups : String → GroupTables
  /-- The rows of `kafgres_txn_offsets` whose transaction is open. -/
  unstable : List OffsetKey

structure Committer where
  groupId : String
  generation : ℤ
  memberId : String
  instanceId : Option String

inductive GroupVerdict where
  | accept
  | refuse (code : ErrorCode)
  /-- A KIP-848 member behind its epoch may commit what it holds. -/
  | heldOnly (held : Finset TopicPartition)

/-- `code_for`. -/
def GroupVerdict.codeFor (k : Key) : GroupVerdict → ErrorCode
  | .accept => .none
  | .refuse code => code
  | .heldOnly held =>
    if (k.topic.toNat, k.partition.toInt) ∈ held then .none
    else .staleMemberEpoch

/-- `OFFSET_COMMIT_GROUP_AWARE_FROM`. -/
def groupAwareFrom : ℤ := 9

/-- The check of a static member: the one under the instance id is the
committer. -/
def instanceCode (c : Committer) (members : List ClassicGroup.Member) : Option ErrorCode :=
  match c.instanceId with
  | none => none
  | some i =>
    match members.find? fun m => m.groupInstanceId = some i with
    | none => some .unknownMemberId
    | some m =>
      if m.memberId ≠ c.memberId then some .fencedInstanceId else none

/-- `validate_classic`. -/
def validateClassic (c : Committer) (transactional : Bool) (state : GroupState) (generation : ℤ)
    (members : List ClassicGroup.Member) : GroupVerdict :=
  let late : GroupVerdict :=
    if transactional = false ∧ state = .completingRebalance then
      .refuse .rebalanceInProgress
    else .accept
  if c.generation < 0 ∧ state = .empty then .accept
  else if c.generation ≥ 0 ∨ c.memberId ≠ "" ∨ c.instanceId.isSome then
    match instanceCode c members with
    | some code => .refuse code
    | none =>
      if members.all fun m => m.memberId ≠ c.memberId then
        .refuse .unknownMemberId
      else if c.generation ≠ generation then .refuse .illegalGeneration
      else late
  else if transactional = false ∧ state ≠ .empty then
    .refuse .unknownMemberId
  else late

/-- `validate_consumer_group`. -/
def validateConsumerGroup (g : ConsumerGroup.Group) (c : Committer)
    (transactional : Bool) (version : ℤ) : GroupVerdict :=
  if c.generation < 0 ∧ g.members.rows = [] then .accept
  else if transactional = true ∧ c.generation = -1 ∧ c.memberId = "" ∧
      c.instanceId = none then .accept
  else match g.members.find? c.memberId with
  | none => .refuse .unknownMemberId
  | some m =>
    if transactional = false ∧ version < groupAwareFrom then
      .refuse .unsupportedVersion
    else if c.generation = m.epoch then .accept
    else if c.generation > m.epoch then .refuse .staleMemberEpoch
    else .heldOnly (m.owned ∪ m.granted)

/-- `touch_heartbeat`. -/
def GroupTables.touch (g : GroupTables) (member : String) (now : ℤ) : GroupTables :=
  { g with classic := ClassicGroup.touchHeartbeat g.classic now member }

namespace Db

/-- The group has a committed offset. -/
def known (db : Db) (group : String) : Bool := db.offsets.any fun r => r.1.group = group

def setGroup (db : Db) (group : String) (g : GroupTables) : Db :=
  { db with groups := Function.update db.groups group g }

end Db

/-- `validate_commit`. An accepted commit keeps the session of a classic
member alive. -/
def validateCommit (db : Db) (c : Committer) (transactional : Bool)
    (version now : ℤ) : Db × GroupVerdict :=
  let g := db.groups c.groupId
  if g.share then (db, .refuse .groupIdNotFound)
  else if g.consumer.row.isSome then
    (db, validateConsumerGroup g.consumer c transactional version)
  else match g.classic.group with
  | some row =>
    let v := validateClassic c transactional row.state row.generation g.classic.members.rows
    match v with
    | .accept =>
      if transactional = false ∧ (row.state = .stable ∨ row.state = .preparingRebalance) then
        (db.setGroup c.groupId (g.touch c.memberId now), v)
      else (db, v)
    | _ => (db, v)
  | none =>
    if db.known c.groupId then
      (db, validateClassic c transactional .empty 0 [])
    else if c.generation < 0 then (db, .accept)
    else if transactional = false ∧ version ≥ groupAwareFrom then
      (db, .refuse .groupIdNotFound)
    else (db, .refuse .illegalGeneration)

end Kafgres.Offsets
