/-
The classic group coordinator (group.rs, handlers/join_sync.rs,
handlers/coordinator.rs, and the two arms of `complete_parked` that
answer parked joins and syncs), over the rows of one group.

# Parking

A join is not answered until every member has rejoined, a sync until the
leader has delivered. When a parked request is looked at again depends on
what else the loop has to do and on table locks, so here any may be at
any time (`Op.wake`), and a connection may go away with its request
(`Op.drop`).

# What is left out

The client id and host columns, which only a description reads. Times
are milliseconds, generations do not overflow.
-/
import Kafgres.Lib.Table
import Mathlib.Data.List.Sort
import Mathlib.Data.String.Basic

namespace Kafgres.ClassicGroup

-- ==== rows

inductive GroupState where
  | empty
  | preparingRebalance
  | completingRebalance
  | stable
deriving DecidableEq

/-- A row of `kafgres_groups`. -/
structure Group where
  generation : ℤ := 0
  state : GroupState := .empty
  protocolType : Option String := none
  protocolName : Option String := none
  leaderMember : Option String := none
  rebalanceDeadline : Option ℤ := none
  joinWindowUntil : Option ℤ := none

/-- A row of `kafgres_group_members`. -/
structure Member where
  memberId : String
  groupInstanceId : Option String
  sessionTimeoutMs : ℤ
  rebalanceTimeoutMs : ℤ
  metadata : List UInt8
  protocols : List String
  assignment : Option (List UInt8) := none
  joinedGeneration : ℤ
  lastHeartbeat : ℤ

abbrev Members := Table Member.memberId

/-- What the tables hold for one group id. -/
structure Db where
  group : Option Group := none
  members : Members := .empty

def clampSessionTimeout (ms : ℤ) : ℤ := max 1000 (min ms 300000)

def clampRebalanceTimeout (ms : ℤ) : ℤ :=
  if ms ≤ 0 then 60000 else min ms 300000

/-- `UPDATE kafgres_groups … WHERE group_id = $1`. -/
def Db.updateGroup (db : Db) (set : Group → Group) : Db :=
  { db with group := db.group.map set }

def Db.setMembers (db : Db) (ms : Members) : Db := { db with members := ms }

/-- `UPDATE kafgres_group_members SET assignment = NULL`. -/
def Db.clearAssignments (db : Db) : Db := db.setMembers (db.members.updateWhere (fun _ => true)
    (fun m => { m with assignment := none }) fun _ => rfl)

-- ==== join

/-- `ensure`. -/
def ensure (db : Db) : Db :=
  { db with group := some (db.group.getD {}) }

structure JoinRequest where
  groupId : String
  memberId : String
  groupInstanceId : Option String
  sessionTimeoutMs : ℤ
  rebalanceTimeoutMs : ℤ
  protocolType : String
  /-- Names with their metadata. -/
  protocols : List (String × List UInt8)

/-- The row a join writes. A member that is already there keeps its
assignment. -/
def joinMember (ms : Members) (now generation : ℤ) (memberId : String)
    (req : JoinRequest) (metadata : List UInt8) : Members :=
  let row : Member :=
    { memberId := memberId
      groupInstanceId := req.groupInstanceId
      sessionTimeoutMs := clampSessionTimeout req.sessionTimeoutMs
      rebalanceTimeoutMs := clampRebalanceTimeout req.rebalanceTimeoutMs
      metadata := metadata
      protocols := req.protocols.map Prod.fst
      joinedGeneration := generation + 1
      lastHeartbeat := now }
  ms.upsert row (fun m => { row with
    memberId := m.memberId
    assignment := m.assignment }) fun _ => rfl

/-- `join`; `delay` is `group.initial.rebalance.delay.ms`. The window
opens only when the group forms from Empty. -/
def join (db : Db) (now delay : ℤ) (memberId : String) (req : JoinRequest)
    (metadata : List UInt8) : Db :=
  let db := ensure db
  match db.group with
  | none => db
  | some g =>
    let timeout := clampRebalanceTimeout req.rebalanceTimeoutMs
    let joined := db.setMembers (joinMember db.members now g.generation memberId req metadata)
    if g.state ≠ .preparingRebalance then
      let opensWindow := delay > 0 ∧ g.state = .empty
      (joined.updateGroup fun g => { g with
        state := .preparingRebalance
        protocolType := if req.protocolType = "" then g.protocolType
          else some req.protocolType
        rebalanceDeadline := some (now + timeout)
        joinWindowUntil := if opensWindow
          then some (now + min delay timeout) else none }).clearAssignments
    else if delay > 0 then
      -- a NULL deadline is ignored by LEAST
      joined.updateGroup fun g => { g with
        joinWindowUntil := g.joinWindowUntil.map fun _ =>
          match g.rebalanceDeadline with
          | none => now + delay
          | some deadline => min (now + delay) deadline }
    else joined

/-- `join_window_closed`. -/
def joinWindowClosed (db : Db) (now : ℤ) : Bool :=
  match db.group with
  | none => true
  | some g =>
    (db.members.rows.all (fun m => decide (g.generation < m.joinedGeneration))
      && (match g.joinWindowUntil with
        | none => true
        | some t => decide (t ≤ now)))
    || (match g.rebalanceDeadline with
      | none => false
      | some deadline => decide (deadline < now))

/-- The first protocol of the first member that all others have too. -/
def commonProtocol : List (List String) → Option String
  | [] => none
  | p :: ps => (ps.foldl (fun acc q => acc.filter fun x => x ∈ q) p).head?

/-- `members`, in the order of their ids. -/
def byId (ms : Members) : List Member := ms.rows.insertionSort fun a b => a.memberId ≤ b.memberId

/-- `complete_join`. The flag is `NoCommonProtocol`, which leaves the
group as it is, less the members that did not rejoin. -/
def completeJoin (db : Db) : Db × Bool :=
  match db.group with
  | none => (db, false)
  | some g =>
    let db := db.setMembers (db.members.delete fun m =>
      decide (m.joinedGeneration ≤ g.generation))
    match byId db.members with
    | [] =>
      (db.updateGroup fun g => { g with
        state := .empty
        leaderMember := none
        protocolName := none
        generation := g.generation + 1
        rebalanceDeadline := none
        joinWindowUntil := none }, false)
    | leader :: rest =>
      match commonProtocol ((leader :: rest).map (·.protocols)) with
      | none => (db, true)
      | some protocol =>
        (db.updateGroup fun g => { g with
          generation := g.generation + 1
          state := .completingRebalance
          protocolName := some protocol
          leaderMember := some leader.memberId
          rebalanceDeadline := none
          joinWindowUntil := none }, false)

-- ==== leave and sweep

/-- `open_rebalance`. -/
def openRebalance (db : Db) (now : ℤ) : Db :=
  let timeout := match (db.members.rows.map (·.rebalanceTimeoutMs)).max? with
    | none => 60000
    | some ms => ms
  (db.updateGroup fun g => { g with
    state := if db.members.rows = [] then .empty else .preparingRebalance
    rebalanceDeadline := some (now + timeout)
    joinWindowUntil := none }).clearAssignments

/-- `leave`, and whether a member was removed. -/
def leave (db : Db) (now : ℤ) (memberId : String) : Db × Bool :=
  if memberId ∈ db.members.keys then
    (openRebalance (db.setMembers (db.members.delete fun m =>
      decide (m.memberId = memberId))) now, true)
  else (db, false)

/-- `touch_heartbeat`. -/
def touchHeartbeat (db : Db) (now : ℤ) (memberId : String) : Db :=
  db.setMembers (db.members.updateWhere (fun m => decide (m.memberId = memberId))
    (fun m => { m with lastHeartbeat := now }) fun _ => rfl)

/-- The member sent nothing for its session timeout. -/
def Member.dead (m : Member) (now : ℤ) : Bool :=
  decide (m.lastHeartbeat < now - m.sessionTimeoutMs)

/-- `touch_parked`, then `sweep`. -/
def sweep (db : Db) (now : ℤ) (awaiting : List String) : Db :=
  let db := awaiting.foldl (fun db id => touchHeartbeat db now id) db
  if db.members.rows.any (·.dead now) then
    openRebalance (db.setMembers (db.members.delete (·.dead now))) now
  else db

-- ==== responses

inductive ErrorCode where
  | none
  | groupAuthorizationFailed
  | invalidGroupId
  | memberIdRequired
  | inconsistentGroupProtocol
  | unknownMemberId
  | illegalGeneration
  | rebalanceInProgress
deriving DecidableEq

structure JoinResponse where
  errorCode : ErrorCode
  generationId : ℤ := -1
  protocolType : String := ""
  protocolName : String := ""
  leader : String := ""
  memberId : String
  members : List (String × Option String × List UInt8) := []

def errorJoin (code : ErrorCode) (memberId : String) : JoinResponse :=
  { errorCode := code, memberId := memberId }

/-- `join_response`: the members are told to the leader only. -/
def joinResponse (db : Db) (memberId : String) : JoinResponse :=
  match db.group with
  | none => errorJoin .unknownMemberId memberId
  | some g =>
    if memberId ∉ db.members.keys then errorJoin .unknownMemberId memberId
    else
      { errorCode := .none
        generationId := g.generation
        protocolType := g.protocolType.getD ""
        protocolName := g.protocolName.getD ""
        leader := g.leaderMember.getD ""
        memberId := memberId
        members := if g.leaderMember = some memberId then
          (byId db.members).map fun m =>
            (m.memberId, m.groupInstanceId, m.metadata)
          else [] }

structure SyncRequest where
  memberId : String
  generationId : ℤ
  assignments : List (String × List UInt8)

structure SyncResponse where
  errorCode : ErrorCode
  protocolType : String := ""
  protocolName : String := ""
  assignment : List UInt8 := []

def errorSync (code : ErrorCode) : SyncResponse := { errorCode := code }

-- ==== sync

/-- The entry of a member in an assignment list: the last one written,
empty if it has none. -/
def entry (assignments : List (String × List UInt8)) (memberId : String) : Option (List UInt8) :=
  ((assignments.filter fun a => a.1 = memberId).getLast?).map Prod.snd

/-- The statements of `apply_assignments` on one row. -/
def assignOne (assignments : List (String × List UInt8)) (m : Member) : Member :=
  { m with assignment := some (match entry assignments m.memberId with
      | some bytes => bytes
      | none => m.assignment.getD []) }

/-- `apply_assignments`. -/
def applyAssignments (db : Db) (assignments : List (String × List UInt8)) : Db :=
  (db.setMembers (db.members.updateWhere (fun _ => true)
    (assignOne assignments) fun _ => rfl)).updateGroup fun g => { g with state := .stable }

/-- `sync_response`: nothing while the leader has not delivered. -/
def syncResponse (db : Db) (memberId : String) : Option SyncResponse :=
  match db.group with
  | none => some (errorSync .unknownMemberId)
  | some g =>
    match db.members.find? memberId with
    | none => some (errorSync .unknownMemberId)
    | some m =>
      if g.state = .preparingRebalance then
        some (errorSync .rebalanceInProgress)
      else m.assignment.map fun bytes =>
        { errorCode := .none
          protocolType := g.protocolType.getD ""
          protocolName := g.protocolName.getD ""
          assignment := bytes }

/-- Why a sync is refused, if it is. -/
def syncRefused (db : Db) (authorized : Bool) (req : SyncRequest) : Option ErrorCode :=
  if !authorized then some .groupAuthorizationFailed
  else match db.group with
    | none => some .unknownMemberId
    | some g =>
      if req.memberId ∉ db.members.keys then some .unknownMemberId
      else if req.generationId ≠ g.generation then some .illegalGeneration
      else if g.state = .preparingRebalance then some .rebalanceInProgress
      else none

/-- The sync is the leader's and brings assignments. -/
def supplies (db : Db) (req : SyncRequest) : Bool :=
  decide ((db.group.bind (·.leaderMember)) = some req.memberId) && !req.assignments.isEmpty

/-- `sync_group`; no response is one that parks. -/
def syncGroup (db : Db) (authorized : Bool) (req : SyncRequest) : Db × Option SyncResponse :=
  match syncRefused db authorized req with
  | some code => (db, some (errorSync code))
  | none =>
    let db := if supplies db req then applyAssignments db req.assignments
      else db
    (db, syncResponse db req.memberId)

-- ==== the others

/-- `join_group`: a response, or the member id to park under. -/
def joinGroup (db : Db) (authorized : Bool) (version : ℕ) (now delay : ℤ)
    (newMemberId : String) (req : JoinRequest) : Db × (JoinResponse ⊕ String) :=
  if !authorized then
    (db, .inl (errorJoin .groupAuthorizationFailed req.memberId))
  else if req.groupId = "" then (db, .inl (errorJoin .invalidGroupId ""))
  else if req.memberId = "" ∧ version ≥ 4 then
    (db, .inl { errorJoin .memberIdRequired newMemberId with
      protocolType := req.protocolType })
  else
    let memberId := if req.memberId = "" then newMemberId else req.memberId
    let conflicts := match db.group.bind (·.protocolType) with
      | none => false
      | some t => decide (t ≠ "" ∧ t ≠ req.protocolType)
    match req.protocols with
    | [] => (db, .inl (errorJoin .inconsistentGroupProtocol memberId))
    | (_, metadata) :: _ =>
      if conflicts then
        (db, .inl (errorJoin .inconsistentGroupProtocol memberId))
      else (join db now delay memberId req metadata, .inr memberId)

/-- `heartbeat_code`: member, then generation, then state. -/
def heartbeatCode (db : Db) (now : ℤ) (memberId : String) (generationId : ℤ) : Db × ErrorCode :=
  match db.group with
  | none => (db, .unknownMemberId)
  | some g =>
    if memberId ∉ db.members.keys then (db, .unknownMemberId)
    else if generationId ≠ g.generation then (db, .illegalGeneration)
    else
      (touchHeartbeat db now memberId, match g.state with
        | .preparingRebalance => .rebalanceInProgress
        | .completingRebalance => .rebalanceInProgress
        | .empty => .unknownMemberId
        | .stable => .none)

/-- `leave_group`: one member after the other. -/
def leaveGroup (db : Db) (now : ℤ) : List String → Db × List ErrorCode
  | [] => (db, [])
  | id :: ids =>
    let r := leave db now id
    let rest := leaveGroup r.1 now ids
    (rest.1, (if r.2 then .none else .unknownMemberId) :: rest.2)

/-- The join arm of `complete_parked`; no response stays parked. -/
def lookJoin (db : Db) (now : ℤ) (expired : Bool) (memberId : String) : Db × Option JoinResponse :=
  let preparing := fun db : Db =>
    db.group.any fun g => g.state = .preparingRebalance
  let done := if preparing db && (expired || joinWindowClosed db now)
    then completeJoin db else (db, false)
  if done.2 then
    (done.1, some (errorJoin .inconsistentGroupProtocol memberId))
  else if done.1.group.isNone || preparing done.1 then (done.1, none)
  else (done.1, some (joinResponse done.1 memberId))

/-- Its sync arm. -/
def lookSync (db : Db) (expired : Bool) (memberId : String) : Option SyncResponse :=
  match syncResponse db memberId with
  | some resp => some resp
  | none => if expired then some (errorSync .rebalanceInProgress) else none

-- ==== the runs

/-- A parked request. The server does not keep the generation a sync
was asked for; it is noted here to say which one an answer belongs
to. -/
inductive Parked where
  | join (memberId : String)
  | sync (memberId : String) (generation : ℤ)

def Parked.memberId : Parked → String
  | .join id => id
  | .sync id _ => id

inductive Op where
  | join (authorized : Bool) (version : ℕ) (now delay : ℤ)
      (newMemberId : String) (full : Bool) (req : JoinRequest)
  | sync (authorized full : Bool) (req : SyncRequest)
  | heartbeat (now : ℤ) (memberId : String) (generationId : ℤ)
  | leave (now : ℤ) (memberIds : List String)
  | sweep (now : ℤ)
  | wake (index : ℕ) (now : ℤ) (expired : Bool)
  | drop (index : ℕ)

/-- A sync that succeeded: the generation it was for, and what the member
was assigned. -/
structure Answer where
  generation : ℤ
  memberId : String
  assignment : List UInt8
deriving DecidableEq

/-- A group, its parked requests, the syncs that succeeded, and the lists
that leaders supplied with their generations. -/
structure System where
  db : Db := {}
  parked : List Parked := []
  answered : List Answer := []
  supplied : List (ℤ × List (String × List UInt8)) := []

/-- A response to a sync for a generation is sent. -/
def System.answer (s : System) (generation : ℤ) (memberId : String)
    (resp : SyncResponse) : System :=
  if resp.errorCode = .none then
    { s with answered := s.answered ++ [⟨generation, memberId, resp.assignment⟩] }
  else s

def System.park (s : System) (full : Bool) (p : Parked) : System :=
  if full then s else { s with parked := s.parked ++ [p] }

def System.sync (s : System) (authorized full : Bool) (req : SyncRequest) : System :=
  let r := syncGroup s.db authorized req
  let accepted := (syncRefused s.db authorized req).isNone && supplies s.db req
  let s' : System := { s with
    db := r.1
    supplied := if accepted
      then s.supplied ++ [(req.generationId, req.assignments)]
      else s.supplied }
  match r.2 with
  | some resp => s'.answer req.generationId req.memberId resp
  | none => s'.park full (.sync req.memberId req.generationId)

def System.wake (s : System) (index : ℕ) (now : ℤ) (expired : Bool) : System :=
  match s.parked[index]? with
  | none => s
  | some (.join id) =>
    let r := lookJoin s.db now expired id
    { s with
      db := r.1
      parked := if r.2.isSome then s.parked.eraseIdx index else s.parked }
  | some (.sync id generation) =>
    match lookSync s.db expired id with
    | none => s
    | some resp =>
      System.answer { s with parked := s.parked.eraseIdx index } generation id resp

def System.step (s : System) : Op → System
  | .join authorized version now delay newMemberId full req =>
    let r := joinGroup s.db authorized version now delay newMemberId req
    match r.2 with
    | .inl _ => { s with db := r.1 }
    | .inr id => System.park { s with db := r.1 } full (.join id)
  | .sync authorized full req => s.sync authorized full req
  | .heartbeat now memberId generationId =>
    { s with db := (heartbeatCode s.db now memberId generationId).1 }
  | .leave now ids => { s with db := (leaveGroup s.db now ids).1 }
  | .sweep now =>
    { s with db := sweep s.db now (s.parked.map (·.memberId)) }
  | .wake index now expired => s.wake index now expired
  | .drop index => { s with parked := s.parked.eraseIdx index }

-- ==== generations

/-- Once a rebalance is past its joins, the leader is a member and every
member joined this generation. -/
def Db.Generational (db : Db) : Prop := ∀ g, db.group = some g →
    g.state = .completingRebalance ∨ g.state = .stable →
    (∃ leader ∈ db.members.rows, g.leaderMember = some leader.memberId) ∧
    ∀ m ∈ db.members.rows, m.joinedGeneration = g.generation

/-- What a list assigns a member. -/
def assigned (assignments : List (String × List UInt8)) (memberId : String) : List UInt8 :=
  (entry assignments memberId).getD []

/-- The syncs that succeeded for one generation were answered from one
list, which the leader of that generation supplied. -/
def System.OneList (s : System) : Prop :=
  ∀ generation, (∃ a ∈ s.answered, a.generation = generation) →
    ∃ list, (generation, list) ∈ s.supplied ∧ ∀ a ∈ s.answered, a.generation = generation →
        a.assignment = assigned list a.memberId

end Kafgres.ClassicGroup
