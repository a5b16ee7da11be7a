/-
The KIP-848 consumer group coordinator (handlers/consumer_group.rs):
`heartbeat`, `reconcile`, the `uniform` assignor and the session sweep,
over the rows of one group.

# State

`Group` is the row of `kafgres_consumer_groups` and the rows of
`kafgres_consumer_group_members` of one group id. A `topic_id:partition`
text is the pair; the arrays of such texts are only ever read as sets.
Times are milliseconds.

# What a request sees

`Env` is what the handler reads outside these tables when the request
runs. It is given with each request, so topics and rights change freely
between requests. A request runs in one transaction of the broker's only
worker: `.error` is a rolled-back one, and a refusal that is answered
commits what was written before it.
-/
import Kafgres.Lib.Table
import Mathlib.Algebra.GroupWithZero.Nat
import Mathlib.Data.Finset.Sort
import Mathlib.Data.String.Basic

namespace Kafgres.ConsumerGroup

-- ==== topics

abbrev Uuid := BitVec 128

/-- A partition: the topic's oid and the number. -/
abbrev TopicPartition := ℕ × ℤ

structure Topic where
  id : ℕ
  uuid : Uuid
  name : String
  partitions : List ℤ

/-- `kafgres_topics` with `kafgres_partitions`, by oid, under their
keys. -/
structure Topics where
  rows : List Topic
  ids : rows.Pairwise fun t u => t.id < u.id
  uuids : (rows.map (·.uuid)).Nodup
  names : (rows.map (·.name)).Nodup
  partitions : ∀ t ∈ rows, t.partitions.Nodup

namespace Topics

def idOfUuid (ts : Topics) (u : Uuid) : Option ℕ := (ts.rows.find? fun t => t.uuid = u).map (·.id)

def idOfName (ts : Topics) (name : String) : Option ℕ :=
  (ts.rows.find? fun t => t.name = name).map (·.id)

/-- `load_topics` with a filter. -/
def named (ts : Topics) (names : List String) : List Topic := ts.rows.filter fun t => t.name ∈ names

/-- The partitions a wire list names. A uuid that resolves to nothing is
a topic deleted under the member, and is dropped. -/
def resolve (ts : Topics) (tps : List (Uuid × List ℤ)) : Finset TopicPartition :=
  (tps.flatMap fun e => match ts.idOfUuid e.1 with
    | none => []
    | some id => e.2.map fun p => (id, p)).toFinset

/-- `to_wire`: partitions by topic, less those of a topic dropped since
they were stored. -/
def toWire (ts : Topics) (tps : Finset TopicPartition) : List (Uuid × List ℤ) :=
  ts.rows.filterMap fun t =>
    let ps := ((tps.filter fun x => x.1 = t.id).image Prod.snd).sort (· ≤ ·)
    if ps = [] then none else some (t.uuid, ps)

end Topics

-- ==== members

structure Member where
  memberId : String
  epoch : ℤ := 0
  instanceId : Option String := none
  rebalanceTimeoutMs : ℤ := 300000
  subscribed : List String := []
  owned : Finset TopicPartition := ∅
  granted : Finset TopicPartition := ∅
  target : Finset TopicPartition := ∅
  regex : Option String := none
  matched : List String := []
  revokingSince : Option ℤ := none
  staticDeparted : Bool := false
  lastSeen : ℤ

/-- Named topics and the regex's matches together. -/
def Member.wants (m : Member) : List String := m.subscribed ++ m.matched

/-- Still holding a partition it was told to release, past its own
`rebalance.timeout.ms`. -/
def Member.revokeExpired (m : Member) (now : ℤ) : Bool :=
  match m.revokingSince with
  | none => false
  | some since => since < now - max m.rebalanceTimeoutMs 1000

/-- The member rows of a group, under their primary key. -/
abbrev Members := Table Member.memberId

/-- `UPDATE … SET … WHERE member_id = id`. -/
def Members.updateOne (ms : Members) (id : String) (set : Member → Member)
    (same : ∀ m, (set m).memberId = m.memberId) : Members :=
  ms.updateWhere (fun m => m.memberId = id) set same

structure GroupRow where
  groupEpoch : ℤ := 0
  assignmentEpoch : ℤ := 0
  updatedAt : ℤ

structure Group where
  row : Option GroupRow
  members : Members

/-- A group id nobody has used. -/
def Group.none : Group := ⟨Option.none, .empty⟩

/-- `bump_epoch`. -/
def Group.bumpEpoch (g : Group) (now : ℤ) : Group :=
  { g with row := g.row.map fun r =>
      { r with groupEpoch := r.groupEpoch + 1, updatedAt := now } }

-- ==== requests

inductive ErrorCode where
  | none
  | groupAuthorizationFailed
  | topicAuthorizationFailed
  | groupIdNotFound
  | unsupportedAssignor
  | unknownMemberId
  | invalidRequest
  | unreleasedInstanceId
  | fencedMemberEpoch
  | groupMaxSizeReached
  | invalidRegularExpression
deriving DecidableEq

/-- What rolls the request's transaction back. -/
inductive HandlerError where
  | tooLarge (what : String) (n : ℕ)
  | internal

structure Request where
  memberId : String
  memberEpoch : ℤ
  instanceId : Option String
  rebalanceTimeoutMs : ℤ
  subscribedTopicNames : Option (List String)
  subscribedTopicRegex : Option String
  serverAssignor : Option String
  /-- Null means "unchanged", not "nothing". -/
  topicPartitions : Option (List (Uuid × List ℤ))

structure Env where
  topics : Topics
  readGroup : Bool
  readTopic : String → Bool
  /-- Another protocol has a group of this id. -/
  otherProtocol : Bool
  now : ℤ
  /-- What `uuid_like` would return. -/
  uuidLike : String
  /-- `regex_topics`; `none` if the pattern does not compile. -/
  regexTopics : String → Option (List String)

structure Response where
  errorCode : ErrorCode := .none
  errorMessage : Option String := none
  memberId : Option String := none
  memberEpoch : ℤ := 0
  heartbeatIntervalMs : ℤ := 0
  assignment : Option (List (Uuid × List ℤ)) := none

def errHb (code : ErrorCode) (msg : String) : Response :=
  { errorCode := code, errorMessage := some msg }

def heartbeatIntervalMs : ℤ := 5000
def sessionTimeoutMs : ℤ := 45000
def assignor : String := "uniform"
def maxSubscribedTopics : ℕ := 5000
def maxOwnedPartitions : ℕ := 50000
def maxGroupSize : ℕ := 1000
def reassignIntervalMs : ℤ := 30000

-- ==== the target

/-- Who gets each partition: topic by topic, partition `i` of it goes to
the `i`-th member that wants the topic, round and round. -/
def slots (members : List (String × Finset ℕ)) (partitionsOf : List Topic) :
    List (TopicPartition × String) :=
  partitionsOf.flatMap fun t =>
    let interested := (members.filter fun m => t.id ∈ m.2).map Prod.fst
    t.partitions.zipIdx.filterMap fun pi =>
      (interested[pi.2 % interested.length]?).map fun who =>
        ((t.id, pi.1), who)

/-- `assign`. The order of the topics is not seen in the sets. -/
def assign (members : List (String × Finset ℕ)) (partitionsOf : List Topic)
    (who : String) : Finset TopicPartition :=
  (((slots members partitionsOf).filter fun s => s.2 = who).map Prod.fst).toFinset

/-- What `recompute_target` hands the assignor: members in the order of
their ids, each with the oids of the topics it wants. -/
def byOid (ts : Topics) (ms : List Member) : List (String × Finset ℕ) :=
  (ms.map fun m => (m.memberId, (m.wants.filterMap ts.idOfName).toFinset))
    |>.insertionSort fun a b => a.1 ≤ b.1

/-- The target `recompute_target` stores. -/
def targetOf (ts : Topics) (ms : List Member) : String → Finset TopicPartition :=
  assign (byOid ts ms) (ts.named (ms.flatMap Member.wants))

/-- `recompute_target`. -/
def recomputeTarget (env : Env) (g : Group) : Group where
  row := g.row.map fun r =>
    { r with assignmentEpoch := r.groupEpoch, updatedAt := env.now }
  members := g.members.updateWhere (fun _ => true) (fun m => { m with
      target := targetOf env.topics g.members.rows m.memberId })
    fun _ => rfl

-- ==== reconcile

/-- The stored target is still the answer: neither the group epoch nor
thirty seconds have moved past it. -/
def upToDate (g : Group) (now : ℤ) : Bool :=
  match g.row with
  | none => false
  | some r => r.assignmentEpoch = r.groupEpoch && !decide (r.updatedAt < now - reassignIntervalMs)

/-- Everything held by somebody other than its intended owner: what a
member last reported, and what it was granted. -/
def heldElsewhere (ms : List Member) : Finset TopicPartition :=
  ms.foldl (fun held m => held ∪ ((m.owned ∪ m.granted) \ m.target)) ∅

/-- What the member is told it may hold. -/
def grantable (ms : List Member) (mine : Finset TopicPartition) : Finset TopicPartition :=
  mine \ heldElsewhere ms

/-- What stays granted: all of it, or what the member says it still
has. -/
def keep (granted : Finset TopicPartition) (acknowledged : Option (Finset TopicPartition)) :
    Finset TopicPartition :=
  match acknowledged with
  | some owned => granted ∩ owned
  | none => granted

/-- `reconcile`: the group, the epoch and the assignment returned. -/
def reconcile (env : Env) (g : Group) (me : String) (prevEpoch : ℤ)
    (acknowledged : Option (Finset TopicPartition)) : Group × ℤ × List (Uuid × List ℤ) :=
  let groupEpoch := match g.row with
    | none => 0
    | some r => r.groupEpoch
  let g := if upToDate g env.now then g else recomputeTarget env g
  let mine := match g.members.find? me with
    | some m => m
    | none => { memberId := me, lastSeen := env.now }
  let grant := grantable g.members.rows mine.target
  let nowGranted := keep mine.granted acknowledged ∪ grant
  let epoch := if grant.card = mine.target.card then groupEpoch
    else prevEpoch
  let members := Members.updateOne g.members me (fun m =>
    { m with
      epoch := epoch
      granted := nowGranted
      lastSeen := env.now
      revokingSince := if nowGranted ⊆ mine.target then none
        else some (m.revokingSince.getD env.now) }) fun _ => rfl
  ({ g with members := members }, epoch, env.topics.toWire grant)

-- ==== heartbeat

/-- A leave: `-1` for good, `-2` a static member expected back. -/
def leave (env : Env) (g : Group) (req : Request) : Group × Response :=
  if req.memberId = "" then
    (g, errHb .unknownMemberId "leaving requires a member id")
  else if req.memberEpoch < -2 then
    (g, errHb .invalidRequest "member epoch below -2 is not a defined leave")
  else
    let departed := Members.updateOne g.members req.memberId
      (fun m => { m with staticDeparted := true }) fun _ => rfl
    let g' : Group :=
      if req.memberEpoch = -2 then { g with members := departed }
      else if req.memberId ∈ g.members.keys then
        Group.bumpEpoch { g with members := g.members.delete fun m =>
          m.memberId = req.memberId } env.now
      else g
    (g', { memberId := some req.memberId, memberEpoch := req.memberEpoch })

/-- `INSERT … ON CONFLICT DO NOTHING` of the group. -/
def Group.ensure (g : Group) (now : ℤ) : Group :=
  { g with row := some (g.row.getD { updatedAt := now }) }

/-- The row of a static member taken over under a new id. -/
def Members.adopt (ms : Members) (holder new : String) (now : ℤ) (free : new ∉ ms.keys) : Members :=
  ms.rename holder new (fun m =>
    { m with
      memberId := new
      staticDeparted := false
      lastSeen := now
      revokingSince := none }) (fun _ => rfl) free

/-- What became of the request's `group.instance.id`. -/
inductive Adoption where
  | unreleased
  | keyViolation
  | members (ms : Members)

/-- A static member that left comes back under a fresh member id and
gets the reserved row. -/
def Members.adoptInstance (ms : Members) (now : ℤ) (memberId : String)
    (instanceId : Option String) : Adoption :=
  match instanceId with
  | none => .members ms
  | some inst =>
    match ms.rows.find? fun m => m.instanceId = some inst with
    | none => .members ms
    | some holder =>
      if holder.memberId = memberId then .members ms
      else if !holder.staticDeparted then .unreleased
      else if free : memberId ∉ ms.keys then
        .members (Members.adopt ms holder.memberId memberId now free)
      else .keyViolation

/-- `upsert_member`: null leaves a column as it is. -/
def upsertMember (ms : Members) (now : ℤ) (memberId : String)
    (req : Request) (owned : Option (Finset TopicPartition))
    (regex : Option String) (matched : List String) : Members :=
  let timeout := fun stored => if req.rebalanceTimeoutMs = -1 then stored
    else req.rebalanceTimeoutMs
  ms.upsert
    { memberId := memberId
      instanceId := req.instanceId
      rebalanceTimeoutMs := timeout 300000
      subscribed := req.subscribedTopicNames.getD []
      owned := owned.getD ∅
      lastSeen := now
      regex := regex
      matched := matched }
    (fun m =>
      { m with
        instanceId := req.instanceId <|> m.instanceId
        rebalanceTimeoutMs := timeout m.rebalanceTimeoutMs
        subscribed := req.subscribedTopicNames.getD m.subscribed
        owned := owned.getD m.owned
        staticDeparted := false
        lastSeen := now
        regex := regex
        matched := matched }) fun _ => rfl

/-- The stored pattern, or the request's: null keeps it, "" drops it. -/
def regexOf (existing : Option Member) (req : Request) : Option String :=
  match req.subscribedTopicRegex with
  | none => existing.bind (·.regex)
  | some "" => none
  | some p => some p

/-- The topics the pattern matches now, or the refusal. -/
def matchedTopics (env : Env) (regex : Option String) : Except Response (List String) :=
  match regex with
  | none => .ok []
  | some p =>
    match env.regexTopics p with
    | none => .error (errHb .invalidRegularExpression
        "the subscribed topic regex does not compile in Postgres's regex dialect")
    | some names =>
      if names.length > maxSubscribedTopics then
        .error (errHb .invalidRequest
          "the subscribed topic regex matches more topics than a member may subscribe to")
      else .ok names

/-- The subscription differs from the stored one, as a set. -/
def subscriptionChanged (existing : Option Member) (req : Request) : Bool :=
  match req.subscribedTopicNames, existing with
  | some new, some row => new.toFinset ≠ row.subscribed.toFinset
  | _, _ => false

/-- The member is stored, and the group epoch bumped if the assignor
would see a change. -/
def store (env : Env) (g : Group) (memberId : String) (req : Request)
    (regex : Option String) (matched : List String) : Group :=
  let existing := g.members.find? memberId
  let changed := match existing with
    | none => true
    | some row => subscriptionChanged existing req ||
        decide (row.regex ≠ regex ∨ row.matched ≠ matched)
  let owned := req.topicPartitions.map env.topics.resolve
  let g' : Group := { g with
    members := upsertMember g.members env.now memberId req owned regex
      matched }
  if changed then g'.bumpEpoch env.now else g'

/-- The last part of `heartbeat`: the member is stored and told what it
may hold. -/
def serve (env : Env) (g : Group) (memberId : String) (req : Request) : Group × Response :=
  let existing := g.members.find? memberId
  let regex := regexOf existing req
  match matchedTopics env regex with
  | .error refusal => (g, refusal)
  | .ok matched =>
    let prevEpoch := (existing.map (·.epoch)).getD 0
    let r := reconcile env (store env g memberId req regex matched)
      memberId prevEpoch (req.topicPartitions.map env.topics.resolve)
    (r.1, {
      memberId := some memberId
      memberEpoch := r.2.1
      heartbeatIntervalMs := heartbeatIntervalMs
      assignment := some r.2.2 })

/-- Its middle: whether the member may take part. -/
def admission (env : Env) (g : Group) (memberId : String) (req : Request) : Group × Response :=
  match g.members.find? memberId with
  | none =>
    if req.memberEpoch ≠ 0 then
      (g, errHb .unknownMemberId "unknown member; rejoin")
    else if g.members.rows.length ≥ maxGroupSize then
      (g, errHb .groupMaxSizeReached "group is at its member limit")
    else serve env g memberId req
  | some row =>
    if req.memberEpoch ≠ 0 ∧ req.memberEpoch ≠ row.epoch then
      (g, errHb .fencedMemberEpoch "member epoch is stale; rejoin")
    else if row.revokeExpired env.now then
      (Group.bumpEpoch { g with members := g.members.delete fun m =>
          m.memberId = memberId } env.now,
        errHb .unknownMemberId
          "did not release a revoked partition within rebalance.timeout.ms; rejoin")
    else serve env g memberId req

/-- Everything after the requests that leave. -/
def participate (env : Env) (g : Group) (req : Request) : Except HandlerError (Group × Response) :=
  let memberId := if req.memberId = "" then env.uuidLike else req.memberId
  if !(req.subscribedTopicNames.getD []).all env.readTopic then
    .ok (g, errHb .topicAuthorizationFailed "not authorized to read a subscribed topic")
  else
    let g := g.ensure env.now
    match Members.adoptInstance g.members env.now memberId req.instanceId with
    | .unreleased => .ok (g, errHb .unreleasedInstanceId
        "another member is already using this group.instance.id")
    | .keyViolation => .error .internal
    | .members ms => .ok (admission env { g with members := ms } memberId req)

/-- How many partitions the request lists. -/
def Request.ownedCount (req : Request) : ℕ :=
  ((req.topicPartitions.getD []).map fun t => t.2.length).sum

/-- `68 ConsumerGroupHeartbeat`. -/
def heartbeat (env : Env) (g : Group) (req : Request) : Except HandlerError (Group × Response) :=
  let names := (req.subscribedTopicNames.getD []).length
  if names > maxSubscribedTopics then
    .error (.tooLarge "subscribed topics" names)
  else if req.ownedCount > maxOwnedPartitions then
    .error (.tooLarge "owned partitions" req.ownedCount)
  else if !env.readGroup then
    .ok (g, errHb .groupAuthorizationFailed "not authorized to read this group")
  else if env.otherProtocol then
    .ok (g, errHb .groupIdNotFound
      "this group id is already in use by another group protocol; set group.protocol=classic or use a different group.id")
  else if req.serverAssignor.getD assignor ≠ assignor then
    .ok (g, errHb .unsupportedAssignor "this broker implements the 'uniform' server assignor only")
  else if req.memberEpoch < 0 then .ok (leave env g req)
  else participate env g req

/-- `expire_members` in one group. A sweep takes a bounded number of
rows over all groups: `swept` says which of this one's it got to.
`alive` are members whose heartbeat waits behind a lock. -/
def expireMembers (g : Group) (now : ℤ) (alive : List String) (swept : String → Bool) : Group :=
  let seen := g.members.updateWhere (fun m => m.memberId ∈ alive)
    (fun m => { m with lastSeen := now }) fun _ => rfl
  let gone := fun m : Member =>
    decide (m.lastSeen < now - sessionTimeoutMs) && swept m.memberId
  let g' : Group := { g with members := seen.delete gone }
  if seen.rows.any gone then g'.bumpEpoch now else g'

-- ==== the runs

/-- What happens to a group. -/
inductive Event where
  | heartbeat (env : Env) (req : Request)
  | expire (now : ℤ) (alive : List String) (swept : String → Bool)

/-- A group, and what each current member was sent and has not since
reported an owned list without. -/
structure System where
  group : Group
  sent : String → Finset TopicPartition

def System.init : System := ⟨.none, fun _ => ∅⟩

/-- The partitions a response gives its member. -/
def Response.given (resp : Response) (ts : Topics) : Finset TopicPartition :=
  ts.resolve (resp.assignment.getD [])

/-- What the member was sent, after a response. -/
def System.sentAfter (s : System) (env : Env) (req : Request)
    (resp : Response) (g : Group) (id : String) : Finset TopicPartition :=
  if id ∉ g.members.keys then ∅
  else if resp.memberId = some id ∧ resp.assignment.isSome then
    keep (s.sent id) (req.topicPartitions.map env.topics.resolve) ∪ resp.given env.topics
  else s.sent id

def System.step (s : System) : Event → System
  | .heartbeat env req =>
    match heartbeat env s.group req with
    | .error _ => s
    | .ok (g, resp) => ⟨g, s.sentAfter env req resp g⟩
  | .expire now alive swept =>
    let g := expireMembers s.group now alive swept
    ⟨g, fun id => if id ∈ g.members.keys then s.sent id else ∅⟩

-- ==== exclusive grants

/-- No partition is granted to two members. -/
def System.GrantsApart (s : System) : Prop :=
  ∀ a ∈ s.group.members.rows, ∀ b ∈ s.group.members.rows,
    a.memberId ≠ b.memberId → Disjoint a.granted b.granted

/-- A response gives its member nothing that another current member was
sent and has not since reported an owned list without, nor anything
another current member last reported to own. -/
def Excludes (s : System) : Event → Prop
  | .heartbeat env req =>
    ∀ g resp who, heartbeat env s.group req = .ok (g, resp) →
      resp.memberId = some who → ∀ other ∈ g.members.rows, other.memberId ≠ who →
        Disjoint (resp.given env.topics) ((s.step (.heartbeat env req)).sent other.memberId) ∧
        Disjoint (resp.given env.topics) other.owned
  | .expire .. => True

end Kafgres.ConsumerGroup
