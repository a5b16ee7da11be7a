/-
ACL rules and what they allow (acl.rs).

A rule grants or denies one operation on a resource, or on all whose
names begin with its own, to a principal from a host. Names of granted
operations are text, as the table has them.
-/
import Kafgres.Codec.ErrorCode
import Mathlib.Data.String.Basic

namespace Kafgres.Access

open Codec

inductive ResourceType where
  | topic
  | group
  | cluster
  | transactionalId
deriving DecidableEq

/-- `denied_code`. -/
def ResourceType.deniedCode : ResourceType → ErrorCode
  | .topic => .topicAuthorizationFailed
  | .group => .groupAuthorizationFailed
  | .cluster => .clusterAuthorizationFailed
  | .transactionalId => .transactionalIdAuthorizationFailed

inductive Operation where
  | read
  | write
  | create
  | delete
  | alter
  | describe
  | describeConfigs
  | alterConfigs
  | idempotentWrite
  | clusterAction
deriving DecidableEq

namespace Operation

/-- `as_str`. -/
def asStr : Operation → String
  | .read => "READ"
  | .write => "WRITE"
  | .create => "CREATE"
  | .delete => "DELETE"
  | .alter => "ALTER"
  | .describe => "DESCRIBE"
  | .describeConfigs => "DESCRIBE_CONFIGS"
  | .alterConfigs => "ALTER_CONFIGS"
  | .idempotentWrite => "IDEMPOTENT_WRITE"
  | .clusterAction => "CLUSTER_ACTION"

/-- `implied_by`. -/
def impliedBy (op : Operation) (granted : String) : Bool :=
  if granted = "ALL" ∨ granted = op.asStr then true
  else match op with
  | .describe => decide (granted ∈ ["READ", "WRITE", "DELETE", "ALTER"])
  | .describeConfigs => decide (granted = "ALTER_CONFIGS")
  | _ => false

end Operation

inductive PatternType where
  | literal
  | prefixed
deriving DecidableEq

/-- A row of `kafgres_acls`. -/
structure Acl where
  principal : String
  host : String
  operation : String
  permissionAllow : Bool
  resourceType : ResourceType
  resourceName : String
  pattern : PatternType

/-- Who sends a request, and from where. -/
structure Principal where
  name : String
  host : String

/-- The rule is about the operation on the resource by the principal. -/
def Acl.matching (a : Acl) (who : Principal) (op : Operation)
    (rt : ResourceType) (name : String) : Bool :=
  if a.resourceType ≠ rt then false
  else if a.principal ≠ "User:*" ∧ a.principal ≠ who.name then false
  else if a.host ≠ "*" ∧ a.host ≠ who.host then false
  else if op.impliedBy a.operation = false then false
  else match a.pattern with
  | .literal => decide (a.resourceName = "*" ∨ a.resourceName = name)
  | .prefixed => a.resourceName.toList.isPrefixOf name.toList

structure AclCache where
  acls : List Acl
  enabled : Bool
  superusers : List String

/-- Superuser, then a denial, then a grant, then refused. -/
def AclCache.allows (c : AclCache) (who : Principal) (op : Operation)
    (rt : ResourceType) (name : String) : Bool :=
  if c.enabled = false then true
  else if who.name ∈ c.superusers then true
  else
    let matching (allow : Bool) : Bool :=
      (c.acls.filter fun a => a.permissionAllow = allow).any fun a =>
        a.matching who op rt name
    if matching false then false else matching true

/-- The rules in force at a request, and its sender. -/
structure Authz where
  acls : AclCache
  principal : Principal

namespace Authz

def allows (a : Authz) (op : Operation) (rt : ResourceType) (name : String) : Bool :=
  a.acls.allows a.principal op rt name

/-- The code of the refusal, if it is one. -/
def check (a : Authz) (op : Operation) (rt : ResourceType) (name : String) : Option ErrorCode :=
  if a.allows op rt name then none else some rt.deniedCode

theorem check_eq_none {a : Authz} {op : Operation} {rt : ResourceType} {name : String} :
    a.check op rt name = none ↔ a.allows op rt name = true := by
  unfold check
  split
  next h => simp [h]
  next h => simp [h]

end Authz

end Kafgres.Access
