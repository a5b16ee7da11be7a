/-
When the rules decide as Kafka's do. `allows` reads a denial as it reads
a grant: the rule matches if what it names implies the operation asked
for. Kafka has the implication for grants alone.
-/
import Kafgres.Access.Rules
import Mathlib.Data.List.Perm.Basic

namespace Kafgres.Access

/-- The rule is about the resource and the sender. -/
def Acl.Covers (a : Acl) (who : Principal) (rt : ResourceType) (name : String) : Prop :=
  a.resourceType = rt ∧ (a.principal = "User:*" ∨ a.principal = who.name) ∧
    (a.host = "*" ∨ a.host = who.host) ∧
    match a.pattern with
    | .literal => a.resourceName = "*" ∨ a.resourceName = name
    | .prefixed => a.resourceName.toList <+: name.toList

/-- Some rule that covers the query names one of these operations. -/
def AclCache.Has (c : AclCache) (who : Principal) (rt : ResourceType) (name : String)
    (allow : Bool) (names : String → Prop) : Prop :=
  ∃ a ∈ c.acls, a.permissionAllow = allow ∧ a.Covers who rt name ∧ names a.operation

/-- The operation, ALL, or one that implies it. -/
def Operation.Implied (op : Operation) (granted : String) : Prop := op.impliedBy granted = true

/-- The operation or ALL. -/
def Operation.Named (op : Operation) (denied : String) : Prop := denied = op.asStr ∨ denied = "ALL"

variable {c : AclCache} {who : Principal} {op : Operation} {rt : ResourceType} {name : String}

theorem Acl.matching_iff {a : Acl} :
    a.matching who op rt name = true ↔ a.Covers who rt name ∧ op.Implied a.operation := by
  unfold Acl.matching Acl.Covers Operation.Implied
  cases a.pattern with
  | literal =>
    simp only [Bool.if_false_left, Bool.and_eq_true, decide_eq_true_eq, Bool.not_eq_true']
    grind
  | prefixed =>
    simp only [Bool.if_false_left, Bool.and_eq_true, List.isPrefixOf_iff_prefix, Bool.not_eq_true']
    grind

/-- Both passes over the rules ask for the same. -/
theorem allows_iff (hon : c.enabled = true) (huser : who.name ∉ c.superusers) :
    c.allows who op rt name = true ↔
      ¬ c.Has who rt name false op.Implied ∧ c.Has who rt name true op.Implied := by
  have hpass : ∀ allow, ((c.acls.filter fun a => a.permissionAllow = allow).any fun a =>
      a.matching who op rt name) = true ↔ c.Has who rt name allow op.Implied := by
    intro allow
    simp only [List.any_eq_true, List.mem_filter, decide_eq_true_eq, and_assoc, Acl.matching_iff]
    rfl
  unfold AclCache.allows
  rw [if_neg (by simp [hon]), if_neg huser, ← hpass, ← hpass]
  dsimp only
  split
  next hd => simp only [hd, not_true, false_and, Bool.false_eq_true]
  next hd => exact (and_iff_right hd).symm

/-- The answer is Kafka's exactly if, where a denial names an operation
that implies this one, one names it itself or nothing grants it. It never
depends on the order of the rules. -/
theorem allows_eq_kafka_iff (c : AclCache) (who : Principal) (op : Operation) (rt : ResourceType)
    (name : String) (hon : c.enabled = true) (huser : who.name ∉ c.superusers) :
    ((c.allows who op rt name = true ↔
        ¬ c.Has who rt name false op.Named ∧ c.Has who rt name true op.Implied) ↔
      (c.Has who rt name false op.Implied →
        c.Has who rt name false op.Named ∨ ¬ c.Has who rt name true op.Implied)) ∧
    ∀ acls, acls.Perm c.acls →
      AclCache.allows { c with acls := acls } who op rt name = c.allows who op rt name := by
  constructor
  · have hnamed : c.Has who rt name false op.Named → c.Has who rt name false op.Implied := by
      rintro ⟨a, ha, hdeny, hcov, hnames⟩
      exact ⟨a, ha, hdeny, hcov, if_pos hnames.symm⟩
    rw [allows_iff hon huser]
    tauto
  · intro acls hperm
    have hsame : ∀ allow names, AclCache.Has { c with acls := acls } who rt name allow names ↔
        c.Has who rt name allow names := fun allow names =>
      exists_congr fun a => and_congr_left' hperm.mem_iff
    rw [Bool.eq_iff_iff, allows_iff (c := c) hon huser, ← hsame, ← hsame]
    exact allows_iff hon huser

/-- READ is denied, and another operation granted. -/
def denyRead (granted : String) : AclCache where
  acls := [⟨"User:a", "*", "READ", false, .topic, "t", .literal⟩,
    ⟨"User:a", "*", granted, true, .topic, "t", .literal⟩]
  enabled := true
  superusers := []

theorem allows_eq_kafka_write :
    AclCache.allows { denyRead "WRITE" with acls := (denyRead "WRITE").acls.reverse }
      ⟨"User:a", "h"⟩ .write .topic "t" =
    (denyRead "WRITE").allows ⟨"User:a", "h"⟩ .write .topic "t" :=
  (allows_eq_kafka_iff (denyRead "WRITE") ⟨"User:a", "h"⟩ .write .topic "t" rfl (by decide)).2 _
    (List.reverse_perm _)

/-- DESCRIBE is granted and not denied, and refused. -/
theorem deny_read_refuses_describe :
    (denyRead "DESCRIBE").allows ⟨"User:a", "h"⟩ .describe .topic "t" = false ∧
      (denyRead "DESCRIBE").Has ⟨"User:a", "h"⟩ .topic "t" true Operation.describe.Implied ∧
      ¬ (denyRead "DESCRIBE").Has ⟨"User:a", "h"⟩ .topic "t" false Operation.describe.Named := by
  refine ⟨by decide, ⟨_, .tail _ (.head _), rfl, by simp [Acl.Covers], if_pos (.inr rfl)⟩, ?_⟩
  rintro ⟨a, ha, hdeny, -, hnames⟩
  unfold Operation.Named at hnames
  revert hdeny hnames
  rcases List.mem_pair.1 ha with rfl | rfl <;> decide

end Kafgres.Access
