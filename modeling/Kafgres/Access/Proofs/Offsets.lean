/-
Which offsets an offset request changes, and what was checked of its
sender before.
-/
import Kafgres.Offsets.Proofs.Commit

namespace Kafgres.Offsets

open Meta Codec Access
open Txn (OffsetKey OffsetCommit Staged)

variable {db db' : Db} {authz : Authz} {v now : ℤ} {ts : Topics}
  {req : OffsetCommitRequest} {s : Db × Option GroupVerdict} {denied : Option ErrorCode}

-- ==== commit

/-- The partition a commit may write: of a topic of the request, past its
checks. -/
def Commits (authz : Authz) (ts : Topics) (req : OffsetCommitRequest) (k : OffsetKey) : Prop :=
  authz.allows .read .group req.groupId = true ∧ k.group = req.groupId ∧
    ∃ t ∈ req.topics, authz.allows .read .topic t.name = true ∧
      ∃ topic, ts.resolve t.name t.topicId = some topic ∧ k.key.topic = topic.topicId

theorem commitPartition_changes (resolved : Option Topic) (hdenied : denied ≠ some .none)
    (hs : Midway ts s) (p : CommitPartition) (k : OffsetKey) :
    (commitPartition req v now denied resolved s p).1.1.stored k = s.1.stored k ∨
      denied = none ∧ ∃ t, resolved = some t ∧ k = ⟨req.groupId, t.key p.partitionIndex⟩ := by
  cases denied with
  | some code => exact .inl rfl
  | none =>
    rw [(commitPartition_spec req v now resolved hdenied hs p).2]
    unfold acceptedPartition
    cases resolved with
    | none => exact .inl rfl
    | some t =>
      dsimp only
      split
      next =>
        by_cases hk : k = ⟨req.groupId, t.key p.partitionIndex⟩
        · exact .inr ⟨rfl, t, rfl, hk⟩
        · exact .inl (Function.update_of_ne hk _ _)
      next => exact .inl rfl

theorem commitTopic_changes (hs : Midway ts s) {t : CommitTopic}
    (ht : t ∈ req.topics) (k : OffsetKey) :
    (commitTopic req v now authz s t).1.1.stored k = s.1.stored k ∨ Commits authz ts req k := by
  have hdenied := denied_ne_none authz req.groupId t.name
  unfold commitTopic
  rw [hs.topics]
  refine Turns.frame_serve (Midway ts) (fun s => s.1.stored k)
    (fun s p _ hs => (commitPartition_spec req v now _ hdenied hs p).1)
    (fun s p _ hs => ?_) hs
  refine (commitPartition_changes _ hdenied hs p k).imp_right fun h => ?_
  obtain ⟨hnone, topic, htopic, hk⟩ := h
  obtain ⟨hgroup, hname⟩ := Option.or_eq_none_iff.1 hnone
  exact ⟨Authz.check_eq_none.1 hgroup, hk ▸ rfl, t, ht,
    Authz.check_eq_none.1 hname, topic, htopic, hk ▸ rfl⟩

/-- An `OffsetCommit` changes only what passed its checks. -/
theorem offsetCommit_changes {got : OffsetCommitResponse}
    (h : offsetCommit db req v now authz = .ok (db', got)) (k : OffsetKey) :
    db'.stored k = db.stored k ∨ Commits authz db.topics req k := by
  have hs : Midway db.topics (db, none) := ⟨rfl, nofun⟩
  unfold offsetCommit checkLen at h
  split at h
  next => cases h
  next =>
  split at h
  next => cases h
  next =>
  cases h
  exact Turns.frame_serve (Midway db.topics) (fun s => s.1.stored k)
    (fun s t _ hs => (commitTopic_spec hs t).1)
    (fun s t ht hs => commitTopic_changes hs ht k) hs

-- ==== deletion

/-- A partition an `OffsetDelete` may delete. -/
def Deletes (authz : Authz) (ts : Topics) (req : OffsetDeleteRequest) (k : OffsetKey) : Prop :=
  authz.allows .delete .group req.groupId = true ∧ k.group = req.groupId ∧
    ∃ t ∈ req.topics, authz.allows .delete .topic t.1 = true ∧
      ∃ topic, ts.byName t.1 = some topic ∧ k.key.topic = topic.topicId

theorem deletePartition_changes (group : String) (hasMembers : Bool) (topic : Option Topic)
    (db : Db) (p : Int32) (k : OffsetKey) :
    (deletePartition group denied hasMembers topic db p).1.stored k = db.stored k ∨
      denied = none ∧ ∃ t, topic = some t ∧ k = ⟨group, t.key p⟩ := by
  unfold deletePartition
  cases denied with
  | some code => exact .inl rfl
  | none =>
    dsimp only
    split
    · exact .inl rfl
    cases topic with
    | none => exact .inl rfl
    | some t =>
      refine (Txn.stored_filter_eq_or (fun k => k = ⟨group, t.key p⟩) db.offsets k).imp_right ?_
      rintro ⟨-, -, -, hk⟩
      exact ⟨rfl, t, rfl, hk⟩

theorem deleteTopicOffsets_changes (req : OffsetDeleteRequest)
    (hasMembers : Bool) (hgroup : authz.allows .delete .group req.groupId =
      true) (hdb : db.topics = ts) {t : String × List Int32} (ht : t ∈ req.topics) (k : OffsetKey) :
    (deleteTopicOffsets req authz hasMembers db t).1.stored k =
        db.stored k ∨ Deletes authz ts req k := by
  unfold deleteTopicOffsets
  rw [hdb]
  refine Turns.frame_serve (fun _ => True) (fun d : Db => d.stored k)
    (fun _ _ _ _ => trivial) (fun d p _ _ => ?_) trivial
  refine (deletePartition_changes req.groupId hasMembers _ d p k).imp_right fun h => ?_
  obtain ⟨hname, topic, htopic, hk⟩ := h
  exact ⟨hgroup, hk ▸ rfl, t, ht, Authz.check_eq_none.1 hname, topic, htopic, hk ▸ rfl⟩

/-- An `OffsetDelete` deletes only what it may. -/
theorem offsetDelete_changes {req : OffsetDeleteRequest} {got : OffsetDeleteResponse}
    (h : offsetDelete db req authz = .ok (db', got)) (k : OffsetKey) :
    db'.stored k = db.stored k ∨ Deletes authz db.topics req k := by
  unfold offsetDelete checkLen at h
  split at h
  next =>
    cases h
    exact .inl rfl
  next hgroup =>
  split at h
  next => cases h
  next =>
  split at h
  next => cases h
  next =>
  by_cases he : (db.existence req.groupId).1 = false
  · rw [if_pos he] at h
    cases h
    exact .inl rfl
  rw [if_neg he] at h
  cases h
  exact Turns.frame_serve (fun d : Db => d.topics = db.topics) (fun d => d.stored k)
    (fun _ t _ hd =>
      (deleteTopicOffsets_spec req authz _ hd t).1)
    (fun _ t ht hd => deleteTopicOffsets_changes req _ (Authz.check_eq_none.1 hgroup) hd ht k) rfl

/-- A deleted group's offsets go, and no others. -/
theorem deleteOneGroup_changes (authz : Authz) (db : Db) (group : String) (k : OffsetKey) :
    (∀ r ∈ (deleteOneGroup authz db group).1.offsets, r ∈ db.offsets) ∧
      ((deleteOneGroup authz db group).1.stored k = db.stored k ∨
        k.group = group ∧ authz.allows .delete .group group = true ∧
          ∃ r ∈ db.offsets, r.1 = k) := by
  unfold deleteOneGroup deleteGroup
  split
  next => exact ⟨fun _ hr => hr, .inl rfl⟩
  next hcheck =>
  split
  · exact ⟨fun _ hr => hr, .inl rfl⟩
  split
  · exact ⟨fun _ hr => hr, .inl rfl⟩
  refine ⟨fun r hr => (List.mem_filter.1 hr).1, ?_⟩
  refine (Txn.stored_filter_eq_or (fun k => k.group = group) db.offsets k).imp_right ?_
  rintro ⟨r, hr, hk, hgone⟩
  exact ⟨hgone, Authz.check_eq_none.1 hcheck, r, hr, hk⟩

/-- Offsets of a group go only with one that was named and may be
deleted. -/
theorem deleteGroups_changes {groups : List String} {got : List ErrorCode}
    (h : deleteGroups db groups authz = .ok (db', got)) (k : OffsetKey) :
    db'.stored k = db.stored k ∨ (k.group ∈ groups ∧ authz.allows .delete .group k.group = true ∧
        ∃ r ∈ db.offsets, r.1 = k) := by
  unfold deleteGroups checkLen at h
  split at h
  next => cases h
  next =>
  have hdb : Turns.serve (deleteOneGroup authz) db groups = (db', got) := Except.ok.inj h
  have hfst : (Turns.serve (deleteOneGroup authz) db groups).1 = db' := congrArg Prod.fst hdb
  rw [← hfst]
  refine Turns.frame_serve (fun d : Db => ∀ r ∈ d.offsets, r ∈ db.offsets) (fun d => d.stored k)
    (fun d g _ hd r hr => hd r ((deleteOneGroup_changes authz d g k).1 r hr))
    (fun d g hg hd => ?_) fun _ hr => hr
  refine (deleteOneGroup_changes authz d g k).2.imp_right fun h => ?_
  obtain ⟨rfl, hallow, r, hr, hk⟩ := h
  exact ⟨hg, hallow, r, hd r hr, hk⟩

end Kafgres.Offsets
