/-
`kafgres_topics` (meta.rs): topics by id, by name and by uuid.

The id comes from a sequence that starts at 1, names are never empty, and
each of the three is unique. Requests name a topic by its name or, in
later versions, by its uuid alone.
-/
import Kafgres.Lib.Table
import Kafgres.Storage.Basic
import Mathlib.Data.String.Basic

namespace Kafgres.Meta

open Storage

/-- Sixteen bytes; zero reads as no topic id. -/
abbrev Uuid := BitVec 128

structure Topic where
  topicId : UInt32
  name : String
  uuid : Uuid
  numPartitions : Int32
  id_ne_zero : topicId ≠ 0
  name_ne_empty : name ≠ ""

/-- A partition of the topic, as the storage layer names it. -/
def Topic.key (t : Topic) (partition : Int32) : Key := ⟨t.topicId, partition, t.id_ne_zero⟩

/-- The partition is in the topic's range. -/
def Topic.has (t : Topic) (partition : Int32) : Bool :=
  decide (0 ≤ partition) && decide (partition < t.numPartitions)

structure Topics where
  rows : Table Topic.topicId
  names : (rows.rows.map Topic.name).Nodup
  uuids : (rows.rows.map Topic.uuid).Nodup

namespace Topics

def empty : Topics := ⟨.empty, .nil, .nil⟩

/-- `topic_id_by_name`, with the rest of the row. -/
def byName (ts : Topics) (name : String) : Option Topic := ts.rows.rows.find? fun t => t.name = name

/-- `topic_by_uuid`. -/
def byUuid (ts : Topics) (uuid : Uuid) : Option Topic := ts.rows.rows.find? fun t => t.uuid = uuid

/-- `resolve_topic`: by the name if there is one, else by the uuid. -/
def resolve (ts : Topics) (name : String) (uuid : Uuid) : Option Topic :=
  if name = "" then ts.byUuid uuid else ts.byName name

/-- There is a topic under the id. -/
def has (ts : Topics) (topicId : UInt32) : Bool := (ts.rows.find? topicId).isSome

/-- `create_topic`, if all three of its keys are free. -/
def create (ts : Topics) (t : Topic) : Topics :=
  if h : t.topicId ∉ ts.rows.keys ∧ t.name ∉ ts.rows.rows.map Topic.name ∧
      t.uuid ∉ ts.rows.rows.map Topic.uuid then
    { rows := ts.rows.insert t h.1
      names := by
        unfold Table.insert
        rw [List.map_append]
        exact List.Nodup.append ts.names (List.nodup_singleton _) (List.disjoint_singleton.2 h.2.1)
      uuids := by
        unfold Table.insert
        rw [List.map_append]
        exact List.Nodup.append ts.uuids (List.nodup_singleton _)
          (List.disjoint_singleton.2 h.2.2) }
  else ts

/-- The row of a deleted topic goes. -/
def drop (ts : Topics) (topicId : UInt32) : Topics where
  rows := ts.rows.delete fun t => t.topicId = topicId
  names := ts.names.sublist (List.filter_sublist.map _)
  uuids := ts.uuids.sublist (List.filter_sublist.map _)

/-- `create_partitions`. -/
def extend (ts : Topics) (topicId : UInt32) (total : Int32) : Topics :=
  let set : Topic → Topic := fun t => { t with numPartitions := total }
  let grow : Topic → Topic := fun t =>
    if decide (t.topicId = topicId) = true then set t else t
  have hname : (ts.rows.rows.map grow).map Topic.name = ts.rows.rows.map Topic.name := by
    rw [List.map_map]
    refine List.map_congr_left fun t _ => ?_
    show (grow t).name = t.name
    unfold grow
    split <;> rfl
  have huuid : (ts.rows.rows.map grow).map Topic.uuid = ts.rows.rows.map Topic.uuid := by
    rw [List.map_map]
    refine List.map_congr_left fun t _ => ?_
    show (grow t).uuid = t.uuid
    unfold grow
    split <;> rfl
  { rows := ts.rows.updateWhere (fun t => t.topicId = topicId) set fun _ => rfl
    names := hname ▸ ts.names
    uuids := huuid ▸ ts.uuids }

-- ==== lookups

variable {ts : Topics} {t : Topic}

/-- Names are a key of their own. -/
theorem byName_eq_some {name : String} :
    ts.byName name = some t ↔ t ∈ ts.rows.rows ∧ t.name = name :=
  Table.find?_eq_some (t := ⟨ts.rows.rows, ts.names⟩)

theorem byUuid_eq_some {uuid : Uuid} : ts.byUuid uuid = some t ↔ t ∈ ts.rows.rows ∧ t.uuid = uuid :=
  Table.find?_eq_some (t := ⟨ts.rows.rows, ts.uuids⟩)

/-- No topic has the empty name. -/
theorem byName_empty (ts : Topics) : ts.byName "" = none := by
  rw [Option.eq_none_iff_forall_ne_some]
  intro t ht
  exact t.name_ne_empty (byName_eq_some.1 ht).2

end Topics

/-- The topic of the fixed runs. -/
def orders : Topic := ⟨1, "orders", 7, 3, Key.one_ne_zero, by decide⟩

end Kafgres.Meta
