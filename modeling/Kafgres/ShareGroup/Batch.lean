/-
One acknowledgement batch of a ShareFetch or ShareAcknowledge
(handlers/share_group.rs), from its types on the wire to its answer.

A single type for a range is one statement over the range. Any other list
is one statement for each record, up to the first Accept or Reject of a
record the member does not hold. Either way the broker answers the error
and commits what was done before it.
-/
import Kafgres.ShareGroup.Partition

namespace Kafgres.ShareGroup

-- ==== types

/-- `Ack::from_wire`. -/
def Ack.fromWire : ℤ → Option Ack
  | 0 => some .gap
  | 1 => some .accept
  | 2 => some .release
  | 3 => some .reject
  | 4 => some .renew
  | _ => none

/-- One type of `decode_acks`: renewals are defined from version 2 on. -/
def decodeAck (version v : ℤ) : Option Ack :=
  match Ack.fromWire v with
  | some .renew => if version < 2 then none else some .renew
  | other => other

/-- `decode_acks`. -/
def decodeAcks (raw : List ℤ) (version : ℤ) : Option (List Ack) := raw.mapM (decodeAck version)

-- ==== batches

/-- The codes a batch is answered with, by `ack_error` and by the
handlers. -/
inductive AckCode where
  | invalidRequest
  | invalidRecordState
deriving DecidableEq

/-- `ack_range`: the records are updated before they are counted. -/
def ackRange (rows : Rows) (member : String) (first last : ℤ) (kind : Ack)
    (lock : ℤ) : Rows × Except AckCode Unit :=
  (ackUpdate rows member first last kind lock,
    if ackHeld rows member first last kind then .ok ()
    else .error .invalidRecordState)

/-- The loop of `acknowledge`. -/
def ackLoop (member : String) (lock : ℤ) : List (ℤ × Ack) → Rows → Rows × Except AckCode Unit
  | [], rows => (rows, .ok ())
  | (o, kind) :: rest, rows =>
    match ackOne rows member o kind lock with
    | none => (rows, .error .invalidRecordState)
    | some rows => ackLoop member lock rest rows

/-- `acknowledge`, up to `advance_start_offset`. -/
def ackRows (rows : Rows) (member : String) (first last : ℤ)
    (types : List Ack) (lock : ℤ) : Rows × Except AckCode Unit :=
  if last < first then (rows, .error .invalidRequest)
  else match types with
    | [kind] =>
      if first < last then ackRange rows member first last kind lock
      else ackLoop member lock (ackList first last [kind]) rows
    | types => ackLoop member lock (ackList first last types) rows

/-- `acknowledge`. -/
def ackBatch (db : Db) (member : String) (first last : ℤ)
    (types : List Ack) (lock : ℤ) : Db × Except AckCode Unit :=
  let r := ackRows db.rows member first last types lock
  match r.2 with
  | .error e => ({ db with rows := r.1 }, .error e)
  | .ok () => (prune (advance { db with rows := r.1 }), .ok ())

/-- A batch as it arrives. -/
structure AckRequest where
  member : String
  first : ℤ
  last : ℤ
  types : List ℤ
  version : ℤ
  /-- When a renewed lock ends. -/
  lock : ℤ

/-- What the handlers do with a batch. -/
def AckRequest.run (req : AckRequest) (db : Db) : Db × Except AckCode Unit :=
  match decodeAcks req.types req.version with
  | none => (db, .error .invalidRequest)
  | some types =>
    ackBatch db req.member req.first req.last types req.lock

-- ==== all or nothing

/-- The type for every record of the range. -/
def AckRequest.spread (req : AckRequest) (v : ℤ) : AckRequest :=
  { req with types := List.replicate (req.last - req.first + 1).toNat v }

/-- An error has changed nothing, and a type for a range is that type for
each of its records. -/
structure AllOrNothing (db : Db) (req : AckRequest) : Prop where
  nothing : ∀ db' e, req.run db = (db', .error e) → db' = db
  spread : ∀ v, req.types = [v] → (req.spread v).run db = req.run db

/-- The member holds the record. -/
def Held (rows : Rows) (member : String) (o : ℤ) : Prop :=
  ∃ r, rows.find? o = some r ∧ r.memberId = some member

/-- Accept and Reject ask that the record is held. -/
def Ack.Asks (kind : Ack) : Prop := kind = .accept ∨ kind = .reject

/-- The acknowledgement is not refused. -/
def Applies (rows : Rows) (member : String) (p : ℤ × Ack) : Prop := p.2.Asks → Held rows member p.1

/-- The acknowledgement changes the record: it is held, and a renewal
asks for a live row and another end of the lock. -/
def Changes (rows : Rows) (member : String) (lock : ℤ) (p : ℤ × Ack) : Prop :=
  ∃ r, rows.find? p.1 = some r ∧ r.memberId = some member ∧
    (p.2 = .renew → r.state = .acquired ∧ r.acquiredUntil ≠ some lock)

instance (rows : Rows) (member : String) (o : ℤ) : Decidable (Held rows member o) :=
  decidable_of_iff ((rows.find? o).any fun r => r.memberId = some member) (by
      unfold Held
      cases rows.find? o with
      | none => simp
      | some r => simp)

instance (kind : Ack) : Decidable kind.Asks := inferInstanceAs (Decidable (_ ∨ _))

instance (rows : Rows) (member : String) (p : ℤ × Ack) : Decidable (Applies rows member p) :=
  inferInstanceAs (Decidable (_ → _))

/-- Either nothing of the list is refused, or nothing before the first
that is took effect. -/
def CleanList (rows : Rows) (member : String) (lock : ℤ) (list : List (ℤ × Ack)) : Prop :=
  (∀ p ∈ list, Applies rows member p) ∨ ∀ p ∈ list.takeWhile fun p => Applies rows member p,
      ¬ Changes rows member lock p

/-- The same of a batch. A type over a range takes effect on all its
records at once. -/
def Clean (rows : Rows) (member : String) (first last lock : ℤ) (types : List Ack) : Prop :=
  match types with
  | [kind] =>
    if first < last then
      kind.Asks → (∀ o ∈ series first last, Held rows member o) ∨
        ∀ o ∈ series first last, ¬ Held rows member o
    else CleanList rows member lock (ackList first last [kind])
  | types => CleanList rows member lock (ackList first last types)

end Kafgres.ShareGroup
