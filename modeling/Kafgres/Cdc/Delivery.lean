/-
What the drains are to guarantee, over the journal.

A change that a committed step has rendered is settled: a record if its
mapping's filter keeps it and nothing if not, or a dead letter. A change
is only seen when the step was rolled back under it.
-/
import Kafgres.Cdc.Drain
import Kafgres.Lib.Ledger

namespace Kafgres.Cdc

variable {n : ℕ}

def Seen (journal : List (Entry n)) (lane : Fin n) (p : Pos) : Prop :=
  ∃ e ∈ journal, e.lane = lane ∧ e.pos = p

def Settled (cfg : Config n) (journal : List (Entry n)) (lane : Fin n) (p : Pos) : Prop :=
  ∃ e ∈ journal, e.lane = lane ∧ e.pos = p ∧
    (e.verdict = .ofFilter (cfg.keeps lane p) ∨ e.verdict = .dead)

/-- Nothing is produced that its mapping's filter leaves out, and nothing
left out that it keeps. -/
def Filtered (cfg : Config n) (journal : List (Entry n)) : Prop :=
  ∀ e ∈ journal, e.verdict = .produced ∨ e.verdict = .passed →
    e.verdict = .ofFilter (cfg.keeps e.lane e.pos)

/-- The slot is not past a change that is not settled. -/
def Kept (cfg : Config n) (st : Stream) (s : System n) : Prop :=
  ∀ lane p, Due cfg st lane p → p.endLsn ≤ s.slot → Settled cfg s.journal lane p

/-- A change is produced after every earlier change of its mapping has
been rendered. -/
def InOrder (cfg : Config n) (st : Stream) (journal : List (Entry n)) : Prop :=
  Ledger.Justified (fun pre e => e.verdict = .produced →
    ∀ p, Due cfg st e.lane p → p < e.pos → Seen pre e.lane p) journal

/-- A summary is produced after every change of its transaction and of
those before it is settled on every table mapping. -/
def SummariesLast (cfg : Config n) (st : Stream) (journal : List (Entry n)) : Prop :=
  Ledger.Justified (fun pre e => e.verdict = .produced → (cfg.mapping e.lane).summary = true →
      ∀ lane p, (cfg.mapping lane).summary = false → Due cfg st lane p →
        p.endLsn ≤ e.pos.endLsn → Settled cfg pre lane p) journal

/-- The productions of a lane, each change at its first. -/
def firstProductions (journal : List (Entry n)) (lane : Fin n) : List Pos :=
  ((journal.filter fun e => e.lane = lane ∧ e.verdict = .produced).map (·.pos)).eraseDups

/-- What the journal says of a change on a lane. -/
def entriesOf (journal : List (Entry n)) (lane : Fin n) (p : Pos) : List (Entry n) :=
  journal.filter fun e => e.lane = lane ∧ e.pos = p

/-- A step that does not fail. -/
structure Outcome.Fine (o : Outcome) : Prop where
  ok : o.ok = true
  topic : o.topic = true
  batch : o.batch = true
  append : ∀ k, o.append k = .appended
  advances : o.advances = true

/-- A drain in which nothing fails. -/
structure Drainage.Fine (a : Drainage) : Prop where
  unbroken : a.broken = none
  steps : ∀ i, (a.world i).Fine

/-- Every shape in the stream, and that of a summary, parses. -/
structure Config.Readable (cfg : Config n) (st : Stream) : Prop where
  changes : ∀ t ∈ st.txs, ∀ c ∈ t.changes, cfg.readable c.2.cols = true
  summary : cfg.readable "[]" = true

end Kafgres.Cdc
