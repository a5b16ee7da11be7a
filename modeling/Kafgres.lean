import Kafgres.Access.Proofs.Gate
import Kafgres.Access.Proofs.Rules
import Kafgres.Broker.Proofs.Ack
import Kafgres.Broker.Proofs.Replies
import Kafgres.Broker.Proofs.Start
import Kafgres.Cdc.Proofs.Buffered
import Kafgres.Cdc.Proofs.Delivery
import Kafgres.ClassicGroup.Proofs.OneList
import Kafgres.Codec.Framing
import Kafgres.ConsumerGroup.Proofs.Balance
import Kafgres.Fetch.Proofs.Scan
import Kafgres.LeaderEpoch.Proofs.Raise
import Kafgres.LeaderEpoch.Proofs.Timeline
import Kafgres.Offsets.Proofs.RoundTrip
import Kafgres.Produce.Proofs.Undo
import Kafgres.ProduceSql.Proofs.Lso
import Kafgres.ProduceSql.Proofs.Savepoint
import Kafgres.Producer.Proofs.Window
import Kafgres.Replication.Proofs.Agreement
import Kafgres.Segment.Proofs.Casts
import Kafgres.Segment.Proofs.Hints
import Kafgres.Segment.Proofs.Recover
import Kafgres.Segment.Proofs.Retention
import Kafgres.Segment.Proofs.Truncate
import Kafgres.ShareGroup.Proofs.StartOffset
import Kafgres.Standby.Proofs.Compacted
import Kafgres.Storage.Proofs.SlotTable
import Kafgres.Txn.Proofs.Outcome
import Kafgres.TxnTables.Proofs.Retry
import Kafgres.Writers.Proofs.Control
