import Datarail.Kafka.Claims
import Datarail.Kafka.Retry
import Datarail.Kafka.Interleaving
import Datarail.Kafka.Visibility
import Datarail.Ingest.ExactlyOnce
import Datarail.Terminal.EndToEnd
import Datarail.Wal.AtLeastOnce
import Datarail.Groups.Agreement
import Datarail.Replaylog.Damage
import Datarail.Offsets.Faults
import Datarail.Kafka.ProduceOutcomes
import Datarail.Kafka.Connection
import Datarail.Cofre.Canonical
import Datarail.Manifest.Receipts
import Datarail.Tieredlog.Gaps
import Datarail.Topics.Alignment
import Datarail.Replication.Overwrite
import Datarail.Netblob.Equivalence
import Datarail.Substrate.ShmemFifo
import Datarail.Substrate.StreamFifo
import Datarail.ReliableUdp.Holes
import Datarail.Once.Faults
import Datarail.Groups.Registration
import Datarail.Ingest.Landing
import Datarail.Replaylog.Truncation
import Datarail.Ingest.Names
import Datarail.Topics.Routing
