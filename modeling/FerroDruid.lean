import FerroDruid.Aggregator.BloomMerge
import FerroDruid.Aggregator.CardinalityExact
import FerroDruid.Aggregator.FirstLastMerge
import FerroDruid.Broker.GroupKey
import FerroDruid.Broker.ScanWindow
import FerroDruid.Broker.TopNGather
import FerroDruid.Cluster.ChunkResume
import FerroDruid.Cluster.Commit
import FerroDruid.Cluster.Idempotence
import FerroDruid.Cluster.PreVote
import FerroDruid.Cluster.Recovery
import FerroDruid.Compression.RoundTrip
import FerroDruid.Coordinator.Exactness
import FerroDruid.Coordinator.RuleChain
import FerroDruid.Dict.PrefixRange
import FerroDruid.Dict.RandomAccess
import FerroDruid.Historical.SpillSafety
import FerroDruid.Ingest.Delimited
import FerroDruid.Ingest.RollupAnswers
import FerroDruid.Ingest.Truncation
import FerroDruid.Kafka.AtLeastOnce
import FerroDruid.Kafka.EosSafety
import FerroDruid.Kafka.Progress
import FerroDruid.Kafka.RestoreSafety
import FerroDruid.Kafka.ResumePoint
import FerroDruid.Kinesis.RowOrder
import FerroDruid.Msq.Fleet
import FerroDruid.Msq.RangeSort
import FerroDruid.Overlord.Glob
import FerroDruid.Overlord.LockSafety
import FerroDruid.Overlord.ReplaceVictims
import FerroDruid.Query.BucketFloor
import FerroDruid.Query.FilterExact
import FerroDruid.Query.NestedLoop
import FerroDruid.Query.PrunedRange
import FerroDruid.Query.WindowAgreement
import FerroDruid.Query.WindowFrames
import FerroDruid.Segment.NativeLongsRoundTrip
import FerroDruid.Segment.Reopen
import FerroDruid.Sketches.HyperUniqueImages
import FerroDruid.Sketches.ThetaRoundTrip
import FerroDruid.Sql.AliasFaithful
import FerroDruid.Sql.HavingMeaning
import FerroDruid.Sql.LikePattern
