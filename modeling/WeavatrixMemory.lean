import WeavatrixMemory.Projection.Revisions
import WeavatrixMemory.Projection.Owned
import WeavatrixMemory.Projection.Collisions
import WeavatrixMemory.Projection.Views
import WeavatrixMemory.Projection.Supersession
import WeavatrixMemory.Store.Clients
import WeavatrixMemory.Store.Subscription
import WeavatrixMemory.Context.Receipt
import WeavatrixMemory.Snapshot.Stores
import WeavatrixMemory.Snapshot.Updates
import WeavatrixMemory.Extraction.Aliases
import WeavatrixMemory.Extraction.Repetition
import WeavatrixMemory.Context.Fusion
import WeavatrixMemory.Store.Checksum
import WeavatrixMemory.Store.Durable
import WeavatrixMemory.Snapshot.Delimiting
import WeavatrixMemory.Codecs.Binding
import WeavatrixMemory.GraphAttributes
import WeavatrixMemory.Analytics.Checkpoints
import WeavatrixMemory.Analytics.Savings
import WeavatrixMemory.Analytics.Converging
import WeavatrixMemory.Analytics.Past
import WeavatrixMemory.Evaluation.Exactness
import WeavatrixMemory.Context.Retrieved
import WeavatrixMemory.Context.Texts
import WeavatrixMemory.Context.Whole
import WeavatrixMemory.Snapshot.Consuming
import WeavatrixMemory.Snapshot.Restart
import WeavatrixMemory.Snapshot.Canonical
import WeavatrixMemory.Extraction.Ingesting
import WeavatrixMemory.Extraction.Replicas
