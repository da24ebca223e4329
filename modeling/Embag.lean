import Embag.MessageIndices
import Embag.MessageReads
import Embag.MessageCycles
import Embag.MessageDefComments
import Embag.MessageDefLanguage
import Embag.BagRoundTrip
import Embag.ViewTopics
import Embag.BagQueries
import Embag.BagSlices
import Embag.HeaderReaders
import Embag.ViewCounts
import Embag.ViewRanges
import Embag.ChunkSizes
import Embag.ViewFailures
import Embag.SchemaCache
import Embag.ViewConnections
import Embag.ArrayBlobs
import Embag.SchemaWalk
import Embag.TypeResolution
import Embag.ViewTimes
import Embag.TimeValues
import Embag.ObjectIterators
import Embag.BagSubscripts
import Embag.Library.Tiles
import Embag.ParserEvents
import Embag.VectorLayout
import Embag.ValueCells
import Embag.ValueLifetimes
import Embag.Library.Interference
import Embag.ViewReaders
import Embag.MessageTexts
import Embag.RosMessages
import Embag.TypedBags
import Embag.EmbagEcho
import Embag.PyMessages
import Embag.PyBags
import Embag.MessageAccepted
import Embag.ViewOrders
import Embag.PySchemas
import Embag.DamagedBags
