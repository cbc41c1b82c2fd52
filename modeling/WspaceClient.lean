import WspaceClient.FullBuffer
import WspaceClient.RawAck
import WspaceClient.Batches
import WspaceClient.CodeHeader
import WspaceClient.RawReports
import WspaceClient.Isolation
import WspaceClient.NackList
import WspaceClient.Lengths
import WspaceClient.DataAck
import WspaceClient.Radios
import WspaceClient.AckPoint
import WspaceClient.AckAssert
import WspaceClient.GiveUps
import WspaceClient.Loops
import WspaceClient.WindowTests
import WspaceClient.GpsParser
import WspaceClient.CatchUp
import WspaceClient.Repeats
import WspaceClient.Singular
import WspaceClient.Unrolled
import WspaceClient.RawThreads
import WspaceClient.Options
import WspaceClient.Uplink
