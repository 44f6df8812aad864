import Ledger.Core.Commitment
import Ledger.Core.Tampering
import Ledger.Core.Positions
import Ledger.Core.Recovery
import Ledger.Core.Integrity
import Ledger.Core.Replies
import Ledger.Core.WriteFailure
import Ledger.Core.Boot
import Ledger.Core.Restarts
import Ledger.Core.Server
import Ledger.Core.Shutdown
import Ledger.Core.LiveFeed
import Ledger.Backend.Polling
import Ledger.Backend.Cursor
import Ledger.Core.WriteQueue
import Ledger.Frontend.Panel
import Ledger.Backend.Replacement
import Ledger.Backend.Relay
import Ledger.Core.Verdict
import Ledger.Core.Ranges
import Ledger.Backend.BrowserQueue
import Ledger.Frontend.Isolation
import Ledger.Backend.Sensors
import Ledger.Backend.Overlap
import Ledger.Frontend.LastSeen
import Ledger.Frontend.Gauge
import Ledger.Core.Config
import Ledger.Frontend.Chart
import Ledger.Backend.Enrichment
import Ledger.Backend.Feed
import Ledger.Frontend.Query
import Ledger.Frontend.Messages
import Ledger.Frontend.Reducer
import Ledger.System.AtomicLog
import Ledger.Core.Linearizability
import Ledger.Core.Process
import Ledger.Core.Connections
import Ledger.Backend.Devices
import Ledger.System.Reconnect
import Ledger.Frontend.BlockStream
import Ledger.Frontend.Connected
import Ledger.Backend.FeedTask
import Ledger.System.LatestRequest
import Ledger.Backend.Series
import Ledger.Frontend.Requests
import Ledger.Backend.Sockets
import Ledger.Core.Signals
import Ledger.Frontend.Options
import Ledger.Frontend.CameraPane
