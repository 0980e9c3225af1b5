import Nbio.Http.Pipeline
import Nbio.Http.Canonical
import Nbio.Http.Chunked
import Nbio.Http.BufferUse
import Nbio.Http.Framing
import Nbio.Http.ReadLoop
import Nbio.Http.Upgrade
import Nbio.Net.Writev
import Nbio.Net.Poller
import Nbio.Net.Jobs
import Nbio.Net.Oneshot
import Nbio.Taskpool.Pool
import Nbio.Websocket.Grammar
import Nbio.Client.Ownership
import Nbio.Client.Answers
import Nbio.Client.HostConns
import Nbio.Go.Slice
import Nbio.Net.Backlog
import Nbio.Http.Closing
import Nbio.Http.Serve
import Nbio.Mempool.Aligned
import Nbio.Net.Close
import Nbio.Taskpool.Stop
import Nbio.Websocket.Compression
import Nbio.Websocket.Emission
import Nbio.Http.Bodyless
import Nbio.Http.ReadFrom
import Nbio.Lmux.Accounting
import Nbio.Net.Dial
import Nbio.Net.WaitGroup
import Nbio.Client.ReadDeadline
import Nbio.Http.Bounds
import Nbio.Http.Calls
import Nbio.Http.HeaderNames
import Nbio.Http.ReadLimit
import Nbio.Http.ResponseTrailers
import Nbio.Http.StatusLine
import Nbio.Http.TrailerSection
import Nbio.Net.Accounting
import Nbio.Net.FlushReturns
import Nbio.Lib.Log
import Nbio.Http.Body
import Nbio.Net.Hangup
import Nbio.Net.ReadBuffers
import Nbio.Net.Sendfile
import Nbio.Net.Udp
import Nbio.Websocket.CloseStatus
import Nbio.Websocket.DataFrames
import Nbio.Websocket.FrameLength
import Nbio.Websocket.MessageLimit
import Nbio.Websocket.QueueFull
import Nbio.Websocket.Extensions
import Nbio.Websocket.Truncation
