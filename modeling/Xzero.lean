import Xzero.Executor.LocalExecutor
import Xzero.Executor.ThreadPool
import Xzero.Executor.Watchers
import Xzero.Flow.Interpolation
import Xzero.Flow.Ir.Bookkeeping
import Xzero.Flow.Operators
import Xzero.Flow.Transform.EmptyBlockElimination
import Xzero.Flow.Transform.InstructionElimination
import Xzero.Flow.Transform.MergeBlockPass
import Xzero.Http.Channel
import Xzero.Http.Client.Accounting
import Xzero.Http.Client.Load
import Xzero.Http.Client.Scheduling
import Xzero.Http.FastCgi.ResponseParser
import Xzero.Http.FastCgi.Transport
import Xzero.Http.Hpack.RoundTrip
import Xzero.Http.Http1.Progress
import Xzero.Http.Http1.RoundTrip
import Xzero.Http.Http2.DataFrames
import Xzero.Http.Http2.Priority
import Xzero.Http.Multipart
import Xzero.Http.Traversal
import Xzero.Io.DataChain
import Xzero.Io.HugeBuffer
import Xzero.Net.Cidr
import Xzero.Raft.Completeness
import Xzero.Raft.Indices
import Xzero.Raft.Reply
import Xzero.Raft.Round
import Xzero.Raft.Terms
import Xzero.Raft.Wire
import Xzero.Thread.Future
import Xzero.TokenShaper.Ceilings
import Xzero.Util.Base64
import Xzero.Util.IniFile
import Xzero.Util.UnixTime
import Xzero.Util.Uri
import Xzero.Util.Utf8
