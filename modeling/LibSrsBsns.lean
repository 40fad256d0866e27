import LibSrsBsns.Foundations.C.Runs
import LibSrsBsns.Foundations.C.Buffer
import LibSrsBsns.PtrList.Cursor
import LibSrsBsns.StrList.Ownership
import LibSrsBsns.HashMap.Bindings
import LibSrsBsns.HashMap.FailedPut
import LibSrsBsns.RingBuf.Queue
import LibSrsBsns.Heap.PriorityQueue
import LibSrsBsns.Bintree.Balance
import LibSrsBsns.Foundations.Data.AssocList
import LibSrsBsns.Deque.Sequence
import LibSrsBsns.Dynarr.LastWritten
import LibSrsBsns.Graph.Edges
import LibSrsBsns.Graph.StackOrder
import LibSrsBsns.Bufrd.Conservation
import LibSrsBsns.Bufrd.EndOfFile
import LibSrsBsns.Bufrd.Lines
import LibSrsBsns.Addr.Sockaddr
import LibSrsBsns.Heap.FailedGrowth
import LibSrsBsns.RingBuf.Capacity
import LibSrsBsns.Deque.Growth
import LibSrsBsns.Io.Lines
import LibSrsBsns.Io.Write
import LibSrsBsns.Addr.Sockets
import LibSrsBsns.Misc.Arguments
import LibSrsBsns.Deque.Bias
import LibSrsBsns.Log.Config
import LibSrsBsns.Deque.Footprint
import LibSrsBsns.RingBuf.Footprint
import LibSrsBsns.Heap.Footprint
import LibSrsBsns.Bufrd.Footprint
import LibSrsBsns.Bintree.Leaks
import LibSrsBsns.Bintree.Cursor
import LibSrsBsns.HashMap.Ownership
import LibSrsBsns.Io.RoundTrip
import LibSrsBsns.StrList.Texts
import LibSrsBsns.StrMap.Bindings
import LibSrsBsns.Log.History
import LibSrsBsns.Io.Ready
import LibSrsBsns.Addr.Bind
import LibSrsBsns.Log.Thresholds
import LibSrsBsns.Misc.Concat
import LibSrsBsns.PtrList.Leaks
import LibSrsBsns.Graph.Stale
import LibSrsBsns.Addr.Endpoint
