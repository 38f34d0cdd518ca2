import Mowgli.Base.Bitvector
import Mowgli.Base.Formatter
import Mowgli.Base.Formatter.Decimal
import Mowgli.Base.Hook
import Mowgli.Base.Memslice.Usable
import Mowgli.Base.Random.Ranged
import Mowgli.Container.Dictionary.Cursor
import Mowgli.Container.Dictionary.Ptrdiff
import Mowgli.Container.Index.Allocate
import Mowgli.Container.List.Sort
import Mowgli.Container.Patricia.NoMemory
import Mowgli.Container.Patricia.Order
import Mowgli.Container.Queue.Handle
import Mowgli.Container.ShortCircuit
import Mowgli.Core.Heap.Contents
import Mowgli.Core.Heap.Pages
import Mowgli.Core.MowgliString.Buffer
import Mowgli.Dns.EvloopRes.Matching
import Mowgli.Dns.EvloopRes.Records
import Mowgli.Dns.EvloopRes.Sending
import Mowgli.Dns.EvloopReslib.Reverse
import Mowgli.Dns.TimeoutResolver
import Mowgli.Eventloop.Pollable.Foreign
import Mowgli.Eventloop.Pollable.KqueueSelect
import Mowgli.Eventloop.Pollable.Ports
import Mowgli.Eventloop.Pollable.Rearm
import Mowgli.Eventloop.Pollable.EpollBackend
import Mowgli.Eventloop.Timer.Deadline
import Mowgli.Eventloop.Timer.Period
import Mowgli.Eventloop.Timer.Terminates
import Mowgli.Ext.Confparse.LineNumbers
import Mowgli.Ext.Confparse.Release
import Mowgli.Ext.Confparse.Words
import Mowgli.Ext.Json.Acceptance
import Mowgli.Ext.Json.Counted
import Mowgli.Ext.Json.Counts
import Mowgli.Ext.Json.Exact
import Mowgli.Ext.Json.Height
import Mowgli.Ext.Json.Lockstep
import Mowgli.Ext.Json.Mirror
import Mowgli.Ext.Json.Numbers
import Mowgli.Ext.Json.RoundTrip
import Mowgli.Ext.Json.Scan
import Mowgli.Ext.Json.Serializer
import Mowgli.Ext.Json.Slips
import Mowgli.Ext.Json.Strings
import Mowgli.Ext.Json.Text
import Mowgli.Ext.ProgramOpts.Plain
import Mowgli.Library.Owned
import Mowgli.Linebuf.Peers
import Mowgli.Linebuf.Resize
import Mowgli.Object.Message
import Mowgli.Object.Metadata
import Mowgli.Object.Registry
import Mowgli.Vio.Runs
