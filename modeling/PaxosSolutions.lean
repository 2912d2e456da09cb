import PaxosSolutions.Paxos.Acceptor
import PaxosSolutions.Session.Retention
import PaxosSolutions.Session.Binding
import PaxosSolutions.Session.RoundTrip
import PaxosSolutions.PFS.TryLock
import PaxosSolutions.Session.Accept
import PaxosSolutions.Session.Progress
import PaxosSolutions.PFS.DlgHolders
import PaxosSolutions.PFS.DlgOwner
import PaxosSolutions.Cache.WriteThrough
import PaxosSolutions.Cache.BlockSums
import PaxosSolutions.FileCache.Access
import PaxosSolutions.FileCache.FlushAll
import PaxosSolutions.PFS.ServiceSafe
import PaxosSolutions.PFS.EventRefs
import PaxosSolutions.PFS.Post
import PaxosSolutions.XjPing.RecWait
import PaxosSolutions.XjPing.Sort
import PaxosSolutions.XjPing.FindRun
import PaxosSolutions.XjPing.InsertDistinct
import PaxosSolutions.XjPing.SqlLexRun
import PaxosSolutions.XjPing.SqlParams
import PaxosSolutions.XjPing.SwapTransparent
import PaxosSolutions.XjPing.TableHistory
import PaxosSolutions.VV.LockRequest
import PaxosSolutions.VV.Stripes
import PaxosSolutions.VV.ReqIo
import PaxosSolutions.VV.CowRun
import PaxosSolutions.NWGadget.GElmShare
import PaxosSolutions.Session.Events
import PaxosSolutions.Paxos.AliveLocal
import PaxosSolutions.Paxos.Firing
import PaxosSolutions.NWGadget.TimerKept
import PaxosSolutions.NWGadget.BTreeHeight
import PaxosSolutions.NWGadget.BTreeSteps
import PaxosSolutions.NWGadget.BTreeDrain
import PaxosSolutions.Memcache.AttrFile
import PaxosSolutions.Memcache.FramesRight
import PaxosSolutions.XjPing.TblLayoutExact
import PaxosSolutions.Lib.Buckets
import PaxosSolutions.NWGadget.CksumParts
import PaxosSolutions.NWGadget.DHash
import PaxosSolutions.NWGadget.LogRing
import PaxosSolutions.NWGadget.MsgOwner
import PaxosSolutions.Lib.Tiles
import PaxosSolutions.Memcache.Clone
import PaxosSolutions.NWGadget.HeapBlocks
import PaxosSolutions.NWGadget.HeapPool
import PaxosSolutions.NWGadget.HeapRealloc
import PaxosSolutions.NWGadget.GElmFlush
import PaxosSolutions.Paxos.SlotWrap
import PaxosSolutions.Paxos.Pairing
import PaxosSolutions.XjPing.SqlGetnode
import PaxosSolutions.Paxos.Transfer
