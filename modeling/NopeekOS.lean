import NopeekOS.Storage.Trim
import NopeekOS.Storage.BTreeCow
import NopeekOS.Storage.CacheTransparent
import NopeekOS.Security.DeadAuthority
import NopeekOS.Wasm.TrustStore
import NopeekOS.Mm.FrameRun
import NopeekOS.Mm.HeapGrow
import NopeekOS.Net.FragWatch
import NopeekOS.Net.CsumUpdate
import NopeekOS.Net.NeighRun
import NopeekOS.Net.TcpStream
import NopeekOS.Net.TcpWindowRun
import NopeekOS.Net.TcpBoardRun
import NopeekOS.Net.TcpDrs
import NopeekOS.Net.TcpRtt
import NopeekOS.Net.TcpCubicRoot
import NopeekOS.Net.FqCodelRun
import NopeekOS.Net.DhcpRun
import NopeekOS.Net.DnsCacheSide
import NopeekOS.Wifi.EapolRun
import NopeekOS.Microvm.GuestMemRun
import NopeekOS.Security.KeyvaultRace
import NopeekOS.Smp.ForkJoin
import NopeekOS.Storage.Commit
import NopeekOS.Storage.Blob
