import Revalle.Ipc.QueueFifo
import Revalle.Ipc.QueueWakeup
import Revalle.Ipc.Mem.PageStackSafety
import Revalle.Ipc.StoreMapCount
import Revalle.Sbuf.SBufPrograms
import Revalle.Acl.DomainData
import Revalle.Http.Framing
import Revalle.Http.One.TeChunkedParser
import Revalle.Rock.RoundTrip
import Revalle.ControlPlane.GeoRouter
import Revalle.ControlPlane.UserQuota
import Revalle.ControlPlane.UserUsage
import Revalle.ControlPlane.Database
import Revalle.ControlPlane.IpManager
import Revalle.Base.ClpMapHistory
import Revalle.Http.HeaderInvariant
import Revalle.Stmem.History
import Revalle.ControlPlane.AuditHistory
import Revalle.ControlPlane.ProxyRetries
import Revalle.ControlPlane.ProxyTunnel
import Revalle.ControlPlane.ApiKeyLimits
import Revalle.ControlPlane.SessionHistory
import Revalle.ControlPlane.AuthMiddleware
import Revalle.ControlPlane.BackupRestore
import Revalle.ControlPlane.DatabaseShutdown
import Revalle.Helper.ReplyCuts
import Revalle.Helper.Requests
import Revalle.Helper.StatefulSelection
import Revalle.Auth.DigestHistory
import Revalle.Acl.AsyncLoop
import Revalle.Ipc.StoreMapLimits
import Revalle.Http.ContentLengthVerdict
import Revalle.Http.QuotedString
import Revalle.MemStore
import Revalle.DelayBucket
import Revalle.LruPurge
import Revalle.Rfc1738
import Revalle.SquidMath
import Revalle.Acl.Ip
import Revalle.ControlPlane.NodeRemoval
import Revalle.ControlPlane.RateLimiter
import Revalle.Transients
import Revalle.Ipc.ReadWriteLockSafety
