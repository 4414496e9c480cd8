import Elio.LockfreeRingInvariant
import Elio.ConditionVariableLock
import Elio.BoundedPoolAdmission
import Elio.SemaphoreInvariant
import Elio.SharedMutexExclusion
import Elio.ObjectCacheRelease
import Elio.FileTransfer
import Elio.ServerLimits
import Elio.Redirects
import Elio.WebSocketClosing
import Elio.ResponseParser
import Elio.HandshakeTokens
import Elio.ResponseTruncation
import Elio.Router
import Elio.RpcBursts
import Elio.RpcBufferView
import Elio.ChaseLevReturns
import Elio.WorkerWakeInvariant
import Elio.ProxyConnect
import Elio.Autoscaler
import Elio.BatchCompletion
import Elio.UrlPrinting
import Elio.UrlQuery
import Elio.HeaderViews
import Elio.WebSocketDelivery
