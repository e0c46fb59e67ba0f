import MgCommonUtils.Adlist.Dup
import MgCommonUtils.Ae.Dispatch
import MgCommonUtils.Ae.Timers
import MgCommonUtils.CountLogByIpRange.Count
import MgCommonUtils.Ebinlog.Binding
import MgCommonUtils.Ebinlog.PackedTypes
import MgCommonUtils.Ebinlog.Packets
import MgCommonUtils.Ebinlog.Recv
import MgCommonUtils.Ebinlog.Resume
import MgCommonUtils.Ebinlog.RoundTrip
import MgCommonUtils.Ebinlog.TableBounds
import MgCommonUtils.Ebinlog.Termination
import MgCommonUtils.Fat.Contents
import MgCommonUtils.Fat.Directory
import MgCommonUtils.Icq.Resources
import MgCommonUtils.Lib.Framing
import MgCommonUtils.Lib.Transition
import MgCommonUtils.Mybalancer.Cache
import MgCommonUtils.Myreplicator.Checkpoint
import MgCommonUtils.RedisCkw.Search
import MgCommonUtils.RedisProxy.Client
import MgCommonUtils.RedisProxy.Completion
import MgCommonUtils.RedisProxy.Exchange
import MgCommonUtils.RedisProxy.Grammar
import MgCommonUtils.RedisProxy.Pool
import MgCommonUtils.RedisProxy.Queues
import MgCommonUtils.RedisProxy.Wakeup
import MgCommonUtils.RedisServer.Sessions
import MgCommonUtils.RedisUuid.Loop
import MgCommonUtils.RedisUuid.Reply
import MgCommonUtils.Sock4a.Proxy
import MgCommonUtils.Tcpipe.Pool
import MgCommonUtils.Tcpipe.Tunnel
import MgCommonUtils.UMemcache.Mget
import MgCommonUtils.URedis.Fragment
import MgCommonUtils.URedis.Mget
import MgCommonUtils.URedis.Safety
import MgCommonUtils.URedis.Values
import MgCommonUtils.VectorUdf.Order
import MgCommonUtils.VectorUdf.Range
