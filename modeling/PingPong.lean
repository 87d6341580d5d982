import PingPong.Accepting
import PingPong.ClientEnd
import PingPong.CoinQueue
import PingPong.Compaction
import PingPong.ConnLaws
import PingPong.DescriptorLaws
import PingPong.EzLaws
import PingPong.EzSlots
import PingPong.FailedUpdate
import PingPong.HostOrder
import PingPong.IoLoops
import PingPong.Limit
import PingPong.MgrLaws
import PingPong.PoolCaller
import PingPong.PoolFair
import PingPong.PoolLaws
import PingPong.PoolRetvals
import PingPong.PoolSubmit
import PingPong.Quiet
import PingPong.Sending
import PingPong.ServerDeadlock
import PingPong.ServerExact
import PingPong.ServerInternal
import PingPong.ServerStop
import PingPong.ServerUpdate
import PingPong.ProgramEnd
import PingPong.Signals
