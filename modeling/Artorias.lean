import Artorias.TimeoutPass
import Artorias.ParserLive
import Artorias.RedisConns
import Artorias.RedisChunks
import Artorias.BuddyRuns
import Artorias.BytesRead
import Artorias.TravelVisits
import Artorias.SocketSend
import Artorias.ConnPool
import Artorias.AcceptFds
import Artorias.LuaAlloc
import Artorias.SlotBounds
import Artorias.ServerChannel
import Artorias.DlistRuns
import Artorias.RbFind
import Artorias.ThreadTids
import Artorias.MwServerRuns
import Artorias.RedisServer
import Artorias.RedisUsersRuns
import Artorias.SocketEvRuns
import Artorias.SocketWaitRuns
import Artorias.LmBytes
import Artorias.LuaPconf
