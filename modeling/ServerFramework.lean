import ServerFramework.ByteArray.Flat
import ServerFramework.ByteArray.Positional
import ServerFramework.ByteArray.Files
import ServerFramework.ByteArray.Oversized
import ServerFramework.Timer.Report
import ServerFramework.Timer.Period
import ServerFramework.Fiber.HandOver
import ServerFramework.Fiber.TaskFlow
import ServerFramework.Fiber.Context
import ServerFramework.IOManager.Accounting
import ServerFramework.IOManager.Dispatch
import ServerFramework.IOManager.ContextTable
import ServerFramework.IOManager.Stop
import ServerFramework.IOManager.Wakeup
import ServerFramework.IOManager.EpollWait
import ServerFramework.Hook.DoIo
import ServerFramework.Hook.FdManager
import ServerFramework.Hook.WakeUps
import ServerFramework.Hook.SockOpt
import ServerFramework.Hook.Connect
import ServerFramework.Hook.Retry
import ServerFramework.Socket.Bind
import ServerFramework.Socket.TcpServer
import ServerFramework.Socket.Timeout
import ServerFramework.Config.ConfigVar
import ServerFramework.Config.Listeners
import ServerFramework.Log.PatternItems
import ServerFramework.Address.IPv4
import ServerFramework.Address.IPv6
import ServerFramework.Address.Resolve
import ServerFramework.Address.Order
import ServerFramework.Log.PatternErrors
import ServerFramework.Config.LexicalCast
import ServerFramework.Util.UrlCodec
import ServerFramework.Util.Trim
import ServerFramework.Config.LoadFromConfDir
import ServerFramework.Config.FromString
import ServerFramework.Util.Rm
import ServerFramework.Util.Files
import ServerFramework.Util.Listing
import ServerFramework.Util.Directories
import ServerFramework.Env.Arguments
import ServerFramework.Env.Thread
import ServerFramework.Env.Mutex
import ServerFramework.Util.Stream
import ServerFramework.Log.FileLogAppender
import ServerFramework.Log.LoggerManager
