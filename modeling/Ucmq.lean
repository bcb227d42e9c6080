import Ucmq.ByteRegion
import Ucmq.FramedLog
import Ucmq.LabelledRun
import Ucmq.RetriedSwitch
import Ucmq.DecimalText
import Ucmq.Crc16
import Ucmq.StoreConfig
import Ucmq.StoreMsg
import Ucmq.StoreState
import Ucmq.StoreRtag
import Ucmq.StoreFile
import Ucmq.StoreManage
import Ucmq.QueueManage
import Ucmq.StoreInvariant
import Ucmq.ReadPath
import Ucmq.WritePath
import Ucmq.HandleFile
import Ucmq.Recovery
import Ucmq.Evhttp
import Ucmq.QueueStep
import Ucmq.OperationCases
import Ucmq.QueueSlots
import Ucmq.RequestEffect
import Ucmq.ServerRun
import Ucmq.CleanRestart
import Ucmq.FifoRefinement
import Ucmq.RotationRuns
import Ucmq.DeliveryOrder
import Ucmq.UnreadCount
import Ucmq.CursorInvariant
import Ucmq.DirectoryLayout
import Ucmq.PendingBodies
import Ucmq.ReadSwitchCrash
import Ucmq.CounterAgreement
import Ucmq.PositionLog
import Ucmq.LogGrowth
import Ucmq.GlobalCount
import Ucmq.QueuePath
import Ucmq.TextSearch
import Ucmq.MqClient
import Ucmq.ClientOperation
import Ucmq.ClientFailover
import Ucmq.ClientMessage
import Ucmq.RemoveReset
import Ucmq.ResourceOwnership
import Ucmq.OwnershipRuns
import Ucmq.SwitchSurvival
import Ucmq.PutCrash
import Ucmq.PutSurvival
import Ucmq.FailedRotation
import Ucmq.AddressReuse
import Ucmq.RtagAcceptance
import Ucmq.FrameWrite
import Ucmq.MapReads
import Ucmq.ReadTermination
import Ucmq.MapsInReach
import Ucmq.SingleReply
import Ucmq.OutputTrace
import Ucmq.PlacedLog
import Ucmq.FileWalk
import Ucmq.DamagedFrame
import Ucmq.ScanAgreement
import Ucmq.ClockDelay
import Ucmq.LastingRecord
import Ucmq.WriteLock
import Ucmq.ListingOrder
import Ucmq.NumberArgument
import Ucmq.StoreSync
import Ucmq.PeriodicSync
import Ucmq.HeaderFields
import Ucmq.FailoverVisits
import Ucmq.ReflectedCrc
import Ucmq.BitwiseCrc
import Ucmq.BurstDamage
import Ucmq.IniMap
import Ucmq.MacroExpansion
import Ucmq.IniVariables
import Ucmq.IniExpansion
import Ucmq.ExpansionRuns
import Ucmq.QnameGrammar
import Ucmq.LogTime
import Ucmq.DailyLog
import Ucmq.LinkedChain
import Ucmq.UtHash
import Ucmq.TableInvariant
import Ucmq.KeyedTable
import Ucmq.QueueTable
import Ucmq.KeptQueue
import Ucmq.KilledRuns
import Ucmq.KilledHistory
import Ucmq.QueueIsolation
import Ucmq.FailureSpec
import Ucmq.ConnectionCache
import Ucmq.SocketRuns
import Ucmq.WireReply
import Ucmq.CacheSlots
import Ucmq.ClientServer
import Ucmq.PlainWire
import Ucmq.ClientFifo
import Ucmq.LateText
import Ucmq.IniText
import Ucmq.IniSafety
import Ucmq.IniDocument
import Ucmq.IniRoundTrip
import Ucmq.ConfFile
import Ucmq.FileIo
