import ZLog.Lib.Transition
import ZLog.Mapping.MapTo
import ZLog.Mapping.Wrap
import ZLog.Mapping.Convergence
import ZLog.Storage.Ram
import ZLog.Storage.Slot
import ZLog.Client.BackendCalls
import ZLog.Client.Control
import ZLog.Client.Waits
import ZLog.Client.Winning
import ZLog.Client.Alone
import ZLog.Lib.Loop
import ZLog.Client.CreateOrOpen
import ZLog.Storage.Agree
import ZLog.Storage.LifeCycle
import ZLog.Storage.CephAgree
import ZLog.Storage.HighWater
import ZLog.Storage.Listing
import ZLog.Storage.ClsCases
import ZLog.Storage.TrimLimits
import ZLog.Storage.ByteStream
import ZLog.System.Agreement
import ZLog.System.Creation
import ZLog.System.Draws
import ZLog.System.Elections
import ZLog.System.Launch
import ZLog.System.Tops
import ZLog.System.Appends
import ZLog.System.Owners
import ZLog.System.Pending
import ZLog.System.ReadOnly
import ZLog.System.Sequencers
import ZLog.System.TrimContract
import ZLog.System.TrimToEnds
import ZLog.System.UniqueIds
import ZLog.System.ViewOrder
import ZLog.Storage.ViewStores
import ZLog.Lib.Tickets
import ZLog.System.Sessions
import ZLog.System.Gapless
import ZLog.System.RealTime
import ZLog.Client.KeySpace
import ZLog.Client.OpQueue
import ZLog.Client.Expander
import ZLog.Lib.IndexedList
import ZLog.Cache.Basic
import ZLog.Cache.Lru
import ZLog.Cache.Arc
import ZLog.System.Aborts
import ZLog.System.Atomic
import ZLog.System.Sequential
import ZLog.System.OnLmdb
import ZLog.Client.Draining
import ZLog.System.Returning
