import LedisDB.SetStores
import LedisDB.Rpl.StoresAgree
import LedisDB.WakeUps
import LedisDB.KeyCodecs
import LedisDB.StringViews
import LedisDB.BitWrites
import LedisDB.Counters
import LedisDB.BatchResults
import LedisDB.Rpl.Durability
import LedisDB.Rpl.Rotation
import LedisDB.Rpl.SlaveAcks
import LedisDB.Rpl.MasterFlush
import LedisDB.ZSetIncr
import LedisDB.SortRanges
import LedisDB.ZSetStores
import LedisDB.Server.Exchanges
import LedisDB.Server.LexRange
import LedisDB.Server.ScoreRange
import LedisDB.Server.StoreArgs
import LedisDB.Server.ListMoves
import LedisDB.RestoreFailures
import LedisDB.Rpl.LevelRuns
import LedisDB.Rpl.Stream
import LedisDB.Rpl.Opening
import LedisDB.Rpl.FailedWrites
import LedisDB.Rpl.Snapshots
import LedisDB.Views
