import EasyLsm.DataStores.Memtable
import EasyLsm.DataStores.WalRecovery
import EasyLsm.DataStores.SstableRead
import EasyLsm.AtomicUpdate.Reservation
import EasyLsm.AtomicUpdate.TmpFile
import EasyLsm.AtomicUpdate.Serial
import EasyLsm.WritePath.Tickets
import EasyLsm.WritePath.Coverage
import EasyLsm.DataStores.SstableSearch
import EasyLsm.WritePath.Groups
import EasyLsm.Lib.Pipeline
import EasyLsm.WritePath.GroupCommit
import EasyLsm.Lib.Versions
import EasyLsm.Db.Disjoint
import EasyLsm.Db.Reading
import EasyLsm.WritePath.Arrival
import EasyLsm.Db.Put
import EasyLsm.Db.FlushCrash
import EasyLsm.Db.CompactCrash
import EasyLsm.Db.Iterators
import EasyLsm.Db.Mirror
import EasyLsm.Db.Shutdown
import EasyLsm.Db.Collect
import EasyLsm.Lib.Merge
import EasyLsm.Db.Restart
import EasyLsm.Db.Alignment
import EasyLsm.Db.TableIds
import EasyLsm.Db.Reopened
import EasyLsm.Db.Survival
import EasyLsm.Db.NextLsn
import EasyLsm.Structural.MutableLog
