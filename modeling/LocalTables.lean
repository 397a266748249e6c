import LocalTables.TableFile.Crash
import LocalTables.Columnar.Zorder
import LocalTables.TableFile.Fallback
import LocalTables.TableFile.Retry
import LocalTables.TableFile.Transaction
import LocalTables.TableFile.Conserve
import LocalTables.Table.Isolation
import LocalTables.Table.Views
import LocalTables.Table.Changes
import LocalTables.Table.Typed
import LocalTables.Sql.Update
import LocalTables.Sql.Scan
import LocalTables.Sql.Exec
import LocalTables.Sql.Statistics
import LocalTables.Sql.Wanted
import LocalTables.Sql.Filters
import LocalTables.Table.Layouts
import LocalTables.Table.Faults
import LocalTables.Table.Compaction
import LocalTables.Table.Traffic
import LocalTables.Table.Rewriting
import LocalTables.Table.Deletes
import LocalTables.Table.Runs
import LocalTables.Table.Casts
import LocalTables.Table.Columns
import LocalTables.Table.KeptRows
import LocalTables.Table.ReadOnly
import LocalTables.Wal.Recover
import LocalTables.Wal.Appends
import LocalTables.Wal.Rotate
import LocalTables.Io.Answers
import LocalTables.Columnar.Seqnos
import LocalTables.Columnar.Damage
import LocalTables.Columnar.Layout
import LocalTables.Columnar.Building
import LocalTables.Layout.Batchcodec
import LocalTables.Columnar.Fetch
import LocalTables.Table.Durability
import LocalTables.Table.Registry
import LocalTables.Io.Mappings
import LocalTables.Columnar.Sizing
import LocalTables.Table.Budget
import LocalTables.Table.Evolution
import LocalTables.Lib.Crossed
import LocalTables.Io.ByteMedia
import LocalTables.Columnar.Across
import LocalTables.Table.Candidates
import LocalTables.Columnar.Types
import LocalTables.Table.Bytes
