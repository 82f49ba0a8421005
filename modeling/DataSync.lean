import DataSync.Binlog.Decimal
import DataSync.Binlog.MyTime
import DataSync.Binlog.Bitmap
import DataSync.Binlog.Field
import DataSync.Binlog.LogEvent
import DataSync.Binlog.ParseLogEntry
import DataSync.Client.MysqlOperation
import DataSync.Lib.Runs
import DataSync.Queue.HandOff
import DataSync.Net.Framing
import DataSync.Client.UpdateOrder
import DataSync.Binlog.DecimalText
import DataSync.Server.SocketServer
import DataSync.Binlog.FieldFormat
import DataSync.Binlog.RowImage
import DataSync.Binlog.Alignment
import DataSync.Binlog.RowsFormat
import DataSync.Binlog.UpdateImages
import DataSync.Binlog.RoundTrip
import DataSync.Binlog.TableNames
import DataSync.Binlog.EventStream
import DataSync.Server.Handshake
import DataSync.Server.Registered
import DataSync.Server.Registration
import DataSync.Binlog.Files
import DataSync.Binlog.Addresses
import DataSync.Binlog.Tailing
import DataSync.Binlog.Batches
import DataSync.Binlog.PostHeaders
import DataSync.Client.MyslqQueue
import DataSync.Lib.Tiling
import DataSync.Client.IncrementExport
import DataSync.Lib.Reading
import DataSync.Net.Fragmentation
import DataSync.Binlog.Dispatch
import DataSync.Client.PutMessageQueue
import DataSync.Client.Pairing
import DataSync.Lib.Conditions
import DataSync.Queue.SharedCondition
import DataSync.Queue.Consumers
import DataSync.Client.BuildFinally
import DataSync.Lib.Literals
import DataSync.Client.SqlLiterals
import DataSync.Binlog.FieldSize
import DataSync.Binlog.FieldValues
import DataSync.Binlog.TableMap
import DataSync.Binlog.TableIndex
import DataSync.Lib.Loop
import DataSync.Binlog.FieldReads
import DataSync.Binlog.RowsBounds
import DataSync.Binlog.RowLoop
import DataSync.Binlog.EventBounds
import DataSync.Binlog.StatusVars
import DataSync.Binlog.HeaderScan
import DataSync.Net.ClosedConnection
import DataSync.Server.ErpListener
import DataSync.Client.Assignments
import DataSync.Binlog.BinlogMonitor
import DataSync.Lib.LastWrite
import DataSync.Binlog.TableLookup
import DataSync.Client.StoredTime
import DataSync.Binlog.NullWidth
import DataSync.Server.StoreList
import DataSync.Client.JsonReader
import DataSync.Client.FastWriter
import DataSync.Client.MessageText
import DataSync.Lib.BlockHash
import DataSync.Client.Md5
import DataSync.Client.PreBinlog
import DataSync.Server.Upload
import DataSync.Server.ExportUpload
import DataSync.Server.ExceptionLoop
import DataSync.Server.Config
import DataSync.Binlog.FullImages
import DataSync.Binlog.QueryFormat
import DataSync.Binlog.WrittenLog
