import SqlDb.Base.Outcome
import SqlDb.Base.Lex
import SqlDb.Base.Bytes
import SqlDb.Base.OrdMap
import SqlDb.Base.Fault
import SqlDb.Storage.Node
import SqlDb.Storage.NodeProof
import SqlDb.Storage.NodeLayout
import SqlDb.Storage.BTree
import SqlDb.Storage.TreeAt
import SqlDb.Storage.Reach
import SqlDb.Storage.BTreeInsert
import SqlDb.Storage.BTreeDelete
import SqlDb.Storage.PageNumbers
import SqlDb.Storage.BTreeRun
import SqlDb.Storage.BTreeMap
import SqlDb.Storage.Requests
import SqlDb.Storage.BTreeIter
import SqlDb.Storage.Cursor
import SqlDb.Storage.BTreeShape
import SqlDb.Storage.BTreeWalk
import SqlDb.Storage.FreeList
import SqlDb.Storage.FreeListProof
import SqlDb.Storage.FreeListRun
import SqlDb.Storage.ReaderHeap
import SqlDb.Storage.File
import SqlDb.Storage.KV
import SqlDb.Storage.Version
import SqlDb.Storage.TxProof
import SqlDb.Storage.World
import SqlDb.Storage.WorldInv
import SqlDb.Storage.WorldCommit
import SqlDb.Storage.Mapping
import SqlDb.Storage.Coalesce
import SqlDb.Storage.Ownership
import SqlDb.Storage.Isolation
import SqlDb.Storage.Crash
import SqlDb.Storage.WriteCheck
import SqlDb.Storage.Restart
import SqlDb.Catalog.Value
import SqlDb.Encoding.OrderPreserving
import SqlDb.Encoding.TupleOrder
import SqlDb.Encoding.RoundTrip
import SqlDb.Storage.Program
import SqlDb.Storage.Shape
import SqlDb.Storage.ShapeAt
import SqlDb.Storage.Frame
import SqlDb.Catalog.Record
import SqlDb.Catalog.TableDef
import SqlDb.Catalog.Check
import SqlDb.Catalog.TableText
import SqlDb.Catalog.KeySpace
import SqlDb.Access.RowCodec
import SqlDb.Access.RowKey
import SqlDb.Access.Scanner
import SqlDb.Access.ScanWalk
import SqlDb.Access.Table
import SqlDb.Access.Lookup
import SqlDb.Access.ScanProof
import SqlDb.Access.TableAccess
import SqlDb.Access.TableMap
import SqlDb.Access.TableSpec
import SqlDb.Catalog.Catalog
import SqlDb.Catalog.Cache
import SqlDb.Catalog.Spaces
import SqlDb.Db.DBTX
import SqlDb.Db.Calls
import SqlDb.Db.Database
import SqlDb.Db.Tables
import SqlDb.Storage.SetReturns
import SqlDb.Storage.Roomy
import SqlDb.Access.InsertRows
import SqlDb.Db.FirstRun
import SqlDb.Db.Coherence
import SqlDb.Db.Mirror
import SqlDb.Db.TableMaps
import SqlDb.Db.Relations
import SqlDb.Ql.Expr
import SqlDb.Ql.Range
import SqlDb.Base.FirstMax
import SqlDb.Base.Regex
import SqlDb.Ql.Pins
import SqlDb.Ql.Plan
import SqlDb.Ql.Narrow
import SqlDb.Storage.ReaderHeapRun
import SqlDb.Storage.ReaderOrder
import SqlDb.Storage.FirstCommit
import SqlDb.Ql.Lexer
import SqlDb.Ql.Tokens
import SqlDb.Ql.Quote
import SqlDb.Ql.Create
import SqlDb.Ql.Exact
import SqlDb.Ql.Exec
import SqlDb.Ql.Select
import SqlDb.Ql.Statement
import SqlDb.Base.Follow
import SqlDb.Storage.Watch
import SqlDb.Storage.Pair
import SqlDb.Storage.TxPair
import SqlDb.Storage.Session
import SqlDb.Storage.Rollback
import SqlDb.Storage.InsertFits
import SqlDb.Storage.FreeListPair
import SqlDb.Storage.FreeListRevert
import SqlDb.Storage.DeleteFits
import SqlDb.Base.Precedence
import SqlDb.Base.Parsing
import SqlDb.Ql.Grammar
import SqlDb.Ql.Parser
import SqlDb.Ql.Spelling
import SqlDb.Ql.Layout
import SqlDb.Ql.Print
import SqlDb.Ql.Parsed
import SqlDb.Db.DBReader
import SqlDb.Db.Serial
import SqlDb.Db.Transactions
import SqlDb.Ql.Run
import SqlDb.Ql.Semantics
import SqlDb.Ql.Selection
import SqlDb.Ql.Reads
import SqlDb.Ql.Writes
import SqlDb.Ql.Refine
import SqlDb.Ql.Calls
import SqlDb.Ql.Session
import SqlDb.Db.Durability
