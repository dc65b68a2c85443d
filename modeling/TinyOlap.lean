import TinyOlap.Library.Lists
import TinyOlap.Library.BlockLayout
import TinyOlap.Library.LittleEndian
import TinyOlap.Library.MachineInt
import TinyOlap.Library.Ieee
import TinyOlap.Library.Extremum
import TinyOlap.Library.Decimal
import TinyOlap.Library.Path
import TinyOlap.Library.FileOps
import TinyOlap.Library.Outcome
import TinyOlap.Library.WorkPool
import TinyOlap.Library.Pipeline
import TinyOlap.Library.Refines
import TinyOlap.Library.Grouping
import TinyOlap.Library.Calls
import TinyOlap.Library.Quota
import TinyOlap.Library.FirstKeys
import TinyOlap.Library.Waiting
import TinyOlap.Config
import TinyOlap.Catalog.Schema
import TinyOlap.Arrow.RecordBatch
import TinyOlap.Encoding.Codec
import TinyOlap.Encoding.Primitive
import TinyOlap.Encoding.StringCodec
import TinyOlap.Encoding.Format
import TinyOlap.Storage.Files
import TinyOlap.Storage.Lz4
import TinyOlap.Storage.Mark
import TinyOlap.SelectPlan
import TinyOlap.SelectResult
import TinyOlap.ReadBack
import TinyOlap.Storage.BlockFile
import TinyOlap.Storage.Column
import TinyOlap.Storage.ColumnLayout
import TinyOlap.Storage.StringColumn
import TinyOlap.Storage.ZoneMap
import TinyOlap.Storage.TornZoneMap
import TinyOlap.Storage.PartWriter
import TinyOlap.Storage.PartOps
import TinyOlap.Storage.TableDir
import TinyOlap.Storage.Disk
import TinyOlap.Storage.TableWriter
import TinyOlap.Storage.WriteErrors
import TinyOlap.Storage.ConcurrentInsert
import TinyOlap.Storage.InsertIsolation
import TinyOlap.Storage.FailedInsert
import TinyOlap.Frontend.Ast
import TinyOlap.Frontend.Validator
import TinyOlap.Frontend.Analyzer
import TinyOlap.Logical.Meaning
import TinyOlap.Logical.Operators
import TinyOlap.Logical.Lower
import TinyOlap.Logical.Optimizer
import TinyOlap.Logical.OptimizerMeaning
import TinyOlap.Logical.QueryMeaning
import TinyOlap.Logical.LowerMeaning
import TinyOlap.Logical.UnreadClauses
import TinyOlap.Physical.Lower
import TinyOlap.Physical.Optimizer
import TinyOlap.Physical.Operators
import TinyOlap.Physical.Meaning
import TinyOlap.Physical.NarrowLiteral
import TinyOlap.Physical.WhereFolding
import TinyOlap.Physical.WherePredicate
import TinyOlap.Execution.WhereResult
import TinyOlap.Execution.ZoneMapSkip
import TinyOlap.Execution.SharpSkip
import TinyOlap.Execution.Executor
import TinyOlap.Execution.Expr
import TinyOlap.Execution.Scan
import TinyOlap.Execution.ScanResult
import TinyOlap.Execution.DamagedPart
import TinyOlap.Execution.Alignment
import TinyOlap.Execution.StoredRows
import TinyOlap.Execution.RowOperators
import TinyOlap.Execution.LimitResult
import TinyOlap.Execution.RowTree
import TinyOlap.Execution.FilterResult
import TinyOlap.Execution.FloatSkip
import TinyOlap.Execution.Aggregation.Accumulator
import TinyOlap.Execution.Aggregation.Aggregate
import TinyOlap.Execution.Aggregation.Merge
import TinyOlap.Execution.Aggregation.GroupTable
import TinyOlap.Execution.Aggregation.Absorb
import TinyOlap.Execution.Aggregation.GroupIndex
import TinyOlap.Execution.Aggregation.GroupValues
import TinyOlap.Execution.Aggregation.AggregateResult
import TinyOlap.Execution.Aggregation.ParallelResult
import TinyOlap.Execution.Aggregation.ExactSum
import TinyOlap.Execution.Aggregation.GroupedRows
import TinyOlap.Execution.Aggregation.AggregateTree
import TinyOlap.Execution.Aggregation.AggregateRun
import TinyOlap.Execution.Aggregation.CutResult
import TinyOlap.Execution.Aggregation.LimitedAggregation
import TinyOlap.Execution.Plan
import TinyOlap.Execution.OutputFields
import TinyOlap.Execution.Builder
import TinyOlap.Execution.GatherResult
import TinyOlap.Execution.GatherEnd
import TinyOlap.Execution.ErrorFlow
import TinyOlap.Execution.TreeResult
import TinyOlap.Execution.OptimizedTree
import TinyOlap.Execution.MergedTree
import TinyOlap.Dml.InsertBuilder
import TinyOlap.Main
import TinyOlap.Dml.InsertResult
import TinyOlap.Dml.AllOrNothing
import TinyOlap.Dml.InsertNames
import TinyOlap.Dml.InsertInteger
import TinyOlap.SelectAccepted
import TinyOlap.LookupInteger
import TinyOlap.WherePlan
import TinyOlap.AggregatePlan
import TinyOlap.QueryRun
import TinyOlap.AggregateAnswer
import TinyOlap.Execution.LimitedWorkers
import TinyOlap.LimitLaw
import TinyOlap.FirstGroups
import TinyOlap.AggregateLimit
import TinyOlap.Snapshot
import TinyOlap.SelectMeaning
import TinyOlap.Session
import TinyOlap.OrdinarySelect
import TinyOlap.OrdinaryPlan
import TinyOlap.OrdinaryRun
