import TideOrm.Proofs.StaleFill
import TideOrm.Proofs.Eviction
import TideOrm.Proofs.Chunk
import TideOrm.Proofs.FlushOrder
import TideOrm.Proofs.ManagedMap
import TideOrm.Proofs.UndoFlush
import TideOrm.Proofs.IdentityMap
import TideOrm.Proofs.Transaction
import TideOrm.Proofs.SqlSafety
import TideOrm.Sanity.Placeholders
import TideOrm.Proofs.Aborts
import TideOrm.Spec.DirtyTracking
import TideOrm.Sanity.DirtyTracking
import TideOrm.Proofs.Baselines
import TideOrm.Proofs.BaselineAgreement
import TideOrm.Proofs.BaselineUndo
import TideOrm.Proofs.Clauses
import TideOrm.Lib.Outcome
import TideOrm.Proofs.Migrator
import TideOrm.Lib.Rounding
import TideOrm.Lib.SqliteExpr
import TideOrm.Proofs.Scaling
import TideOrm.Lib.Grouping
import TideOrm.Proofs.EagerLoad
import TideOrm.Proofs.TableTags
import TideOrm.Lib.Junction
import TideOrm.Lib.Radix
import TideOrm.Proofs.AlterTable
import TideOrm.Proofs.CacheBudget
import TideOrm.Proofs.ColumnSlots
import TideOrm.Proofs.Filters
import TideOrm.Proofs.Tokenization
import TideOrm.Proofs.WhereHas
import TideOrm.Proofs.Subquery
import TideOrm.Proofs.Localize
import TideOrm.Lib.PrefixCode
import TideOrm.Proofs.CacheKey
import TideOrm.Lib.BigEndian
import TideOrm.Lib.Decimal
import TideOrm.Lib.Decoder
import TideOrm.Lib.Utf8
import TideOrm.Lib.Wildcard
import TideOrm.Proofs.LikePattern
import TideOrm.Proofs.PostgresArray
import TideOrm.Proofs.PostgresInterval
import TideOrm.Proofs.PostgresNumeric
import TideOrm.Lib.BinaryFormat
import TideOrm.Lib.Separated
import TideOrm.Proofs.ColumnAttributes
import TideOrm.Proofs.DeferForeignKeys
import TideOrm.Proofs.FloatRounding
import TideOrm.Proofs.SqliteColumns
import TideOrm.Lib.Bag
import TideOrm.Proofs.CountQuery
import TideOrm.Proofs.Base64
import TideOrm.Proofs.FlushCycles
import TideOrm.Proofs.PostgresObjects
import TideOrm.Lib.BinaryFloat
import TideOrm.Lib.Cutter
import TideOrm.Lib.DecimalFraction
import TideOrm.Proofs.BatchInsert
import TideOrm.Proofs.DecimalText
import TideOrm.Proofs.UrlMask
import TideOrm.Proofs.ValidationBounds
import TideOrm.Lib.Kleene
import TideOrm.Proofs.JsonLoss
import TideOrm.Proofs.ListCondition
import TideOrm.Proofs.MysqlJson
import TideOrm.Lib.Coefficient
import TideOrm.Lib.ShortCircuit
import TideOrm.Lib.SqliteText
import TideOrm.Proofs.SqliteJson
import TideOrm.Lib.JsonString
import TideOrm.Lib.Lexer
import TideOrm.Lib.Words
import TideOrm.Proofs.ArrayFilter
import TideOrm.Proofs.FieldMerge
import TideOrm.Proofs.JsonExists
import TideOrm.Proofs.MysqlSearch
import TideOrm.Proofs.SearchQuery
import TideOrm.Proofs.Seeder
import TideOrm.Proofs.FilterCalls
import TideOrm.Lib.Recursion
import TideOrm.Proofs.TreeQuery
import TideOrm.Proofs.Payload
import TideOrm.Lib.ByteText
import TideOrm.Lib.Slots
import TideOrm.Proofs.ByteLexer
import TideOrm.Proofs.Consolidation
import TideOrm.Proofs.Exclusions
import TideOrm.Proofs.Placeholders
import TideOrm.Proofs.QuotedTokens
import TideOrm.Proofs.ForeignKeys
import TideOrm.Lib.Interleave
import TideOrm.Lib.Thinning
import TideOrm.Proofs.Pivot
import TideOrm.Proofs.PreparedStatements
import TideOrm.Proofs.SchemaSync
import TideOrm.Proofs.Upsert
import TideOrm.Proofs.ConnectionScope
