import SecureFusion.Inverted.Interleaving
import SecureFusion.Filtering.WhereClause
import SecureFusion.Frontend.Execute
import SecureFusion.Frontend.QueryLiterals
import SecureFusion.Server.QueryText
import SecureFusion.Planning.OnDuplicateRows
import SecureFusion.Frontend.PreparedStatements
import SecureFusion.Indices.NaturalRowId
import SecureFusion.Indices.LikeSearch
import SecureFusion.Indices.Resolvable
import SecureFusion.Planning.BoundRows
import SecureFusion.Indices.MatchSearch
import SecureFusion.Crypto.Backends
import SecureFusion.Frontend.Handshake
import SecureFusion.Frontend.TextRows
import SecureFusion.Metadata.Store
import SecureFusion.Sinks.Temporal
import SecureFusion.Metadata.CreateTable
import SecureFusion.Planning.ColumnarIndex
import SecureFusion.Indices.BatchSinks
import SecureFusion.Planning.ScanHierarchy
import SecureFusion.Providers.FromColumns
import SecureFusion.Crypto.RowId
import SecureFusion.Crypto.RowAads
import SecureFusion.Indices.BooleanTerms
import SecureFusion.Indices.HiddenColumns
import SecureFusion.Providers.Statistics
import SecureFusion.Crypto.ExpressionEquality
import SecureFusion.Inverted.MetadataPages
import SecureFusion.Udf.Substr
import SecureFusion.Planning.CreateRowid
import SecureFusion.Filtering.Negations
import SecureFusion.Inverted.PageLayout
import SecureFusion.Planning.SimpleAlias
