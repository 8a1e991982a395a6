import FilterLang.Text.Basic
import FilterLang.Text.Lexeme
import FilterLang.Number.Binary64
import FilterLang.Number.Decimal
import FilterLang.Number.Shortest
import FilterLang.Json.Number
import FilterLang.Json.Basic
import FilterLang.Json.Print
import FilterLang.Json.Read
import FilterLang.Error
import FilterLang.Clause.Operator
import FilterLang.Clause.Suggestion
import FilterLang.Clause.Basic
import FilterLang.Clause.Read
import FilterLang.Filter.Basic
import FilterLang.Filter.Read
import FilterLang.Filter.Encode
import FilterLang.Filter.Select
import FilterLang.Workbench
import FilterLang.Sql
import FilterLang.Ldap
import FilterLang.Document
import FilterLang.Scalar
import FilterLang.Record
import FilterLang.Toml.Basic
import FilterLang.Toml.Read
import FilterLang.Directory
import FilterLang.Settings
import FilterLang.CommandLine.Environment
import FilterLang.CommandLine.Table
import FilterLang.CommandLine.Arguments
import FilterLang.CommandLine.Plan
import FilterLang.CommandLine.Run
import FilterLang.Main
import FilterLang.Proofs.Words
import FilterLang.Proofs.Lexing
import FilterLang.Proofs.ClauseReading
import FilterLang.Proofs.Occurrence
import FilterLang.Proofs.Chain
import FilterLang.Proofs.ConnectiveScan
import FilterLang.Proofs.ParenScan
import FilterLang.Proofs.DisplayReading
import FilterLang.Proofs.Truth
import FilterLang.Proofs.DocumentReading
import FilterLang.Proofs.SqlReading
import FilterLang.Proofs.LdapReading
import FilterLang.Proofs.SelectionReading
import FilterLang.Proofs.Precedence
import FilterLang.Proofs.Grouping
import FilterLang.Proofs.BackendAgreement
import FilterLang.Proofs.Nesting
import FilterLang.Proofs.PointwiseSelection
import FilterLang.Proofs.Expression
import FilterLang.Proofs.ExpressionReading
import FilterLang.Proofs.Reprinting
import FilterLang.Proofs.Separation
import FilterLang.Proofs.SqlSeparation
import FilterLang.Proofs.Nest
import FilterLang.Proofs.Editing
import FilterLang.Proofs.DocumentFolding
import FilterLang.Proofs.LdapGrammar
import FilterLang.Proofs.LdapParsing
import FilterLang.Proofs.LdapWriting
import FilterLang.Proofs.ClausePrinting
import FilterLang.Proofs.FilterEncoding
import FilterLang.Proofs.FileSaving
import FilterLang.Proofs.CommandOutcome
import FilterLang.Proofs.SettingsText
import FilterLang.Proofs.SettingsRuns
import FilterLang.Proofs.SelectionFolding
import FilterLang.Proofs.ClauseGrammar
import FilterLang.Proofs.Enclosing
import FilterLang.Proofs.Comparison
import FilterLang.Proofs.ComparisonChains
import FilterLang.Proofs.Rounding
import FilterLang.Proofs.NumberReading
import FilterLang.Proofs.WholeComparison
import FilterLang.Proofs.DocumentSeparation
import FilterLang.Proofs.Composition
import FilterLang.Proofs.FaultLocation
import FilterLang.Proofs.Inspection
import FilterLang.Proofs.QuotedReading
import FilterLang.Proofs.TableRows
import FilterLang.Proofs.TableColors
import FilterLang.Proofs.EditDistance
import FilterLang.Proofs.OperatorSuggestion
import FilterLang.Proofs.TokenSpans
