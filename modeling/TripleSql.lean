import TripleSql.Catalog.Alias
import TripleSql.Catalog.Basic
import TripleSql.Catalog.Document
import TripleSql.Catalog.Error
import TripleSql.Catalog.File
import TripleSql.Catalog.Predicates
import TripleSql.CommandLine.Arguments
import TripleSql.CommandLine.Run
import TripleSql.Compile.Assembly
import TripleSql.Compile.Bindings
import TripleSql.Compile.Constants
import TripleSql.Compile.Error
import TripleSql.Compile.FilterPool
import TripleSql.Compile.Fragment
import TripleSql.Compile.Pending
import TripleSql.Compile.Scope
import TripleSql.Compile.Session
import TripleSql.Document.Basic
import TripleSql.Document.Dialect
import TripleSql.Document.Json
import TripleSql.Document.Number
import TripleSql.Document.Print
import TripleSql.Document.Yaml.Content
import TripleSql.Document.Yaml.Scalar
import TripleSql.Document.Yaml.Token
import TripleSql.File
import TripleSql.Pattern.Basic
import TripleSql.Pattern.Comparison
import TripleSql.Pattern.Node
import TripleSql.Proofs.AliasRuns
import TripleSql.Proofs.Assemblies
import TripleSql.Proofs.ChosenRows
import TripleSql.Proofs.Compilations
import TripleSql.Proofs.Conditions
import TripleSql.Proofs.Connectedness
import TripleSql.Proofs.Evaluation
import TripleSql.Proofs.Fragments
import TripleSql.Proofs.Freshness
import TripleSql.Proofs.Grounds
import TripleSql.Proofs.Growth
import TripleSql.Proofs.JoinOrder
import TripleSql.Proofs.JoinedRows
import TripleSql.Proofs.Leaves
import TripleSql.Proofs.Lists
import TripleSql.Proofs.Matches
import TripleSql.Proofs.Pieces
import TripleSql.Proofs.Placements
import TripleSql.Proofs.Readable
import TripleSql.Proofs.RepeatedVariables
import TripleSql.Proofs.RequiredElements
import TripleSql.Proofs.Results
import TripleSql.Proofs.Satisfaction
import TripleSql.Proofs.Scoping
import TripleSql.Proofs.Selections
import TripleSql.Proofs.StatementText
import TripleSql.Proofs.Steps
import TripleSql.Proofs.Trees
import TripleSql.Request.Basic
import TripleSql.Request.File
import TripleSql.Request.Read
import TripleSql.Settings.Assignment
import TripleSql.Settings.Basic
import TripleSql.Settings.Environment
import TripleSql.Sql.Document
import TripleSql.Sql.Name
import TripleSql.Sql.Statement
import TripleSql.Sql.Text
import TripleSql.Text.Blank
import TripleSql.Main
import TripleSql.Proofs.Histories
import TripleSql.Proofs.AppendedElements
import TripleSql.Proofs.AliasUses
import TripleSql.Proofs.LonePatterns
import TripleSql.Proofs.LetterCase
import TripleSql.Proofs.Renamings
import TripleSql.Proofs.RenamedParts
import TripleSql.Proofs.RenamedQueries
import TripleSql.Proofs.PrintedDocuments
import TripleSql.Proofs.StatementDocuments
import TripleSql.Proofs.NodeTexts
import TripleSql.Proofs.RequestDocuments
import TripleSql.Proofs.References
import TripleSql.Proofs.Admission
import TripleSql.Proofs.Overriding
import TripleSql.Proofs.Teardown
import TripleSql.Proofs.WrittenPredicates
import TripleSql.Proofs.Reachability
import TripleSql.Proofs.ReadyFilters
import TripleSql.Proofs.PatternAcceptance
import TripleSql.Proofs.FilterSteps
import TripleSql.Proofs.Detachment
import TripleSql.Proofs.Numbering
import TripleSql.Proofs.PlainNames
import TripleSql.Proofs.Frames
import TripleSql.Proofs.Folding
import TripleSql.Proofs.Origins
import TripleSql.Proofs.ConstantPlaces
import TripleSql.Proofs.SharedTables
import TripleSql.Proofs.Representatives
import TripleSql.Proofs.DistinctClauses
import TripleSql.Proofs.WaitingConstants
import TripleSql.Proofs.TakenFilters
import TripleSql.Proofs.FilterIndex
