import FieldAccess.Catalog.Namespace
import FieldAccess.Eval.Call
import FieldAccess.Eval.Frame
import FieldAccess.Eval.Operator
import FieldAccess.Eval.Program
import FieldAccess.Eval.RecordStore
import FieldAccess.Generate.Session
import FieldAccess.Generate.Text
import FieldAccess.Proofs.FieldSelectors
import FieldAccess.Proofs.Runs
import FieldAccess.Redirect.Method
import FieldAccess.Schema.Reader
import FieldAccess.Schema.Samples
import FieldAccess.Source.Parser.Decl
import FieldAccess.Source.Printer
import FieldAccess.Syntax.StaticType
import FieldAccess.Tree.Reader
import FieldAccess.Tree.Writer
import FieldAccess.Typing.FixedTypes
import FieldAccess.Typing.Occurrence
import FieldAccess.Typing.TypeContext
import FieldAccess.Proofs.Alike
import FieldAccess.Proofs.Allocation
import FieldAccess.Proofs.FieldAssignment
import FieldAccess.Proofs.CatalogBuild
import FieldAccess.Proofs.EnumRegistration
import FieldAccess.Proofs.Loading
import FieldAccess.Proofs.EnumRoundTrip
import FieldAccess.Proofs.UntouchedFields
import FieldAccess.Proofs.MutatorEffects
import FieldAccess.Proofs.PackageNames
import FieldAccess.Proofs.InsertedCalls
import FieldAccess.Proofs.OutputOrder
import FieldAccess.Proofs.SessionReports
import FieldAccess.Proofs.RedirectTwice
import FieldAccess.Proofs.MethodIndependence
import FieldAccess.Proofs.AssignmentShape
import FieldAccess.Proofs.GraphAssignment
import FieldAccess.Proofs.HeaderLayout
import FieldAccess.Proofs.HeaderPlacement
import FieldAccess.Proofs.ClosedStates
import FieldAccess.Proofs.PlaceContents
import FieldAccess.Proofs.ShorthandRuns
import FieldAccess.Proofs.CapturedPlaces
import FieldAccess.Proofs.MixedAssignment
import FieldAccess.Proofs.RelationLists
import FieldAccess.Proofs.WriteChecks
import FieldAccess.Proofs.RangeChecks
import FieldAccess.Proofs.ReadTypes
import FieldAccess.Proofs.DeclaredTypes
import FieldAccess.Proofs.NamesInUse
import FieldAccess.Proofs.Vocabulary
import FieldAccess.Proofs.DeclaredTemporaries
import FieldAccess.Proofs.TemporaryNames
import FieldAccess.Proofs.CapturedReferences
import FieldAccess.Proofs.PlainMethods
import FieldAccess.Proofs.RelationChains
import FieldAccess.Proofs.AccessorHygiene
import FieldAccess.Proofs.LetterForms
import FieldAccess.Proofs.IdentifierTokens
import FieldAccess.Proofs.TemporaryIdentifiers
import FieldAccess.Proofs.CollisionReports
import FieldAccess.Proofs.ContinueFlow
import FieldAccess.Proofs.ScopeClosure
import FieldAccess.Proofs.CatalogContents
import FieldAccess.Proofs.QuotedTokens
import FieldAccess.Proofs.TokenBoundaries
import FieldAccess.Proofs.ExpressionTokens
import FieldAccess.Proofs.PrintedExpressions
import FieldAccess.Proofs.EnumTables
import FieldAccess.Proofs.PackageVariables
import FieldAccess.Proofs.EnumConversions
import FieldAccess.Proofs.IntegerOperators
import FieldAccess.Proofs.TypeTokens
import FieldAccess.Proofs.CursorStatements
import FieldAccess.Proofs.StatementScopes
import FieldAccess.Proofs.NameSearches
import FieldAccess.Proofs.PureExpressions
import FieldAccess.Proofs.RedirectedStatements
