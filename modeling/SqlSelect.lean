import SqlSelect.Condition.Basic
import SqlSelect.Condition.Comparison
import SqlSelect.Condition.Form
import SqlSelect.Condition.PredicateReading
import SqlSelect.Condition.Reading
import SqlSelect.Condition.Truth
import SqlSelect.Condition.ValueList
import SqlSelect.Condition.Writing
import SqlSelect.Cursor.Basic
import SqlSelect.Cursor.Keywords
import SqlSelect.Cursor.Moves
import SqlSelect.Environment
import SqlSelect.Error
import SqlSelect.FieldType
import SqlSelect.Item.Aggregate
import SqlSelect.Item.Basic
import SqlSelect.Item.Function
import SqlSelect.Item.Reading
import SqlSelect.Literal.Basic
import SqlSelect.Literal.Quoted
import SqlSelect.Literal.Reading
import SqlSelect.Name
import SqlSelect.Nesting.Basic
import SqlSelect.Nesting.Keyword
import SqlSelect.Nesting.Pieces
import SqlSelect.Nesting.Section
import SqlSelect.Nesting.Words
import SqlSelect.Number.Binary64
import SqlSelect.Number.Decimal
import SqlSelect.Number.Numeral
import SqlSelect.Number.Shortest
import SqlSelect.Pattern
import SqlSelect.Proofs.Balance.Queries
import SqlSelect.Proofs.Choice.Forms
import SqlSelect.Proofs.Condition.Ambiguity
import SqlSelect.Proofs.Condition.Combination
import SqlSelect.Proofs.Condition.Grammar
import SqlSelect.Proofs.Condition.Limit
import SqlSelect.Proofs.Condition.Precedence
import SqlSelect.Proofs.Condition.Rendering
import SqlSelect.Proofs.Cursor.Keywords
import SqlSelect.Proofs.Cursor.Position
import SqlSelect.Proofs.Cursor.Quotes
import SqlSelect.Proofs.Cursor.Splitting
import SqlSelect.Proofs.Cursor.Turns
import SqlSelect.Proofs.Cursor.Words
import SqlSelect.Proofs.Origin.Qualifiers
import SqlSelect.Proofs.Origin.Queries
import SqlSelect.Proofs.Pattern.Coverage
import SqlSelect.Proofs.Query.Attempts
import SqlSelect.Proofs.Query.Sources
import SqlSelect.Proofs.Range.Safety
import SqlSelect.Proofs.Recall.Dates
import SqlSelect.Proofs.Recall.Numerals
import SqlSelect.Proofs.Recall.Values
import SqlSelect.Proofs.Selection.Aggregates
import SqlSelect.Proofs.Selection.Aliases
import SqlSelect.Proofs.Selection.Directions
import SqlSelect.Proofs.Selection.Kinds
import SqlSelect.Proofs.Selection.Twins
import SqlSelect.Query.Basic
import SqlSelect.Query.Clause
import SqlSelect.Query.Limit
import SqlSelect.Query.Table
import SqlSelect.Range
import SqlSelect.Reference
import SqlSelect.Regex
import SqlSelect.Schema
import SqlSelect.Text.Basic
import SqlSelect.Text.Blank
import SqlSelect.Text.Letter
import SqlSelect.Timestamp.Basic
import SqlSelect.Timestamp.Reading
