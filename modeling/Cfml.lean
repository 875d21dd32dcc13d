import Cfml.BackwardCursor
import Cfml.Component.Reference
import Cfml.Main
import Cfml.Nesting
import Cfml.Proofs.Comment.Embedded
import Cfml.Proofs.Component.Lookups
import Cfml.Proofs.Resolver.Transparency
import Cfml.Server.Basic
import Cfml.Proofs.Text.Occurrences
import Cfml.Proofs.Comment.Delimited
import Cfml.Proofs.Comment.Blanked
import Cfml.Proofs.Component.Keyed
import Cfml.Proofs.Declaration.Outside
import Cfml.Proofs.Component.Commented
import Cfml.Proofs.Comment.Inside
import Cfml.Proofs.Comment.BothWays
import Cfml.Proofs.Text.Moved
import Cfml.Proofs.Component.LeadingText
import Cfml.Proofs.Declaration.QuotedValues
import Cfml.Proofs.Declaration.ScriptFunctions
import Cfml.Proofs.Declaration.Fragment
import Cfml.Proofs.Source.Conversion
import Cfml.Proofs.Source.Cursor
import Cfml.Proofs.LineEnd.Functions
import Cfml.Proofs.Server.Run
import Cfml.Proofs.Component.HeadFound
import Cfml.Proofs.Component.DocEnd
import Cfml.Proofs.Component.Inheritance
import Cfml.Proofs.CommandLine.Outcome
import Cfml.Proofs.Nesting.Separators
import Cfml.Proofs.Nesting.Closing
import Cfml.Proofs.Nesting.Arguments
import Cfml.Proofs.Component.LastSegment
import Cfml.Proofs.Declaration.FunctionEnd
import Cfml.Proofs.Declaration.WrittenDoc
import Cfml.Proofs.Declaration.AttributeList
import Cfml.Proofs.Declaration.LastProperty
import Cfml.Proofs.Source.Uncovered
import Cfml.Proofs.Source.Tags
import Cfml.Proofs.LineEnd.Assignments
import Cfml.Proofs.Component.References
import Cfml.Proofs.Resolver.Roots
import Cfml.Proofs.Source.Identifier
import Cfml.Proofs.Component.Assembly
import Cfml.Proofs.Lexical.Literals
import Cfml.Proofs.Lexical.Expression
