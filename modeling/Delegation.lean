import Delegation.Files.Tree
import Delegation.Log
import Delegation.Main
import Delegation.Session
import Delegation.Proofs.Matching
import Delegation.Proofs.Lexing
import Delegation.Proofs.Grammar.Head
import Delegation.Proofs.Grammar.Statement
import Delegation.Proofs.Stretch
import Delegation.Proofs.Rendering
import Delegation.Proofs.Items
import Delegation.Proofs.LineMarks
import Delegation.Proofs.Settling
import Delegation.Proofs.Splicing
import Delegation.Proofs.Passage
import Delegation.Proofs.Survival
import Delegation.Proofs.Revision
import Delegation.Proofs.Relocation
import Delegation.Proofs.Grammar.Correspondence
import Delegation.Proofs.Grammar.CorrespondingMember
import Delegation.Proofs.Grammar.CorrespondingStatement
import Delegation.Proofs.Mirror
import Delegation.Proofs.Resplicing
import Delegation.Proofs.Joining
import Delegation.Proofs.LineEnds
import Delegation.Proofs.Inheritance
import Delegation.Proofs.Grammar.Schema
import Delegation.Proofs.Elaboration
import Delegation.Proofs.Acceptance
import Delegation.Proofs.PayloadUnion
import Delegation.Proofs.Runs
import Delegation.Proofs.Lossless
import Delegation.Proofs.Partners
import Delegation.Proofs.Rows
import Delegation.Proofs.Layout
import Delegation.Proofs.Inputs
import Delegation.Proofs.Literals
import Delegation.Proofs.Bookkeeping
import Delegation.Proofs.Trivia
import Delegation.Proofs.WrittenSchema
import Delegation.Proofs.MaximalEdits
import Delegation.Proofs.TakenRanges
import Delegation.Proofs.Overreach
import Delegation.Proofs.ClearedLines
import Delegation.Proofs.Grammar.Groups
import Delegation.Proofs.Grammar.Reading
import Delegation.Proofs.Grammar.ParsedMember
import Delegation.Proofs.Signatures
import Delegation.Proofs.PropertyLines
import Delegation.Proofs.WrittenType
import Delegation.Proofs.ModelGraphs
import Delegation.Proofs.NameProblems
import Delegation.Proofs.Grammar.Params
import Delegation.Proofs.TypeParams
import Delegation.Proofs.Grammar.Lookahead
import Delegation.Proofs.Grammar.DeclarationHead
import Delegation.Proofs.Rereading.Remains
import Delegation.Proofs.Rereading.Step
import Delegation.Proofs.Rereading.Member
import Delegation.Proofs.Rereading.Expression
import Delegation.Proofs.Rereading.Alias
import Delegation.Proofs.Rereading.Statement
import Delegation.Proofs.Rereading.Text
import Delegation.Proofs.Idempotence
import Delegation.Proofs.Grammar.Failing
import Delegation.Proofs.Grammar.SchemaFailing
import Delegation.Proofs.Grammar.SchemaNames
import Delegation.Proofs.SyntaxErrors
import Delegation.Proofs.OpenLiterals
import Delegation.Proofs.LexicalErrors
import Delegation.Proofs.Locations
import Delegation.Proofs.Comparisons
import Delegation.Proofs.Preorder
import Delegation.Proofs.Boundaries
import Delegation.Proofs.LeadingComments
import Delegation.Proofs.Progress
