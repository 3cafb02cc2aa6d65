import ServiceLang.Ast.Edit
import ServiceLang.Ast.Walk
import ServiceLang.Main
import ServiceLang.Proofs.Region.Step
import ServiceLang.Proofs.Region.Piece
import ServiceLang.Proofs.Region.Declaration
import ServiceLang.Proofs.Source.Bytes
import ServiceLang.Proofs.Source.LineTable
import ServiceLang.Proofs.Region.Cut
import ServiceLang.Proofs.Peg.Cursor
import ServiceLang.Proofs.Peg.Derive
import ServiceLang.Proofs.Grammar.Program
import ServiceLang.Proofs.Parse.Merge
import ServiceLang.Proofs.Region.Comment
import ServiceLang.Proofs.Peg.Token
import ServiceLang.Proofs.Grammar.Piece
import ServiceLang.Proofs.Grammar.Balance
import ServiceLang.Proofs.Parse.InStep
import ServiceLang.Proofs.Parse.Accepted
import ServiceLang.Proofs.Check.LexicalScope
import ServiceLang.Proofs.Check.Membership
import ServiceLang.Proofs.Check.Reordered
import ServiceLang.Proofs.Decimal.Layout
import ServiceLang.Proofs.Peg.Run
import ServiceLang.Proofs.Text.Quoted
import ServiceLang.Proofs.Grammar.Lexeme
import ServiceLang.Proofs.Ast.Display
import ServiceLang.Proofs.Grammar.Level
import ServiceLang.Proofs.Grammar.Printed
import ServiceLang.Proofs.Parse.Display
import ServiceLang.Proofs.Ast.Walk
import ServiceLang.Proofs.Peg.Node
import ServiceLang.Proofs.Lower.Stands
import ServiceLang.Proofs.Lower.Operand
import ServiceLang.Proofs.Lower.Statement
import ServiceLang.Proofs.Lower.Flow
import ServiceLang.Proofs.Parse.Position
import ServiceLang.Proofs.Region.Beside
import ServiceLang.Proofs.Region.Opened
import ServiceLang.Proofs.Region.Isolated
import ServiceLang.Proofs.Peg.Alike
import ServiceLang.Proofs.Check.Relocated
import ServiceLang.Proofs.Grammar.Respaced
import ServiceLang.Proofs.Lower.Alike
import ServiceLang.Proofs.Parse.Meaning
import ServiceLang.Proofs.Grammar.Braces
import ServiceLang.Proofs.Region.Annotated
import ServiceLang.Proofs.Region.Declared
import ServiceLang.Proofs.Region.DeclaredEndpoint
import ServiceLang.Proofs.Ast.Same
import ServiceLang.Proofs.Decimal.Literal
import ServiceLang.Proofs.Lower.Carried
import ServiceLang.Proofs.Parse.Indented
import ServiceLang.Proofs.Parse.Declared
import ServiceLang.Proofs.Parse.Isolated
import ServiceLang.Proofs.Grammar.Shell
import ServiceLang.Proofs.Grammar.Quoted
import ServiceLang.Proofs.Grammar.Literal
import ServiceLang.Proofs.Lower.Nested
import ServiceLang.Proofs.Parse.Single
import ServiceLang.Proofs.Parse.Shell
import ServiceLang.Proofs.Parse.Variable
import ServiceLang.Proofs.Parse.Literal
import ServiceLang.Proofs.Region.Quoted
import ServiceLang.Proofs.Parse.Chain
import ServiceLang.Proofs.Parse.Written
import ServiceLang.Proofs.Check.Distinct
import ServiceLang.Proofs.Check.WellFormedSchema
import ServiceLang.Proofs.Check.WellFormedEndpoint
import ServiceLang.Proofs.Parse.Event
import ServiceLang.Proofs.Parse.Step
import ServiceLang.Proofs.Parse.Boundary
import ServiceLang.Proofs.Check.WellFormedFlow
import ServiceLang.Proofs.Format.Cron
import ServiceLang.Proofs.Format.Duration
import ServiceLang.Proofs.Check.WellFormedWiring
import ServiceLang.Proofs.Ast.Stop
import ServiceLang.Proofs.Ast.Equal
import ServiceLang.Proofs.Check.ForeignDigits
import ServiceLang.Proofs.Parse.Named
import ServiceLang.Proofs.Check.ScopeStack
import ServiceLang.Proofs.Ast.Lines
import ServiceLang.Proofs.Peg.Inside
import ServiceLang.Proofs.Check.Introduced
import ServiceLang.Proofs.Check.Cited
import ServiceLang.Proofs.Parse.Anchored
import ServiceLang.Proofs.Region.Fault
import ServiceLang.Proofs.Check.Indexed
