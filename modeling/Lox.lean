import Lox.Main
import Lox.Proofs.Automaton
import Lox.Proofs.Grammar
import Lox.Proofs.Source.RoundTrip
import Lox.Reading
import Lox.Source
import Lox.Expr.Print
import Lox.Proofs.Piece.Longest
import Lox.Proofs.Lexed.Munch
import Lox.Proofs.Expr.Row
import Lox.Proofs.Source.Stable
import Lox.Proofs.Source.Stages
import Lox.Proofs.Expr.Meaning
import Lox.Proofs.Number.Sign
import Lox.Proofs.Source.Meaning
import Lox.Proofs.Number.Value
import Lox.Proofs.Source.Display
import Lox.Proofs.Expr.Failure
import Lox.Proofs.Lexed.Lines
import Lox.Proofs.Source.Lines
import Lox.Proofs.Lexed.Lexemes
import Lox.Proofs.CommandLine.Script
import Lox.Proofs.Expr.Split
import Lox.Proofs.Reading
import Lox.Proofs.CommandLine.Prompt
import Lox.Proofs.Expr.Postorder
import Lox.Proofs.Expr.Typing
import Lox.Proofs.Lexed.Cleared
import Lox.Proofs.Reading.Recovery
import Lox.Proofs.Expr.Nested
import Lox.Proofs.Source.Joined
import Lox.Proofs.Number.Shortest
import Lox.Proofs.Source.Decoded
import Lox.Proofs.Expr.Concatenation
import Lox.Proofs.Source.LineEndings
import Lox.Proofs.Scan.Bytes
