import ExprMachine.Main
import ExprMachine.Cli.Directory
import ExprMachine.Scope.Forest
import ExprMachine.Value.Equality
import ExprMachine.Proofs.Machine.Pile
import ExprMachine.Proofs.Machine.Progress
import ExprMachine.Proofs.Machine.Checked
import ExprMachine.Proofs.Machine.Straight
import ExprMachine.Proofs.Compiler.Postfix
import ExprMachine.Proofs.Compiler.Meaning
import ExprMachine.Proofs.Parser.Derivation
import ExprMachine.Proofs.Parser.Clean
import ExprMachine.Proofs.Parser.Soundness
import ExprMachine.Proofs.Token.Spelling
import ExprMachine.Proofs.Parser.Origin
import ExprMachine.Proofs.Ast.Canonical
import ExprMachine.Proofs.Ast.Legible
import ExprMachine.Proofs.Parser.Success
import ExprMachine.Proofs.Parser.Reread
import ExprMachine.Proofs.Parser.RoundTrip
import ExprMachine.Proofs.Codec.Delimited
import ExprMachine.Proofs.Codec.Storable
import ExprMachine.Proofs.Codec.RoundTrip
import ExprMachine.Proofs.Compiler.Snapshot
import ExprMachine.Proofs.Parser.Chain
import ExprMachine.Proofs.Parser.Climbing
import ExprMachine.Proofs.Token.Lexical
import ExprMachine.Proofs.Token.Tiling
import ExprMachine.Proofs.Parser.Places
import ExprMachine.Proofs.Machine.Refinement
import ExprMachine.Proofs.Cli.Directory
import ExprMachine.Proofs.Cli.Emit
import ExprMachine.Proofs.Bytecode.Boundaries
import ExprMachine.Proofs.Bytecode.Lines
import ExprMachine.Proofs.Bytecode.Walkers
import ExprMachine.Proofs.Compiler.Visits
import ExprMachine.Proofs.Compiler.StackNeed
import ExprMachine.Proofs.Parser.Relocation
import ExprMachine.Proofs.Token.Spacing
import ExprMachine.Proofs.Compiler.Layout
import ExprMachine.Proofs.Machine.Limits
import ExprMachine.Proofs.Parser.Passage
import ExprMachine.Proofs.Parser.Order
import ExprMachine.Proofs.Token.Joined
import ExprMachine.Proofs.Parser.Sequel
import ExprMachine.Proofs.Parser.Recovery
import ExprMachine.Proofs.Bytecode.Assembly
import ExprMachine.Proofs.Scope.History
import ExprMachine.Proofs.Token.Dump
import ExprMachine.Proofs.Codec.Normal
import ExprMachine.Proofs.Text.Utf8
import ExprMachine.Proofs.Repl.Conversation
import ExprMachine.Proofs.Parser.Termination
