import Lox.Token.Scan
import Lox.Json
import Lox.Bindings
import Lox.Cbor
import Lox.Command
import Lox.Editor.Notice
import Lox.Editor.Server
import Lox.Main
import Lox.Proofs.Access.Session
import Lox.Proofs.Calls.Limit
import Lox.Proofs.Calls.Return
import Lox.Proofs.Command.Arguments
import Lox.Proofs.Config.Nearest
import Lox.Proofs.Course.Globals
import Lox.Proofs.Editor.Documents
import Lox.Proofs.Editor.Outline
import Lox.Proofs.Grammar.Completeness
import Lox.Proofs.Instances.Initializers
import Lox.Proofs.Instances.Logs
import Lox.Proofs.Layout.Respelled
import Lox.Proofs.Lexical.Refinement
import Lox.Proofs.Loops.Programs
import Lox.Proofs.Objects.Sessions
import Lox.Proofs.Parser.Segments
import Lox.Proofs.Prompt.Entries
import Lox.Proofs.Prompt.Lines
import Lox.Proofs.Ranges.References
import Lox.Proofs.Rendering.Dump
import Lox.Proofs.Rendering.Printed
import Lox.Proofs.Resolution.Exact
import Lox.Proofs.Safety.Sources
import Lox.Proofs.Scopes.Sharing
import Lox.Proofs.Session.Printing
import Lox.Proofs.Session.Rejection
import Lox.Proofs.Session.Splitting
import Lox.Proofs.Termination.Sessions
import Lox.Proofs.Token.Munch
import Lox.Proofs.Stream.Tokens
