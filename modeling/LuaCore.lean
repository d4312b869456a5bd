import LuaCore.Main
import LuaCore.Proofs.Table.History
import LuaCore.Proofs.Scope.Session
import LuaCore.Proofs.Reader.Precedence
import LuaCore.Proofs.Reader.RoundTrip
import LuaCore.Proofs.Scope.Locality
import LuaCore.Proofs.Call.Limit
import LuaCore.Proofs.Call.Depth
import LuaCore.Proofs.Tree.Session
import LuaCore.Proofs.Token.Lexeme
import LuaCore.Proofs.Token.Cut
import LuaCore.Proofs.Tree.Spelling
import LuaCore.Proofs.Reader.Account
import LuaCore.Proofs.Reader.Trace
import LuaCore.Proofs.Token.Found
import LuaCore.Proofs.Token.Order
import LuaCore.Proofs.Tree.Rebuild
import LuaCore.Proofs.Reader.Faithful
import LuaCore.Proofs.Reader.Agreement
import LuaCore.Proofs.Reader.Layout
import LuaCore.Proofs.Token.Identifier
import LuaCore.Proofs.Script.Region
import LuaCore.Proofs.Script.Stretch
import LuaCore.Proofs.Script.Step
import LuaCore.Proofs.Script.Lowered
import LuaCore.Proofs.Script.Named
import LuaCore.Proofs.Script.Placed
import LuaCore.Proofs.Script.Binding
import LuaCore.Proofs.Script.Initializer
import LuaCore.Proofs.Script.Opening
import LuaCore.Proofs.Script.Comment
import LuaCore.Proofs.Store.Confined
import LuaCore.Proofs.Simulation.Wrapped
import LuaCore.Proofs.Script.Operators
import LuaCore.Proofs.Script.Balanced
import LuaCore.Proofs.Scope.History
import LuaCore.Proofs.Loop.Session
import LuaCore.Proofs.Loop.Snapshot
import LuaCore.Proofs.Loop.Indexed
import LuaCore.Proofs.Evaluation.Sequence
import LuaCore.Proofs.Reader.Lookahead
import LuaCore.Proofs.Reader.Levels
import LuaCore.Proofs.Reader.Progress
import LuaCore.Proofs.Table.Equality
import LuaCore.Proofs.Script.StringLiteral
import LuaCore.Proofs.Script.Access
import LuaCore.Proofs.Evaluation.Assignment
import LuaCore.Proofs.Loop.Repeat
import LuaCore.Proofs.Loop.Range
import LuaCore.Proofs.Table.Constructor
import LuaCore.Proofs.Evaluation.CallFree
import LuaCore.Proofs.Token.LongBracket
import LuaCore.Proofs.Token.Display
import LuaCore.Proofs.Reader.Parenthesized
import LuaCore.Proofs.Reader.Method
import LuaCore.Proofs.Call.Method
import LuaCore.Proofs.Value.Comparison
import LuaCore.Proofs.Number.Reading
import LuaCore.Proofs.Token.Numeral
