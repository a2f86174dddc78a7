import Monkey.FileTree
import Monkey.Main
import Monkey.Proofs.Eval.Functionless
import Monkey.Proofs.Eval.Mapping
import Monkey.Proofs.Eval.Repeat
import Monkey.Proofs.Eval.Signals
import Monkey.Proofs.Session.Agreement
import Monkey.Proofs.Session.Scoping
import Monkey.Proofs.Session.Truncation
import Monkey.Proofs.Syntax.Acceptance
import Monkey.Proofs.Syntax.Append
import Monkey.Proofs.Syntax.RoundTrip
import Monkey.Proofs.Token.Partition
import Monkey.Syntax.Outline
import Monkey.Proofs.Session.Continuation
import Monkey.Proofs.Eval.HashLiteral
import Monkey.Proofs.Syntax.Totality
import Monkey.Proofs.Eval.Origin
import Monkey.Proofs.Syntax.LetRecovery
import Monkey.Proofs.Token.Relayout
import Monkey.Proofs.Value.Equality
import Monkey.Proofs.Eval.HashOrder
import Monkey.Proofs.Session.Stepwise
import Monkey.Proofs.Eval.Arithmetic
import Monkey.Proofs.Eval.Arrays
import Monkey.Proofs.Scope.History
import Monkey.Proofs.Eval.ReadBack
import Monkey.Proofs.Token.Progress
