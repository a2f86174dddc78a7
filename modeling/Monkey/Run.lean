import Monkey.Eval
import Monkey.Syntax.Parse

/-!
Running what was read. A program ends at a `return` at its top and turns a failure into an error
value; a node evaluated on its own shows a `return` as a wrapped value instead. Both give nothing
when the call depth did not suffice.
-/

namespace Monkey

def State.read (st : State) (source : String) : (Program × List Diagnostic) × State :=
  let stream := tokenize source
  let (program, ds) := parseTokens stream
  let st := ds.foldl (fun st d => st.record (.syntaxError stream d)) st
  ((program, ds), st.record (.parsed program.statements.length ds.length))

namespace Signal

def toResult : Signal → Option Value
  | .returned v => some v
  | .failed e => some (.error e)
  | .tooDeep => none

/-- A signal that left a single node. -/
def toNodeResult : Signal → Option Value
  | .returned v => some (.returned v)
  | .failed e => some (.error e)
  | .tooDeep => none

end Signal

def Program.run (depth : Nat) (scope : ScopeId) (p : Program) (st : State) :
    Option Value × State :=
  match Stmt.evalAll (Closure.call depth) scope p.statements
      (st.record (.evaluating p.statements.length)) with
  | (.ok v, st) => (some v, st.record (.finished v.kind))
  | (.error s, st) =>
    match s.toResult with
    | some v => (some v, st.record (.finished v.kind))
    | none => (none, st)

inductive Node where
  | program (p : Program)
  | stmt (s : Stmt)
  | expr (e : Expr)
  | block (b : Block)

namespace Node

def print : Node → String
  | .program p => p.print
  | .stmt s => s.print
  | .expr e => e.print
  | .block b => b.print

def outcome : Except Signal Value × State → Option Value × State
  | (.ok v, st) => (some v, st)
  | (.error s, st) => (s.toNodeResult, st)

def run (depth : Nat) (scope : ScopeId) (n : Node) (st : State) : Option Value × State :=
  match n with
  | .program p => p.run depth scope st
  | .stmt s => outcome (s.eval (Closure.call depth) scope st)
  | .expr e => outcome (e.eval (Closure.call depth) scope st)
  | .block b => outcome (b.eval (Closure.call depth) scope st)

end Node

end Monkey
