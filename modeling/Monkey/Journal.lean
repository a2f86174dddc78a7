import Monkey.RuntimeError
import Monkey.Syntax.Diagnostic
import Monkey.Syntax.Print
import Monkey.Text.Characters

/-!
What a run tells about itself beside its output. Events are data; a filter decides at once which of
them are kept, and a kept event becomes a line of text only when the journal is printed. Reports are
always kept.
-/

namespace Monkey

inductive Level where
  | debug | trace
  deriving DecidableEq, Repr

inductive Event where
  | readingScript (path : String)
  | syntaxError (stream : List Token) (d : Diagnostic)
  | parsed (statements errors : Nat)
  | evaluating (statements : Nat)
  | statement (s : Stmt)
  | callingFunction (f : Lambda) (args : Nat)
  | callingBuiltin (b : Builtin) (args : Nat)
  | finished (result : Kind)
  | skippingLine (errors : Nat)
  | runFailed (reason : String)

namespace Event

def level : Event → Level
  | .syntaxError .. | .statement .. => .trace
  | _ => .debug

def target : Event → String
  | .readingScript .. => "monkey_interpreter"
  | .syntaxError .. | .parsed .. => "monkey_interpreter::interpreter::parser"
  | .evaluating .. | .statement .. | .callingFunction .. | .callingBuiltin .. | .finished .. =>
    "monkey_interpreter::interpreter::evaluator"
  | .skippingLine .. => "monkey_interpreter::repl"
  | .runFailed .. => "monkey"

def ofLibrary : Event → Bool
  | .runFailed .. => false
  | _ => true

/-- Fields show their values as they are; the message of a fault shows no bare terminal controls. -/
def text : Event → String
  | .readingScript path => "reading script path=" ++ path
  | .syntaxError stream d =>
    "parse error at=" ++ (d.position stream).render ++ " " ++ Text.showControls d.message
  | .parsed statements errors =>
    "parsed program statements=" ++ toString statements ++ " errors=" ++ toString errors
  | .evaluating statements => "evaluating program statements=" ++ toString statements
  | .statement s => "evaluating statement statement=" ++ s.print
  | .callingFunction f args =>
    "calling function function=" ++ f.print ++ " args=" ++ toString args
  | .callingBuiltin b args =>
    "calling builtin builtin=\"" ++ b.name ++ "\" args=" ++ toString args
  | .finished result => "program finished result=" ++ result.label
  | .skippingLine errors => "skipping line with parse errors errors=" ++ toString errors
  | .runFailed reason => "run failed err=" ++ reason

def render (e : Event) : String :=
  (match e.level with | .debug => "DEBUG " | .trace => "TRACE ") ++ e.target ++ ": " ++ e.text

end Event

/-- Which events are kept: those up to a level, of the library alone or of the command too. -/
inductive Filter where
  | silent
  | library (level : Level)
  | everything (level : Level)
  deriving DecidableEq, Repr

namespace Filter

def levelAdmits : Level → Event → Bool
  | .trace, _ => true
  | .debug, e => e.level == .debug

def admits : Filter → Event → Bool
  | .silent, _ => false
  | .library level, e => e.ofLibrary && levelAdmits level e
  | .everything level, e => levelAdmits level e

end Filter

inductive Note where
  | event (e : Event)
  | report (line : String)

def Note.render : Note → String
  | .event e => e.render
  | .report line => line

structure Journal where
  filter : Filter
  notes : Array Note

namespace Journal

def ofFilter (filter : Filter) : Journal := ⟨filter, #[]⟩

def record (j : Journal) (e : Event) : Journal :=
  if j.filter.admits e then { j with notes := j.notes.push (.event e) } else j

def report (j : Journal) (line : String) : Journal :=
  { j with notes := j.notes.push (.report line) }

def text (j : Journal) : String :=
  j.notes.foldl (fun s n => s ++ n.render ++ "\n") ""

end Journal

end Monkey
