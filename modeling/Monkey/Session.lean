import Monkey.Run

/-!
The two ways to run source text against a scope. `load` runs a whole script and prints its value,
unless that is null. `converse` reads line by line, shows a prompt and echoes what each line gives;
what is wrong with a line ends the line, not the conversation.
-/

namespace Monkey

inductive RunError where
  | stream (e : StreamError)
  | parse (errors : List SyntaxError)
  | runtime (e : RuntimeError)
  | tooDeep
  deriving DecidableEq, Repr

def RunError.message : RunError → String
  | .stream e => e.message
  | .parse errors => toString errors.length ++ " parse error(s)"
  | .runtime e => e.message
  | .tooDeep => "call depth exceeded"

abbrev Session (α : Type) : Type := Action RunError α

namespace Session

/-- Deep enough for any script that finishes on a stack of ordinary size. -/
def defaultDepth : Nat := 1000000

def print (text : String) : Session Unit := Action.write (.stream .sinkFull) text

def read (source : String) : Session (Program × List Diagnostic) := fun st =>
  let (parsed, st) := st.read source
  (.ok parsed, st)

def run (depth : Nat) (scope : ScopeId) (p : Program) : Session Value := fun st =>
  match p.run depth scope st with
  | (some v, st) => (.ok v, st)
  | (none, st) => (.error .tooDeep, st)

def printLines : List String → Session Unit
  | [] => pure ()
  | line :: lines => do
    print (line ++ "\n")
    printLines lines

def reportLines : List String → Session Unit
  | [] => pure ()
  | line :: lines => do
    Action.report line
    reportLines lines

def faultLines (ds : List Diagnostic) : List String := ds.map fun d => "\t" ++ d.message

def reject {α : Type} (ds : List Diagnostic) : Session α := do
  reportLines (faultLines ds)
  Action.stop (.parse (ds.map Diagnostic.error))

def load (depth : Nat) (scope : ScopeId) (source : String) : Session Unit := do
  let (program, ds) ← read source
  if ds.isEmpty then
    let result ← run depth scope program
    match result with
    | .null => pure ()
    | .error e => do
      print ("ERROR: " ++ e.message ++ "\n")
      Action.stop (.runtime e)
    | v => print (v.inspect ++ "\n")
  else reject ds

def prompt : String := ">> "

def respond (depth : Nat) (scope : ScopeId) (line : String) : Session Unit := do
  let (program, ds) ← read line
  if ds.isEmpty then
    let result ← run depth scope program
    print (result.inspect ++ "\n")
  else do
    Action.record (.skippingLine ds.length)
    printLines (faultLines ds)

def respondBytes (depth : Nat) (scope : ScopeId) (line : List UInt8) : Session Unit :=
  match decodeUtf8? line with
  | none => Action.stop (.stream .notUtf8)
  | some text => respond depth scope text

/-- What a conversation does between two looks at its input. The prompt is out already: a line is
answered and followed by the next prompt, the end of the input by a line feed. -/
def hear (depth : Nat) (scope : ScopeId) : Option (List UInt8) → Session Unit
  | some line => do
    respondBytes depth scope line
    print prompt
  | none => print "\n"

def hearAll (depth : Nat) (scope : ScopeId) : List (List UInt8) → Session Unit
  | [] => hear depth scope none
  | line :: lines => do
    hear depth scope (some line)
    hearAll depth scope lines

def respondAll (depth : Nat) (scope : ScopeId) (lines : List (List UInt8)) : Session Unit := do
  print prompt
  hearAll depth scope lines

def converse (depth : Nat) (scope : ScopeId) (input : List UInt8) : Session Unit :=
  respondAll depth scope (splitLines input)

end Session

end Monkey
