import Monkey.CommandLine
import Monkey.Session

/-!
The program behind the command line, as a function of what it can see: the files, the standard input
and the setting of the log. Standard output is the sink of the final state; standard error is its
journal.
-/

namespace Monkey

structure Surroundings where
  /-- The bytes of the file at a path. -/
  file : String → Except StreamError (List UInt8)
  input : List UInt8

namespace Filter

def ofLevel? : String → Option (Option Level)
  | "trace" => some (some .trace)
  | "debug" => some (some .debug)
  | "info" | "warn" | "error" | "off" => some none
  | _ => none

def ofSetting (setting : String) : Filter :=
  match ofLevel? setting with
  | some (some level) => .everything level
  | some none => .silent
  | none =>
    match setting.splitOn "=" with
    | ["monkey_interpreter", level] =>
      match ofLevel? level with
      | some (some level) => .library level
      | _ => .silent
    | _ => .silent

/-- A setting wins over `-v`. -/
def choose (setting : Option String) (verbose : Bool) : Filter :=
  match setting with
  | some s => ofSetting s
  | none => if verbose then .library .debug else .silent

end Filter

namespace Session

def readScript (around : Surroundings) (path : String) : Session String := do
  Action.record (.readingScript path)
  match around.file path with
  | .error e => Action.stop (.stream e)
  | .ok content =>
    match decodeUtf8? content with
    | some text => pure text
    | none => Action.stop (.stream .notUtf8)

def listTokens (source : String) : Session Unit :=
  printLines (((tokenize source).filter (·.kind ≠ .eof)).map Token.listing)

def listStatements (source : String) : Session Unit := do
  let (program, ds) ← read source
  if ds.isEmpty then printLines (Stmt.printAll program.statements)
  else reject ds

def opening (depth : Nat) (around : Surroundings) (scope : ScopeId) : Command → Session Unit
  | .load file _ => do
    let source ← readScript around file
    load depth scope source
  | .start => pure ()
  | .tokens file => do
    let source ← readScript around file
    listTokens source
  | .parse file => do
    let source ← readScript around file
    listStatements source

def execute (depth : Nat) (around : Surroundings) (scope : ScopeId) (command : Command) :
    Session Unit := do
  opening depth around scope command
  if command.talks then converse depth scope around.input else pure ()

end Session

namespace Shell

/-- How a run ended: parse and runtime errors were shown where they came up. -/
def conclude : Except RunError Unit × State → UInt32 × State
  | (.ok (), st) => (0, st)
  | (.error (.stream e), st) => (1, st.report ("error: " ++ e.message))
  | (.error .tooDeep, st) => (1, st.report ("error: " ++ RunError.tooDeep.message))
  | (.error e, st) => (1, st.record (.runFailed e.message))

def run (depth : Nat) (around : Surroundings) (setting : Option String) (config : Config) :
    UInt32 × State :=
  let st := State.ofSink .unlimited (.choose setting config.verbose)
  let (scope, st) := st.newGlobal
  conclude (Session.execute depth around scope config.command st)

end Shell

end Monkey
