import Monkey.Shell

/-!
The command. It shows what the pure program writes as soon as it is written, and reads the
conversation line by line; each line goes through `Session.hear`, as in `Session.converse`.
-/

namespace Monkey.Main

/-- Runs a part of a session and shows what it added to the output and to the journal. -/
def perform {α : Type} (part : Session α) (st : State) : IO (Except RunError α × State) := do
  let (result, after) := part st
  let stdout ← IO.getStdout
  let stderr ← IO.getStderr
  stdout.write (after.sink.bytes.extract st.sink.bytes.size after.sink.bytes.size)
  stdout.flush
  for note in after.journal.notes.toList.drop st.journal.notes.size do
    stderr.putStrLn note.render
  return (result, after)

/-- The next line of an input with its line feed, or nothing at its end. -/
partial def nextLine (input : IO.FS.Stream) (line : Array UInt8) : IO (List UInt8) := do
  let bytes ← input.read 1
  match bytes.toList with
  | [] => return line.toList
  | b :: _ => if b = 10 then return (line.push b).toList else nextLine input (line.push b)

partial def talk (scope : ScopeId) (st : State) : IO (Except RunError Unit × State) := do
  match ← nextLine (← IO.getStdin) #[] with
  | [] => perform (Session.hear Session.defaultDepth scope none) st
  | line =>
    match ← perform (Session.hear Session.defaultDepth scope (some line)) st with
    | (.ok (), st) => talk scope st
    | ended => return ended

def causeOf : IO.Error → StreamError
  | .permissionDenied .. => .permissionDenied
  | .inappropriateType _ 21 _ => .isDirectory
  | .inappropriateType .. => .notDirectory
  | .invalidArgument .. => .nameTooLong
  | _ => .noSuchFile

def look (path : String) : IO (Except StreamError (List UInt8)) := do
  match ← (IO.FS.readBinFile path).toBaseIO with
  | .ok content => return .ok content.toList
  | .error e => return .error (causeOf e)

def execute (config : Config) (setting : Option String) : IO UInt32 := do
  let content ← match config.command.file? with
    | some file => look file
    | none => pure (.error .noSuchFile)
  let around : Surroundings := ⟨fun _ => content, []⟩
  let (scope, st) := (State.ofSink .unlimited (.choose setting config.verbose)).newGlobal
  let (ended, st) ← perform (Session.opening Session.defaultDepth around scope config.command) st
  let (ended, st) ←
    if ended.isOk && config.command.talks then do
      let (_, st) ← perform (Session.print Session.prompt) st
      talk scope st
    else pure (ended, st)
  let (code, concluded) := Shell.conclude (ended, st)
  for note in concluded.journal.notes.toList.drop st.journal.notes.size do
    (← IO.getStderr).putStrLn note.render
  return code

def usage : String :=
  "Usage: monkey [-v] <load [-i] FILE | start | tokens FILE | parse FILE | help>"

end Monkey.Main

open Monkey in
def main (args : List String) : IO UInt32 := do
  match CommandLine.parse args with
  | .ok config => Main.execute config (← IO.getEnv "RUST_LOG")
  | .error .displayVersion => IO.println "monkey 0.1.0"; return 0
  | .error .displayHelp => IO.println Main.usage; return 0
  | .error _ => IO.eprintln Main.usage; return 2
