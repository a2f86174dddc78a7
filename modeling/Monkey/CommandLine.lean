/-!
The command line: flags, then a command, then the flags and the file of that command. Words are
taken from left to right and the first one that does not fit decides what is wrong; what is missing
only shows at the end. `-v` may stand before and after the command, but only once in each place.
-/

namespace Monkey

inductive Command where
  | load (file : String) (interactive : Bool)
  | start
  | tokens (file : String)
  | parse (file : String)
  deriving DecidableEq, Repr

namespace Command

def file? : Command → Option String
  | .load file _ | .tokens file | .parse file => some file
  | .start => none

def talks : Command → Bool
  | .load _ interactive => interactive
  | .start => true
  | .tokens _ | .parse _ => false

end Command

structure Config where
  command : Command
  verbose : Bool
  deriving DecidableEq, Repr

inductive UsageError where
  | displayHelp
  | displayVersion
  /-- Nothing was asked for, so help is shown. -/
  | displayHelpOnMissing
  | missingCommand
  | invalidCommand
  | unknownArgument
  | missingRequiredArgument
  /-- A flag was given twice. -/
  | argumentConflict
  /-- A flag was given a value. -/
  | tooManyValues
  /-- The path of a file was empty. -/
  | invalidValue
  deriving DecidableEq, Repr

namespace CommandLine

inductive CommandName where
  | load | start | tokens | parse
  deriving DecidableEq, Repr

namespace CommandName

def ofWord? : String → Option CommandName
  | "load" => some .load
  | "start" => some .start
  | "tokens" => some .tokens
  | "parse" => some .parse
  | _ => none

def takesFile : CommandName → Bool
  | .start => false
  | _ => true

end CommandName

inductive Flag where
  | verbose | interactive | help | version
  deriving DecidableEq, Repr

namespace Flag

def ofLong? : String → Option Flag
  | "verbose" => some .verbose
  | "interactive" => some .interactive
  | "help" => some .help
  | "version" => some .version
  | _ => none

def ofShort? : Char → Option Flag
  | 'v' => some .verbose
  | 'i' => some .interactive
  | 'h' => some .help
  | 'V' => some .version
  | _ => none

/-- Whether a flag exists at a level: before the command (`none`) or behind it. -/
def allowed : Option CommandName → Flag → Bool
  | _, .verbose | _, .help => true
  | none, .version => true
  | some .load, .interactive => true
  | _, _ => false

end Flag

inductive Word where
  /-- `--`: all that follows is taken as it stands. -/
  | escape
  | long (name : String) (attached : Bool)
  | short (letters : List Char)
  | plain

def Word.ofLong (name : List Char) : Word :=
  .long (String.ofList (name.takeWhile (· != '='))) (name.contains '=')

def Word.classify (w : String) : Word :=
  match w.toList with
  | ['-', '-'] => .escape
  | '-' :: '-' :: name => .ofLong name
  | '-' :: c :: cs => .short (c :: cs)
  | _ => .plain

structure Given where
  verbose : Bool := false
  interactive : Bool := false
  file : Option String := none
  deriving DecidableEq, Repr

namespace Given

/-- A file is checked when the next flag or the end of the line comes. -/
def settled (g : Given) : Except UsageError Unit :=
  if g.file = some "" then .error .invalidValue else .ok ()

def flag (g : Given) (f : Flag) : Except UsageError Given := do
  g.settled
  match f with
  | .help => .error .displayHelp
  | .version => .error .displayVersion
  | .verbose => if g.verbose then .error .argumentConflict else .ok { g with verbose := true }
  | .interactive =>
    if g.interactive then .error .argumentConflict else .ok { g with interactive := true }

def long (level : Option CommandName) (g : Given) (name : String) (attached : Bool) :
    Except UsageError Given :=
  match Flag.ofLong? name with
  | some f =>
    if !f.allowed level then .error .unknownArgument
    else if attached then .error .tooManyValues
    else g.flag f
  | none => .error .unknownArgument

def short (level : Option CommandName) (g : Given) : List Char → Except UsageError Given
  | [] => .ok g
  | c :: cs =>
    match Flag.ofShort? c with
    | some f =>
      if f.allowed level then do
        let g ← g.flag f
        short level g cs
      else .error .unknownArgument
    | none => .error .unknownArgument

def plain (command : CommandName) (g : Given) (w : String) : Except UsageError Given :=
  if command.takesFile && g.file.isNone then .ok { g with file := some w }
  else .error .unknownArgument

def finish (command : CommandName) (g : Given) : Except UsageError Command := do
  g.settled
  match command, g.file with
  | .start, _ => .ok .start
  | .load, some file => .ok (.load file g.interactive)
  | .tokens, some file => .ok (.tokens file)
  | .parse, some file => .ok (.parse file)
  | _, none => .error .missingRequiredArgument

end Given

def afterEscape (command : CommandName) (g : Given) : List String → Except UsageError Given
  | [] => .ok g
  | w :: ws => do
    let g ← g.plain command w
    afterEscape command g ws

def commandWords (command : CommandName) (g : Given) : List String → Except UsageError Given
  | [] => .ok g
  | w :: ws =>
    match Word.classify w with
    | .escape => afterEscape command g ws
    | .long name attached => do
      let g ← g.long (some command) name attached
      commandWords command g ws
    | .short letters => do
      let g ← g.short (some command) letters
      commandWords command g ws
    | .plain => do
      let g ← g.plain command w
      commandWords command g ws

def helpWords : List String → UsageError
  | [] => .displayHelp
  | [w] => if (CommandName.ofWord? w).isSome || w == "help" then .displayHelp else .invalidCommand
  | _ => .invalidCommand

/-- A first word behind `--` where a command should stand. -/
def escapedCommand (w : String) : UsageError :=
  if (CommandName.ofWord? w).isSome || w == "help" then .unknownArgument else .invalidCommand

def nothingAsked (g : Given) : UsageError :=
  if g.verbose then .missingCommand else .displayHelpOnMissing

def words (g : Given) : List String → Except UsageError Config
  | [] => .error (nothingAsked g)
  | w :: ws =>
    match CommandName.ofWord? w with
    | some command => do
      let inner ← commandWords command {} ws
      let c ← inner.finish command
      .ok ⟨c, g.verbose || inner.verbose⟩
    | none =>
      if w = "help" then .error (helpWords ws)
      else match Word.classify w with
        | .escape => match ws with
          | [] => .error (nothingAsked g)
          | w :: _ => .error (escapedCommand w)
        | .long name attached => do
          let g ← g.long none name attached
          words g ws
        | .short letters => do
          let g ← g.short none letters
          words g ws
        | .plain => .error .invalidCommand

def parse (args : List String) : Except UsageError Config := words {} args

end CommandLine

end Monkey
