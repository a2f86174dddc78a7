import Monkey.Syntax.Print
import Monkey.Text.Characters
import Monkey.Value

/-!
Values as text: `inspect` is what programs and their users see, `dump` shows the kind of every part.
-/

namespace Monkey

open Text

mutual

def Value.inspect : Value → String
  | .integer n => toString n
  | .boolean b => toString b
  | .string s => s
  | .null => "null"
  | .array vs => "[" ++ ", ".intercalate (Value.inspectAll vs) ++ "]"
  | .hash es => "\x7b" ++ ", ".intercalate (Entry.inspectAll es) ++ "\x7d"
  | .function f => f.literal.print
  | .builtin b => "builtin function " ++ b.name
  | .returned v => v.inspect
  | .error e => "ERROR: " ++ e.message
termination_by structural v => v

def Value.inspectAll : List Value → List String
  | [] => []
  | v :: vs => v.inspect :: Value.inspectAll vs
termination_by structural vs => vs

def Entry.inspectAll : List Entry → List String
  | [] => []
  | .mk _ k v :: es => (k.inspect ++ ": " ++ v.inspect) :: Entry.inspectAll es
termination_by structural es => es

end

mutual

def Value.dump : Value → String
  | .integer n => toString n
  | .boolean b => toString b
  | .string s => quoted s
  | .null => "null"
  | .array vs => "[" ++ ",".intercalate (Value.dumpAll vs) ++ "]"
  | .hash es => "\x7b" ++ ",".intercalate (Entry.dumpAll es) ++ "\x7d"
  | .function f =>
    "fn(" ++ ",".intercalate (f.literal.params.map Ident.name) ++ ")<" ++
      quoted f.literal.body.print ++ ">"
  | .builtin b => "builtin(" ++ b.name ++ ")"
  | .returned v => "return(" ++ v.dump ++ ")"
  | .error e => "error(" ++ e.label ++ "," ++ quoted e.message ++ ")"
termination_by structural v => v

def Value.dumpAll : List Value → List String
  | [] => []
  | v :: vs => v.dump :: Value.dumpAll vs
termination_by structural vs => vs

def Entry.dumpAll : List Entry → List String
  | [] => []
  | .mk _ k v :: es => (k.dump ++ "=>" ++ v.dump) :: Entry.dumpAll es
termination_by structural es => es

end

end Monkey
