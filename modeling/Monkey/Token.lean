/-!
Tokens: a kind, the text that the kind leaves open, and the place in the source. The text of a
string token is its content, without the quotes around it. Lines and columns count from one, columns
count characters, and only a line feed starts a new line.
-/

namespace Monkey

structure Position where
  line : Nat
  column : Nat
  deriving DecidableEq, Repr, Inhabited

namespace Position

def start : Position := ⟨1, 1⟩

def advance (p : Position) (c : Char) : Position :=
  if c = '\n' then ⟨p.line + 1, 1⟩ else ⟨p.line, p.column + 1⟩

def after (p : Position) (cs : List Char) : Position := cs.foldl advance p

def render (p : Position) : String :=
  "[line " ++ toString p.line ++ " column " ++ toString p.column ++ "]"

@[simp] theorem after_nil (p : Position) : p.after [] = p := rfl

@[simp] theorem after_cons (p : Position) (c : Char) (cs : List Char) :
    p.after (c :: cs) = (p.advance c).after cs := rfl

theorem after_append (p : Position) (as bs : List Char) :
    p.after (as ++ bs) = (p.after as).after bs := by
  simp [after, List.foldl_append]

end Position

/-- From the first character of a piece of text to the place right after its last one. -/
structure Span where
  first : Position
  stop : Position
  deriving DecidableEq, Repr, Inhabited

def Span.render (s : Span) : String :=
  toString s.first.line ++ ":" ++ toString s.first.column ++ "-" ++
    toString s.stop.line ++ ":" ++ toString s.stop.column

inductive TokenKind where
  | illegal
  | leftParen | rightParen
  | leftBrace | rightBrace
  | leftBracket | rightBracket
  | comma | semicolon | colon
  | assign | equal
  | bang | notEqual
  | greater | less
  | plus | minus
  | star | slash
  | identifier
  | integer
  | string
  | kwFn | kwLet | kwTrue | kwFalse | kwIf | kwElse | kwReturn
  | eof
  deriving DecidableEq, Repr, Inhabited

def TokenKind.label : TokenKind → String
  | .illegal => "illegal"
  | .leftParen => "("
  | .rightParen => ")"
  | .leftBrace => "\x7b"
  | .rightBrace => "\x7d"
  | .leftBracket => "["
  | .rightBracket => "]"
  | .comma => ","
  | .semicolon => ";"
  | .colon => ":"
  | .assign => "="
  | .equal => "=="
  | .bang => "!"
  | .notEqual => "!="
  | .greater => ">"
  | .less => "<"
  | .plus => "+"
  | .minus => "-"
  | .star => "*"
  | .slash => "/"
  | .identifier => "identifier"
  | .integer => "integer"
  | .string => "string"
  | .kwFn => "fn"
  | .kwLet => "let"
  | .kwTrue => "true"
  | .kwFalse => "false"
  | .kwIf => "if"
  | .kwElse => "else"
  | .kwReturn => "return"
  | .eof => "EOF"

structure Token where
  kind : TokenKind
  text : String
  span : Span
  deriving DecidableEq, Repr, Inhabited

namespace Token

/-- The token as a reader would write it; strings get plain quotes back. -/
def render (t : Token) : String :=
  match t.kind with
  | .eof => "EOF"
  | .string => "\"" ++ t.text ++ "\""
  | _ => t.text

def padRight (width : Nat) (s : String) : String :=
  s ++ String.ofList (List.replicate (width - s.length) ' ')

def listing (t : Token) : String :=
  t.span.first.render ++ " " ++ padRight 10 t.kind.label ++ " " ++ t.render

end Token

/-- The kind of the token at the head of a stream; past its end there is only end of input. -/
def kindAt : List Token → TokenKind
  | [] => .eof
  | t :: _ => t.kind

@[simp] theorem kindAt_nil : kindAt [] = .eof := rfl

@[simp] theorem kindAt_cons (t : Token) (ts : List Token) : kindAt (t :: ts) = t.kind := rfl

end Monkey
