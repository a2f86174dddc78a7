import Monkey.Token

/-!
Syntax trees. Every node keeps the token it was read from beside what the token means, so a tree
can be listed with its places in the source and printed without looking at text again. Evaluation
tells operators by the text of their tokens.
-/

namespace Monkey

inductive UnaryOp where
  | not | neg
  deriving DecidableEq, Repr, Inhabited

namespace UnaryOp

def symbol : UnaryOp → String
  | .not => "!"
  | .neg => "-"

def ofKind? : TokenKind → Option UnaryOp
  | .bang => some .not
  | .minus => some .neg
  | _ => none

end UnaryOp

inductive BinaryOp where
  | add | sub | mul | div | lt | gt | eq | ne
  deriving DecidableEq, Repr, Inhabited

namespace BinaryOp

def symbol : BinaryOp → String
  | .add => "+"
  | .sub => "-"
  | .mul => "*"
  | .div => "/"
  | .lt => "<"
  | .gt => ">"
  | .eq => "=="
  | .ne => "!="

def ofKind? : TokenKind → Option BinaryOp
  | .plus => some .add
  | .minus => some .sub
  | .star => some .mul
  | .slash => some .div
  | .less => some .lt
  | .greater => some .gt
  | .equal => some .eq
  | .notEqual => some .ne
  | _ => none

end BinaryOp

structure Ident where
  token : Token
  deriving DecidableEq, Repr, Inhabited

def Ident.name (i : Ident) : String := i.token.text

mutual

inductive Expr where
  | ident (name : Ident)
  | integer (token : Token) (value : Int64)
  | boolean (token : Token) (value : Bool)
  | string (token : Token) (value : String)
  | array (token : Token) (elements : List Expr)
  | hash (token : Token) (pairs : List (Expr × Expr))
  | unary (op : UnaryOp) (token : Token) (operand : Expr)
  | binary (left : Expr) (op : BinaryOp) (token : Token) (right : Expr)
  | cond (token : Token) (condition : Expr) (consequence : Block) (alternative : Option Block)
  | function (literal : Lambda)
  | call (callee : Expr) (token : Token) (args : List Expr)
  | index (target : Expr) (token : Token) (position : Expr)

/-- The token of an expression statement is the first token of the expression. Blocks can be
statements, though no source is read as one. -/
inductive Stmt where
  | bind (token : Token) (name : Ident) (value : Option Expr)
  | ret (token : Token) (value : Option Expr)
  | expr (token : Token) (value : Expr)
  | block (body : Block)

inductive Block where
  | mk (token : Token) (statements : List Stmt)

inductive Lambda where
  | mk (token : Token) (params : List Ident) (body : Block)

end

instance : Inhabited Expr := ⟨.ident default⟩
instance : Inhabited Stmt := ⟨.ret default none⟩
instance : Inhabited Block := ⟨.mk default []⟩
instance : Inhabited Lambda := ⟨.mk default [] default⟩

namespace Block

def token : Block → Token
  | .mk t _ => t

def statements : Block → List Stmt
  | .mk _ ss => ss

end Block

namespace Lambda

def token : Lambda → Token
  | .mk t _ _ => t

def params : Lambda → List Ident
  | .mk _ ps _ => ps

def body : Lambda → Block
  | .mk _ _ b => b

end Lambda

structure Program where
  statements : List Stmt
  deriving Inhabited

end Monkey
