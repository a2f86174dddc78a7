import Monkey.Syntax

/-!
Syntax trees as program text. Operators are fully parenthesised, so the text shows how the tree
groups; positions leave no trace in it.
-/

namespace Monkey

mutual

def Expr.print : Expr → String
  | .ident i => i.name
  | .integer _ n => toString n
  | .boolean _ b => toString b
  | .string _ s => "\"" ++ s ++ "\""
  | .array _ es => "[" ++ ", ".intercalate (Expr.printAll es) ++ "]"
  | .hash _ ps => "\x7b" ++ ", ".intercalate (Expr.printPairs ps) ++ "\x7d"
  | .unary op _ e => "(" ++ op.symbol ++ e.print ++ ")"
  | .binary l op _ r => "(" ++ l.print ++ " " ++ op.symbol ++ " " ++ r.print ++ ")"
  | .cond _ c b none => "if (" ++ c.print ++ ") " ++ b.print
  | .cond _ c b (some a) => "if (" ++ c.print ++ ") " ++ b.print ++ " else " ++ a.print
  | .function f => f.print
  | .call f _ as => f.print ++ "(" ++ ", ".intercalate (Expr.printAll as) ++ ")"
  | .index t _ i => "(" ++ t.print ++ "[" ++ i.print ++ "])"
termination_by structural e => e

def Expr.printAll : List Expr → List String
  | [] => []
  | e :: es => e.print :: Expr.printAll es
termination_by structural es => es

def Expr.printPairs : List (Expr × Expr) → List String
  | [] => []
  | (k, v) :: ps => (k.print ++ ": " ++ v.print) :: Expr.printPairs ps
termination_by structural ps => ps

def Stmt.print : Stmt → String
  | .bind _ name none => "let " ++ name.name ++ " = ;"
  | .bind _ name (some e) => "let " ++ name.name ++ " = " ++ e.print ++ ";"
  | .ret _ none => "return;"
  | .ret _ (some e) => "return " ++ e.print ++ ";"
  | .expr _ e => e.print
  | .block b => b.print
termination_by structural s => s

def Stmt.printAll : List Stmt → List String
  | [] => []
  | s :: ss => s.print :: Stmt.printAll ss
termination_by structural ss => ss

def Block.print : Block → String
  | .mk _ ss => "\x7b " ++ " ".intercalate (Stmt.printAll ss) ++ " \x7d"
termination_by structural b => b

def Lambda.print : Lambda → String
  | .mk _ params body =>
    "fn(" ++ ", ".intercalate (params.map Ident.name) ++ ") " ++ body.print
termination_by structural f => f

end

/-- The statements one after the other, with nothing between them. -/
def Program.print (p : Program) : String := String.join (Stmt.printAll p.statements)

end Monkey
