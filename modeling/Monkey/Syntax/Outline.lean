import Monkey.Syntax.Print
import Monkey.Text.Characters

/-!
Syntax trees as nested parentheses with the place of every node, for looking at what was read
where.
-/

namespace Monkey

open Text

def Token.place (t : Token) : String := t.span.render

def Ident.outline (i : Ident) : String := i.name ++ "@" ++ i.token.place

def outlineForm (parts : List String) : String := "(" ++ " ".intercalate parts ++ ")"

mutual

def Expr.outline : Expr → String
  | .ident i => outlineForm ["id", i.outline]
  | .integer t n => outlineForm ["int", t.place, toString n]
  | .boolean t b => outlineForm ["bool", t.place, toString b]
  | .string t s => outlineForm ["str", t.place, quoted s]
  | .array t es => outlineForm ("array" :: t.place :: Expr.outlineAll es)
  | .hash t ps => outlineForm ("hash" :: t.place :: Expr.outlinePairs ps)
  | .unary op t e => outlineForm ["prefix", op.symbol ++ "@" ++ t.place, e.outline]
  | .binary l op t r => outlineForm ["infix", op.symbol ++ "@" ++ t.place, l.outline, r.outline]
  | .cond t c b none => outlineForm ["if", t.place, c.outline, b.outline]
  | .cond t c b (some a) => outlineForm ["if", t.place, c.outline, b.outline, a.outline]
  | .function f => f.outline
  | .call f t as => outlineForm ("call" :: t.place :: f.outline :: Expr.outlineAll as)
  | .index e t i => outlineForm ["index", t.place, e.outline, i.outline]
termination_by structural e => e

def Expr.outlineAll : List Expr → List String
  | [] => []
  | e :: es => e.outline :: Expr.outlineAll es
termination_by structural es => es

def Expr.outlinePairs : List (Expr × Expr) → List String
  | [] => []
  | (k, v) :: ps => outlineForm [k.outline, v.outline] :: Expr.outlinePairs ps
termination_by structural ps => ps

def Stmt.outline : Stmt → String
  | .bind t name none => outlineForm ["let", t.place, name.outline, "none"]
  | .bind t name (some e) => outlineForm ["let", t.place, name.outline, e.outline]
  | .ret t none => outlineForm ["return", t.place, "none"]
  | .ret t (some e) => outlineForm ["return", t.place, e.outline]
  | .expr t e => outlineForm ["expr", t.place, e.outline]
  | .block b => b.outline
termination_by structural s => s

def Stmt.outlineAll : List Stmt → List String
  | [] => []
  | s :: ss => s.outline :: Stmt.outlineAll ss
termination_by structural ss => ss

def Block.outline : Block → String
  | .mk t ss => outlineForm ("block" :: t.place :: Stmt.outlineAll ss)
termination_by structural b => b

def Lambda.outline : Lambda → String
  | .mk t params body =>
    outlineForm ["fn", t.place, outlineForm (params.map Ident.outline), body.outline]
termination_by structural f => f

end

end Monkey
