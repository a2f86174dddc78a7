import Monkey.Syntax

/-!
Syntax trees without their tokens. Two trees that are equal once their tokens are dropped differ at
most in where they were read. Beside it stands the one thing about a tree that decides whether its
printed text can be taken apart again: what comes before the last statement of a list.
-/

namespace Monkey

def Ident.bare (i : Ident) : Ident := ⟨{ (default : Token) with text := i.name }⟩

mutual

/-- The tree without its tokens: names, operators, literal values and shape. -/
def Expr.bare : Expr → Expr
  | .ident i => .ident i.bare
  | .integer _ n => .integer default n
  | .boolean _ b => .boolean default b
  | .string _ s => .string default s
  | .array _ es => .array default (Expr.bareAll es)
  | .hash _ ps => .hash default (Expr.barePairs ps)
  | .unary op _ e => .unary op default e.bare
  | .binary l op _ r => .binary l.bare op default r.bare
  | .cond _ c b none => .cond default c.bare b.bare none
  | .cond _ c b (some a) => .cond default c.bare b.bare (some a.bare)
  | .function f => .function f.bare
  | .call f _ as => .call f.bare default (Expr.bareAll as)
  | .index t _ i => .index t.bare default i.bare
termination_by structural e => e

def Expr.bareAll : List Expr → List Expr
  | [] => []
  | e :: es => e.bare :: Expr.bareAll es
termination_by structural es => es

def Expr.barePairs : List (Expr × Expr) → List (Expr × Expr)
  | [] => []
  | (k, v) :: ps => (k.bare, v.bare) :: Expr.barePairs ps
termination_by structural ps => ps

def Stmt.bare : Stmt → Stmt
  | .bind _ name none => .bind default name.bare none
  | .bind _ name (some e) => .bind default name.bare (some e.bare)
  | .ret _ none => .ret default none
  | .ret _ (some e) => .ret default (some e.bare)
  | .expr _ e => .expr default e.bare
  | .block b => .block b.bare
termination_by structural s => s

def Stmt.bareAll : List Stmt → List Stmt
  | [] => []
  | s :: ss => s.bare :: Stmt.bareAll ss
termination_by structural ss => ss

def Block.bare : Block → Block
  | .mk _ ss => .mk default (Stmt.bareAll ss)
termination_by structural b => b

def Lambda.bare : Lambda → Lambda
  | .mk _ params body => .mk default (params.map Ident.bare) body.bare
termination_by structural f => f

end

attribute [simp] Expr.bare Expr.bareAll Expr.barePairs Stmt.bare Stmt.bareAll Block.bare Lambda.bare

def Program.bare (p : Program) : Program := ⟨Stmt.bareAll p.statements⟩

def Stmt.terminated : Stmt → Bool
  | .bind .. | .ret .. => true
  | .expr .. | .block _ => false

mutual

/-- In every block within, each statement but the last is a `let` or a `return`. -/
def Expr.separated : Expr → Bool
  | .array _ es => Expr.separatedAll es
  | .hash _ ps => Expr.separatedPairs ps
  | .unary _ _ e => e.separated
  | .binary l _ _ r => l.separated && r.separated
  | .cond _ c b none => c.separated && b.separated
  | .cond _ c b (some a) => c.separated && b.separated && a.separated
  | .function f => f.separated
  | .call f _ as => f.separated && Expr.separatedAll as
  | .index t _ i => t.separated && i.separated
  | .ident _ | .integer .. | .boolean .. | .string .. => true
termination_by structural e => e

def Expr.separatedAll : List Expr → Bool
  | [] => true
  | e :: es => e.separated && Expr.separatedAll es
termination_by structural es => es

def Expr.separatedPairs : List (Expr × Expr) → Bool
  | [] => true
  | (k, v) :: ps => k.separated && v.separated && Expr.separatedPairs ps
termination_by structural ps => ps

def Stmt.separated : Stmt → Bool
  | .bind _ _ (some e) | .ret _ (some e) | .expr _ e => e.separated
  | .bind _ _ none | .ret _ none => true
  | .block b => b.separated
termination_by structural s => s

def Stmt.separatedAll : List Stmt → Bool
  | [] => true
  | [s] => s.separated
  | s :: t :: ss => s.terminated && s.separated && Stmt.separatedAll (t :: ss)
termination_by structural ss => ss

def Block.separated : Block → Bool
  | .mk _ ss => Stmt.separatedAll ss
termination_by structural b => b

def Lambda.separated : Lambda → Bool
  | .mk _ _ body => body.separated
termination_by structural f => f

end

attribute [simp] Expr.separated Expr.separatedAll Expr.separatedPairs Stmt.separated
  Stmt.separatedAll Block.separated Lambda.separated

def Program.separated (p : Program) : Bool := Stmt.separatedAll p.statements

theorem Stmt.terminated_bare (s : Stmt) : s.bare.terminated = s.terminated := by
  rcases s with ⟨_, _, _ | _⟩ | ⟨_, _ | _⟩ | _ | _ <;> rfl

theorem Stmt.separated_of_cons {s : Stmt} {ss : List Stmt}
    (h : Stmt.separatedAll (s :: ss) = true) :
    s.separated = true ∧ Stmt.separatedAll ss = true := by
  cases ss with
  | nil => exact ⟨h, rfl⟩
  | cons t ss =>
    simp only [Stmt.separatedAll, Bool.and_eq_true] at h
    exact ⟨h.1.2, h.2⟩

end Monkey
