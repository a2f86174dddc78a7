import Mathlib.Logic.Relation
import Monkey.Syntax

/-!
What a tree is made of: its nodes, its tokens and its function literals.

A node is an expression, a statement or a block, wherever it stands: in an argument, in a branch or
in the body of a function. Tokens are listed as a reader of the source meets them: an operator comes
between its operands, though the node it belongs to is put together after both, and the first token
of an expression statement is listed once, with the expression. Code outside all function literals
has nesting zero, and a literal is one deeper than its body.
-/

namespace Monkey

/-! ### Nodes -/

inductive Part where
  | expr (e : Expr)
  | stmt (s : Stmt)
  | block (b : Block)

namespace Part

def children : Part → List Part
  | .expr (.ident _) | .expr (.integer ..) | .expr (.boolean ..) | .expr (.string ..) => []
  | .expr (.array _ es) => es.map .expr
  | .expr (.hash _ ps) => ps.flatMap fun p => [.expr p.1, .expr p.2]
  | .expr (.unary _ _ e) => [.expr e]
  | .expr (.binary l _ _ r) => [.expr l, .expr r]
  | .expr (.cond _ c b a) => .expr c :: .block b :: a.toList.map .block
  | .expr (.function f) => [.block f.body]
  | .expr (.call f _ as) => .expr f :: as.map .expr
  | .expr (.index t _ i) => [.expr t, .expr i]
  | .stmt (.bind _ _ e) | .stmt (.ret _ e) => e.toList.map .expr
  | .stmt (.expr _ e) => [.expr e]
  | .stmt (.block b) => [.block b]
  | .block b => b.statements.map .stmt

/-- The second node is the first one or stands below it, at any depth. -/
def Contains : Part → Part → Prop := Relation.ReflTransGen fun x y => y ∈ x.children

def Everywhere (P : Part → Prop) (x : Part) : Prop := ∀ y, x.Contains y → P y

variable {P : Part → Prop} {x : Part}

theorem everywhere_iff : x.Everywhere P ↔ P x ∧ ∀ y ∈ x.children, y.Everywhere P := by
  constructor
  · intro h
    exact ⟨h x .refl, fun y hy z hz => h z (hz.head hy)⟩
  · rintro ⟨hx, hbelow⟩ z hz
    rcases hz.cases_head with rfl | ⟨y, hy, hz⟩
    · exact hx
    · exact hbelow y hy z hz

end Part

def Program.Contains (p : Program) (x : Part) : Prop :=
  ∃ s ∈ p.statements, (Part.stmt s).Contains x

theorem Program.Contains.child {p : Program} {x y : Part} (h : p.Contains x)
    (hy : y ∈ x.children) : p.Contains y := by
  obtain ⟨s, hs, hx⟩ := h
  exact ⟨s, hs, hx.tail hy⟩

/-! ### Tokens -/

mutual

def Expr.tokens : Expr → List Token
  | .ident i => [i.token]
  | .integer t _ | .boolean t _ | .string t _ => [t]
  | .array t es => t :: Expr.tokensAll es
  | .hash t ps => t :: Expr.tokensPairs ps
  | .unary _ t e => t :: e.tokens
  | .binary l _ t r => l.tokens ++ t :: r.tokens
  | .cond t c b none => t :: (c.tokens ++ b.tokens)
  | .cond t c b (some a) => t :: (c.tokens ++ (b.tokens ++ a.tokens))
  | .function f => f.tokens
  | .call f t as => f.tokens ++ t :: Expr.tokensAll as
  | .index e t i => e.tokens ++ t :: i.tokens
termination_by structural e => e

def Expr.tokensAll : List Expr → List Token
  | [] => []
  | e :: es => e.tokens ++ Expr.tokensAll es
termination_by structural es => es

def Expr.tokensPairs : List (Expr × Expr) → List Token
  | [] => []
  | (k, v) :: ps => k.tokens ++ (v.tokens ++ Expr.tokensPairs ps)
termination_by structural ps => ps

def Stmt.tokens : Stmt → List Token
  | .bind t name none => [t, name.token]
  | .bind t name (some e) => t :: name.token :: e.tokens
  | .ret t none => [t]
  | .ret t (some e) => t :: e.tokens
  | .expr _ e => e.tokens
  | .block b => b.tokens
termination_by structural s => s

def Stmt.tokensAll : List Stmt → List Token
  | [] => []
  | s :: ss => s.tokens ++ Stmt.tokensAll ss
termination_by structural ss => ss

def Block.tokens : Block → List Token
  | .mk t ss => t :: Stmt.tokensAll ss
termination_by structural b => b

def Lambda.tokens : Lambda → List Token
  | .mk t ps b => t :: (ps.map Ident.token ++ b.tokens)
termination_by structural f => f

end

def Program.tokens (p : Program) : List Token := Stmt.tokensAll p.statements

/-! ### Nesting of function literals -/

mutual

def Expr.nesting : Expr → Nat
  | .array _ es => Expr.nestingAll es
  | .hash _ ps => Expr.nestingPairs ps
  | .unary _ _ e => e.nesting
  | .binary l _ _ r => max l.nesting r.nesting
  | .cond _ c b none => max c.nesting b.nesting
  | .cond _ c b (some a) => max c.nesting (max b.nesting a.nesting)
  | .function f => f.nesting
  | .call f _ as => max f.nesting (Expr.nestingAll as)
  | .index t _ i => max t.nesting i.nesting
  | .ident _ | .integer .. | .boolean .. | .string .. => 0
termination_by structural e => e

def Expr.nestingAll : List Expr → Nat
  | [] => 0
  | e :: es => max e.nesting (Expr.nestingAll es)
termination_by structural es => es

def Expr.nestingPairs : List (Expr × Expr) → Nat
  | [] => 0
  | (k, v) :: ps => max k.nesting (max v.nesting (Expr.nestingPairs ps))
termination_by structural ps => ps

def Stmt.nesting : Stmt → Nat
  | .bind _ _ (some e) | .ret _ (some e) | .expr _ e => e.nesting
  | .bind _ _ none | .ret _ none => 0
  | .block b => b.nesting
termination_by structural s => s

def Stmt.nestingAll : List Stmt → Nat
  | [] => 0
  | s :: ss => max s.nesting (Stmt.nestingAll ss)
termination_by structural ss => ss

def Block.nesting : Block → Nat
  | .mk _ ss => Stmt.nestingAll ss
termination_by structural b => b

def Lambda.nesting : Lambda → Nat
  | .mk _ _ body => body.nesting + 1
termination_by structural f => f

end

def Program.nesting (p : Program) : Nat := Stmt.nestingAll p.statements

theorem Lambda.nesting_eq (f : Lambda) : f.nesting = f.body.nesting + 1 := by
  cases f
  rfl

theorem Expr.nestingAll_append (es fs : List Expr) :
    Expr.nestingAll (es ++ fs) = max (Expr.nestingAll es) (Expr.nestingAll fs) := by
  induction es with
  | nil => simp [Expr.nestingAll]
  | cons e es ih => simp [Expr.nestingAll, ih, Nat.max_assoc]

theorem Expr.nestingPairs_append (ps qs : List (Expr × Expr)) :
    Expr.nestingPairs (ps ++ qs) = max (Expr.nestingPairs ps) (Expr.nestingPairs qs) := by
  induction ps with
  | nil => simp [Expr.nestingPairs]
  | cons p ps ih => simp [Expr.nestingPairs, ih, Nat.max_assoc]

theorem Stmt.nestingAll_append (ss ts : List Stmt) :
    Stmt.nestingAll (ss ++ ts) = max (Stmt.nestingAll ss) (Stmt.nestingAll ts) := by
  induction ss with
  | nil => simp [Stmt.nestingAll]
  | cons s ss ih => simp [Stmt.nestingAll, ih, Nat.max_assoc]

end Monkey
