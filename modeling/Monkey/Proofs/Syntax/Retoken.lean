import Monkey.Syntax.Print

/-!
Syntax trees with other tokens. What a tree means and how it is printed depends on the texts of the
tokens that are names, and on no other token; so a tree can be moved to another place of a source,
or to none.
-/

namespace Monkey

def Ident.retoken (g : Token → Token) (i : Ident) : Ident := ⟨g i.token⟩

mutual

def Expr.retoken (g : Token → Token) : Expr → Expr
  | .ident i => .ident (i.retoken g)
  | .integer t n => .integer (g t) n
  | .boolean t b => .boolean (g t) b
  | .string t s => .string (g t) s
  | .array t es => .array (g t) (Expr.retokenAll g es)
  | .hash t ps => .hash (g t) (Expr.retokenPairs g ps)
  | .unary op t e => .unary op (g t) (e.retoken g)
  | .binary l op t r => .binary (l.retoken g) op (g t) (r.retoken g)
  | .cond t c b none => .cond (g t) (c.retoken g) (b.retoken g) none
  | .cond t c b (some a) => .cond (g t) (c.retoken g) (b.retoken g) (some (a.retoken g))
  | .function f => .function (f.retoken g)
  | .call f t as => .call (f.retoken g) (g t) (Expr.retokenAll g as)
  | .index e t i => .index (e.retoken g) (g t) (i.retoken g)
termination_by structural e => e

def Expr.retokenAll (g : Token → Token) : List Expr → List Expr
  | [] => []
  | e :: es => e.retoken g :: Expr.retokenAll g es
termination_by structural es => es

def Expr.retokenPairs (g : Token → Token) : List (Expr × Expr) → List (Expr × Expr)
  | [] => []
  | (k, v) :: ps => (k.retoken g, v.retoken g) :: Expr.retokenPairs g ps
termination_by structural ps => ps

def Stmt.retoken (g : Token → Token) : Stmt → Stmt
  | .bind t name none => .bind (g t) (name.retoken g) none
  | .bind t name (some e) => .bind (g t) (name.retoken g) (some (e.retoken g))
  | .ret t none => .ret (g t) none
  | .ret t (some e) => .ret (g t) (some (e.retoken g))
  | .expr t e => .expr (g t) (e.retoken g)
  | .block b => .block (b.retoken g)
termination_by structural s => s

def Stmt.retokenAll (g : Token → Token) : List Stmt → List Stmt
  | [] => []
  | s :: ss => s.retoken g :: Stmt.retokenAll g ss
termination_by structural ss => ss

def Block.retoken (g : Token → Token) : Block → Block
  | .mk t ss => .mk (g t) (Stmt.retokenAll g ss)
termination_by structural b => b

def Lambda.retoken (g : Token → Token) : Lambda → Lambda
  | .mk t ps b => .mk (g t) (ps.map (Ident.retoken g)) (b.retoken g)
termination_by structural f => f

end

attribute [simp] Expr.retoken Expr.retokenAll Expr.retokenPairs Stmt.retoken Stmt.retokenAll
  Block.retoken Lambda.retoken

def Program.retoken (g : Token → Token) (p : Program) : Program := ⟨Stmt.retokenAll g p.statements⟩

def Token.unplaced (t : Token) : Token := { t with span := default }

abbrev Lambda.unplaced (f : Lambda) : Lambda := f.retoken Token.unplaced

abbrev Program.unplaced (p : Program) : Program := p.retoken Token.unplaced

structure Moves (g : Token → Token) : Prop where
  kind : ∀ t, (g t).kind = t.kind
  text : ∀ t, (g t).text = t.text

theorem moves_unplaced : Moves Token.unplaced := ⟨fun _ => rfl, fun _ => rfl⟩

theorem moves_id : Moves id := ⟨fun _ => rfl, fun _ => rfl⟩

variable {g : Token → Token}

theorem Stmt.retokenAll_append (ss ts : List Stmt) :
    Stmt.retokenAll g (ss ++ ts) = Stmt.retokenAll g ss ++ Stmt.retokenAll g ts := by
  induction ss with
  | nil => rfl
  | cons s ss ih => simp [ih]

theorem Stmt.retokenAll_toList (s : Option Stmt) :
    Stmt.retokenAll g s.toList = (s.map (Stmt.retoken g)).toList := by
  cases s <;> rfl

@[simp] theorem Lambda.params_retoken (f : Lambda) :
    (f.retoken g).params = f.params.map (Ident.retoken g) := by
  cases f
  rfl

@[simp] theorem Lambda.body_retoken (f : Lambda) : (f.retoken g).body = f.body.retoken g := by
  cases f
  rfl

theorem Ident.name_retoken (hg : Moves g) (i : Ident) : (i.retoken g).name = i.name := hg.text i.token

theorem Ident.names_retoken (hg : Moves g) (ps : List Ident) :
    (ps.map (Ident.retoken g)).map Ident.name = ps.map Ident.name := by
  rw [List.map_map]
  exact List.map_congr_left fun i _ => Ident.name_retoken hg i

mutual

theorem Expr.print_retoken (hg : Moves g) (e : Expr) : (e.retoken g).print = e.print := by
  match e with
  | .ident i => exact i.name_retoken hg
  | .integer _ _ | .boolean _ _ | .string _ _ => rfl
  | .array _ es => simp only [Expr.retoken, Expr.print, Expr.printAll_retoken hg es]
  | .hash _ ps => simp only [Expr.retoken, Expr.print, Expr.printPairs_retoken hg ps]
  | .unary _ _ e => simp only [Expr.retoken, Expr.print, Expr.print_retoken hg e]
  | .binary l _ _ r =>
    simp only [Expr.retoken, Expr.print, Expr.print_retoken hg l, Expr.print_retoken hg r]
  | .cond _ c b none =>
    simp only [Expr.retoken, Expr.print, Expr.print_retoken hg c, Block.print_retoken hg b]
  | .cond _ c b (some a) =>
    simp only [Expr.retoken, Expr.print, Expr.print_retoken hg c, Block.print_retoken hg b,
      Block.print_retoken hg a]
  | .function f => exact Lambda.print_retoken hg f
  | .call f _ as =>
    simp only [Expr.retoken, Expr.print, Expr.print_retoken hg f, Expr.printAll_retoken hg as]
  | .index e _ i =>
    simp only [Expr.retoken, Expr.print, Expr.print_retoken hg e, Expr.print_retoken hg i]
termination_by structural e

theorem Expr.printAll_retoken (hg : Moves g) (es : List Expr) :
    Expr.printAll (Expr.retokenAll g es) = Expr.printAll es := by
  match es with
  | [] => rfl
  | e :: es =>
    simp only [Expr.retokenAll, Expr.printAll, Expr.print_retoken hg e,
      Expr.printAll_retoken hg es]
termination_by structural es

theorem Expr.printPairs_retoken (hg : Moves g) (ps : List (Expr × Expr)) :
    Expr.printPairs (Expr.retokenPairs g ps) = Expr.printPairs ps := by
  match ps with
  | [] => rfl
  | (k, v) :: ps =>
    simp only [Expr.retokenPairs, Expr.printPairs, Expr.print_retoken hg k,
      Expr.print_retoken hg v, Expr.printPairs_retoken hg ps]
termination_by structural ps

theorem Stmt.print_retoken (hg : Moves g) (s : Stmt) : (s.retoken g).print = s.print := by
  match s with
  | .bind _ name none => simp only [Stmt.retoken, Stmt.print, name.name_retoken hg]
  | .bind _ name (some e) =>
    simp only [Stmt.retoken, Stmt.print, name.name_retoken hg, Expr.print_retoken hg e]
  | .ret _ none => rfl
  | .ret _ (some e) => simp only [Stmt.retoken, Stmt.print, Expr.print_retoken hg e]
  | .expr _ e => exact Expr.print_retoken hg e
  | .block b => exact Block.print_retoken hg b
termination_by structural s

theorem Stmt.printAll_retoken (hg : Moves g) (ss : List Stmt) :
    Stmt.printAll (Stmt.retokenAll g ss) = Stmt.printAll ss := by
  match ss with
  | [] => rfl
  | s :: ss =>
    simp only [Stmt.retokenAll, Stmt.printAll, Stmt.print_retoken hg s, Stmt.printAll_retoken hg ss]
termination_by structural ss

theorem Block.print_retoken (hg : Moves g) (b : Block) : (b.retoken g).print = b.print := by
  match b with
  | .mk _ ss => simp only [Block.retoken, Block.print, Stmt.printAll_retoken hg ss]
termination_by structural b

theorem Lambda.print_retoken (hg : Moves g) (f : Lambda) : (f.retoken g).print = f.print := by
  match f with
  | .mk _ ps b =>
    simp only [Lambda.retoken, Lambda.print, Ident.names_retoken hg, Block.print_retoken hg b]
termination_by structural f

end

mutual

theorem Expr.retoken_id (e : Expr) : e.retoken id = e := by
  match e with
  | .ident _ | .integer _ _ | .boolean _ _ | .string _ _ => rfl
  | .array _ es => simp only [Expr.retoken, Expr.retokenAll_id es, id]
  | .hash _ ps => simp only [Expr.retoken, Expr.retokenPairs_id ps, id]
  | .unary _ _ e => simp only [Expr.retoken, Expr.retoken_id e, id]
  | .binary l _ _ r => simp only [Expr.retoken, Expr.retoken_id l, Expr.retoken_id r, id]
  | .cond _ c b none => simp only [Expr.retoken, Expr.retoken_id c, Block.retoken_id b, id]
  | .cond _ c b (some a) =>
    simp only [Expr.retoken, Expr.retoken_id c, Block.retoken_id b, Block.retoken_id a, id]
  | .function f => rw [Expr.retoken, Lambda.retoken_id f]
  | .call f _ as => simp only [Expr.retoken, Expr.retoken_id f, Expr.retokenAll_id as, id]
  | .index e _ i => simp only [Expr.retoken, Expr.retoken_id e, Expr.retoken_id i, id]
termination_by structural e

theorem Expr.retokenAll_id (es : List Expr) : Expr.retokenAll id es = es := by
  match es with
  | [] => rfl
  | e :: es => rw [Expr.retokenAll, Expr.retoken_id e, Expr.retokenAll_id es]
termination_by structural es

theorem Expr.retokenPairs_id (ps : List (Expr × Expr)) : Expr.retokenPairs id ps = ps := by
  match ps with
  | [] => rfl
  | (k, v) :: ps =>
    rw [Expr.retokenPairs, Expr.retoken_id k, Expr.retoken_id v, Expr.retokenPairs_id ps]
termination_by structural ps

theorem Stmt.retoken_id (s : Stmt) : s.retoken id = s := by
  match s with
  | .bind _ _ none | .ret _ none => rfl
  | .bind _ name (some e) => simp only [Stmt.retoken, Ident.retoken, Expr.retoken_id e, id]
  | .ret _ (some e) => simp only [Stmt.retoken, Expr.retoken_id e, id]
  | .expr _ e => simp only [Stmt.retoken, Expr.retoken_id e, id]
  | .block b => simp only [Stmt.retoken, Block.retoken_id b]
termination_by structural s

theorem Stmt.retokenAll_id (ss : List Stmt) : Stmt.retokenAll id ss = ss := by
  match ss with
  | [] => rfl
  | s :: ss => rw [Stmt.retokenAll, Stmt.retoken_id s, Stmt.retokenAll_id ss]
termination_by structural ss

theorem Block.retoken_id (b : Block) : b.retoken id = b := by
  match b with
  | .mk _ ss => simp only [Block.retoken, Stmt.retokenAll_id ss, id]
termination_by structural b

theorem Lambda.retoken_id (f : Lambda) : f.retoken id = f := by
  match f with
  | .mk _ ps b =>
    have hps : ps.map (Ident.retoken id) = ps := List.map_id ps
    simp only [Lambda.retoken, hps, Block.retoken_id b, id]
termination_by structural f

end

end Monkey
