import Monkey.Proofs.Syntax.Progress
import Monkey.Proofs.Syntax.Retoken

/-!
Reading does not depend on where tokens stand. A reader that is given moved tokens reads the same
construct out of moved tokens, finds the same faults and leaves the same tokens, moved; this also
holds of what it cannot make sense of.
-/

namespace Monkey

def Parsed.move {α : Type} (g : Token → Token) (f : α → α) (q : Parsed α) : Parsed α :=
  ⟨q.value.map f, q.rest.map g, q.diagnostics⟩

theorem kindAt_map {g : Token → Token} (hg : Moves g) (ts : List Token) :
    kindAt (ts.map g) = kindAt ts := by
  cases ts with
  | nil => rfl
  | cons t ts => exact hg.kind t

theorem Token.render_of_moves {g : Token → Token} (hg : Moves g) (t : Token) :
    (g t).render = t.render := by
  simp only [Token.render, hg.kind, hg.text]

namespace Parser

/-- `q` reads out of moved tokens what `p` reads out of the tokens. -/
def Carries {α : Type} (g : Token → Token) (f : α → α) (p q : Parser α) : Prop :=
  ∀ ts, q (ts.map g) = (p ts).move g f

namespace Carries

variable {α β : Type} {g : Token → Token} {f : α → α} {f' : β → β}

theorem bind {p q : Parser α} {k l : α → Parser β} (hp : Carries g f p q)
    (hk : ∀ a, Carries g f' (k a) (l (f a))) : Carries g f' (p >>= k) (q >>= l) := by
  intro ts
  have hq := hp ts
  rcases h : p ts with ⟨_ | a, rest, ds⟩
  · rw [h] at hq
    rw [bind_of_none k h, bind_of_none l hq]
    rfl
  · rw [h] at hq
    rw [bind_of_some k h, bind_of_some l hq, hk a rest]
    rfl

theorem bind_at {p q : Parser α} {k l : α → Parser β} {ts : List Token} (hp : Carries g f p q)
    (hk : ∀ a, Carries g f' (k a) (l (f a))) :
    (q >>= l) (ts.map g) = ((p >>= k) ts).move g f' := hp.bind hk ts

theorem pure {a b : α} (h : b = f a) : Carries g f (pure a : Parser α) (pure b : Parser α) := by
  subst h
  intro ts
  rfl

theorem skip : Carries g f (skip : Parser α) skip := fun _ => rfl

theorem attempt {p q : Parser α} (h : Carries g f p q) :
    Carries g (Option.map f) (attempt p) (attempt q) := by
  intro ts
  simp only [Parser.attempt, h ts]
  rfl

theorem expect (hg : Moves g) (kind : TokenKind) : Carries g g (expect kind) (expect kind) := by
  intro ts
  cases ts with
  | nil => rfl
  | cons t ts =>
    simp only [List.map_cons, Parser.expect, hg.kind, List.length_map]
    by_cases hkind : t.kind = kind
    · rw [if_pos hkind, if_pos hkind]
      rfl
    · rw [if_neg hkind, if_neg hkind]
      rfl

theorem statementEnd (hg : Moves g) : Carries g id statementEnd statementEnd := by
  intro ts
  unfold Parser.statementEnd
  rw [kindAt_map hg]
  by_cases hkind : kindAt ts = .semicolon
  · rw [if_pos hkind, if_pos hkind, ← List.map_tail]
    rfl
  · rw [if_neg hkind, if_neg hkind]
    rfl

end Carries

end Parser

open Monkey.Parser

variable {g : Token → Token}

theorem carries_moreParams (hg : Moves g) :
    Carries g (List.map (Ident.retoken g)) moreParams moreParams := by
  intro ts
  fun_induction moreParams ts with
  | case1 => rfl
  | case2 c hc =>
    simp only [List.map_cons, List.map_nil, moreParams, hg.kind, if_pos hc]
    rfl
  | case3 c hc =>
    simp only [List.map_cons, List.map_nil, moreParams, hg.kind, if_neg hc]
    rfl
  | case4 c i ts hc hi q ih =>
    simp only [List.map_cons, moreParams, hg.kind, if_pos hc, if_pos hi, ih]
    have hq : q = moreParams ts := rfl
    rw [hq]
    rcases moreParams ts with ⟨_ | more, rest, ds⟩ <;> rfl
  | case5 c i ts hc hi =>
    simp only [List.map_cons, moreParams, hg.kind, if_pos hc, if_neg hi, List.length_map]
    rfl
  | case6 c i ts hc =>
    simp only [List.map_cons, moreParams, hg.kind, if_neg hc]
    rfl

theorem carries_params (hg : Moves g) :
    Carries g (List.map (Ident.retoken g)) params params := by
  intro ts
  unfold params
  rw [kindAt_map hg]
  by_cases hkind : kindAt ts = .rightParen
  · rw [if_pos hkind, if_pos hkind, ← List.map_tail]
    rfl
  · rw [if_neg hkind, if_neg hkind]
    exact (Carries.expect hg _).bind_at fun first => (carries_moreParams hg).bind fun more =>
      (Carries.expect hg _).bind fun _ => .pure rfl

structure Carrying (g : Token → Token) (n : Nat) : Prop where
  statement : Carries g (Stmt.retoken g) (statement n) (statement n)
  blockBody : Carries g (Stmt.retokenAll g) (blockBody n) (blockBody n)
  expression : ∀ prec, Carries g (Expr.retoken g) (expression n prec) (expression n prec)
  operators : ∀ prec left, Carries g (Expr.retoken g) (operators n prec left)
    (operators n prec (left.retoken g))
  operand : Carries g (Expr.retoken g) (operand n) (operand n)
  elseBranch : Carries g (Option.map (Block.retoken g)) (elseBranch n) (elseBranch n)
  listItems : ∀ close, Carries g (Expr.retokenAll g) (listItems n close) (listItems n close)
  moreItems : ∀ close, Carries g (Expr.retokenAll g) (moreItems n close) (moreItems n close)
  hashPairs : Carries g (Expr.retokenPairs g) (hashPairs n) (hashPairs n)
  morePairs : Carries g (Expr.retokenPairs g) (morePairs n) (morePairs n)

namespace Carrying

variable {n : Nat}

theorem statement_succ (hg : Moves g) (ih : Carrying g n) :
    Carries g (Stmt.retoken g) (Monkey.statement (n + 1)) (Monkey.statement (n + 1)) := by
  intro ts
  cases ts with
  | nil => rfl
  | cons t ts =>
    simp only [List.map_cons, Monkey.statement, hg.kind, kindAt_map hg]
    split
    · refine (Carries.expect hg _).attempt.bind_at fun name => (Carries.expect hg _).attempt.bind
        fun _ => (ih.expression 0).attempt.bind fun value => (Carries.statementEnd hg).bind
        fun _ => ?_
      cases name with
      | none => exact .skip
      | some name =>
        refine .pure ?_
        cases value <;> rfl
    · split
      · exact (Carries.statementEnd hg).bind_at fun _ => .pure rfl
      · exact (ih.expression 0).bind_at fun value => (Carries.statementEnd hg).bind
          fun _ => .pure rfl
    · rw [← List.map_cons]
      exact (ih.expression 0).bind_at fun value => (Carries.statementEnd hg).bind
        fun _ => .pure rfl

theorem blockBody_succ (hg : Moves g) (ih : Carrying g n) :
    Carries g (Stmt.retokenAll g) (Monkey.blockBody (n + 1)) (Monkey.blockBody (n + 1)) := by
  intro ts
  simp only [Monkey.blockBody, kindAt_map hg, ← List.map_tail, List.length_map]
  split
  · rfl
  split
  · rfl
  · refine ih.statement.attempt.bind_at fun s => ih.blockBody.bind fun ss => .pure ?_
    rw [Stmt.retokenAll_append, Stmt.retokenAll_toList]

theorem expression_succ (ih : Carrying g n) (prec : Nat) :
    Carries g (Expr.retoken g) (Monkey.expression (n + 1) prec) (Monkey.expression (n + 1) prec) :=
  ih.operand.bind fun left => ih.operators prec left

theorem operators_succ (hg : Moves g) (ih : Carrying g n) (prec : Nat) (left : Expr) :
    Carries g (Expr.retoken g) (Monkey.operators (n + 1) prec left)
      (Monkey.operators (n + 1) prec (left.retoken g)) := by
  intro ts
  cases ts with
  | nil => rfl
  | cons t ts =>
    simp only [List.map_cons, Monkey.operators, hg.kind]
    split
    · split
      · exact (ih.expression _).bind_at fun right => ih.operators prec (.binary left _ t right)
      split
      · exact (ih.listItems _).bind_at fun args => ih.operators prec (.call left t args)
      · exact (ih.expression 0).bind_at fun position => (Carries.expect hg _).bind
          fun _ => ih.operators prec (.index left t position)
    · rfl

theorem operand_succ (hg : Moves g) (ih : Carrying g n) :
    Carries g (Expr.retoken g) (Monkey.operand (n + 1)) (Monkey.operand (n + 1)) := by
  intro ts
  cases ts with
  | nil => rfl
  | cons t ts =>
    simp only [List.map_cons, Monkey.operand, hg.kind, hg.text, List.length_map,
      Token.render_of_moves hg]
    split
    · rfl
    · split <;> rfl
    · rfl
    · rfl
    · rfl
    · exact (ih.expression _).bind_at fun e => .pure rfl
    · exact (ih.expression _).bind_at fun e => .pure rfl
    · exact (ih.expression 0).bind_at fun e => (Carries.expect hg _).bind fun _ => .pure rfl
    · refine (Carries.expect hg _).bind_at fun _ => (ih.expression 0).bind fun c =>
        (Carries.expect hg _).bind fun _ => (Carries.expect hg _).bind fun brace =>
        ih.blockBody.bind fun b => ih.elseBranch.bind fun a => .pure ?_
      cases a <;> rfl
    · exact (Carries.expect hg _).bind_at fun _ => (carries_params hg).bind fun ps =>
        (Carries.expect hg _).bind fun brace => ih.blockBody.bind fun b => .pure rfl
    · exact (ih.listItems _).bind_at fun es => .pure rfl
    · exact ih.hashPairs.bind_at fun ps => .pure rfl
    · rfl

theorem elseBranch_succ (hg : Moves g) (ih : Carrying g n) :
    Carries g (Option.map (Block.retoken g)) (Monkey.elseBranch (n + 1))
      (Monkey.elseBranch (n + 1)) := by
  intro ts
  simp only [Monkey.elseBranch, kindAt_map hg, ← List.map_tail]
  split
  · exact (Carries.expect hg _).bind_at fun brace => ih.blockBody.bind fun b => .pure rfl
  · rfl

theorem listItems_succ (hg : Moves g) (ih : Carrying g n) (close : TokenKind) :
    Carries g (Expr.retokenAll g) (Monkey.listItems (n + 1) close)
      (Monkey.listItems (n + 1) close) := by
  intro ts
  simp only [Monkey.listItems, kindAt_map hg, ← List.map_tail]
  split
  · rfl
  · exact (ih.expression 0).bind_at fun e => (ih.moreItems close).bind fun es => .pure rfl

theorem moreItems_succ (hg : Moves g) (ih : Carrying g n) (close : TokenKind) :
    Carries g (Expr.retokenAll g) (Monkey.moreItems (n + 1) close)
      (Monkey.moreItems (n + 1) close) := by
  intro ts
  simp only [Monkey.moreItems, kindAt_map hg, ← List.map_tail]
  split
  · split
    · rfl
    · exact (ih.expression 0).bind_at fun e => (ih.moreItems close).bind fun es => .pure rfl
  · exact (Carries.expect hg _).bind_at fun _ => .pure rfl

theorem hashPairs_succ (hg : Moves g) (ih : Carrying g n) :
    Carries g (Expr.retokenPairs g) (Monkey.hashPairs (n + 1)) (Monkey.hashPairs (n + 1)) := by
  intro ts
  simp only [Monkey.hashPairs, kindAt_map hg, ← List.map_tail]
  split
  · rfl
  · exact (ih.expression 0).bind_at fun key => (Carries.expect hg _).bind fun _ =>
      (ih.expression 0).bind fun value => ih.morePairs.bind fun more => .pure rfl

theorem morePairs_succ (hg : Moves g) (ih : Carrying g n) :
    Carries g (Expr.retokenPairs g) (Monkey.morePairs (n + 1)) (Monkey.morePairs (n + 1)) := by
  intro ts
  simp only [Monkey.morePairs, kindAt_map hg, ← List.map_tail]
  split
  · rfl
  · exact (Carries.expect hg _).bind_at fun _ => ih.hashPairs

end Carrying

theorem carrying (hg : Moves g) (n : Nat) : Carrying g n := by
  induction n with
  | zero => constructor <;> intros <;> exact .skip
  | succ n ih =>
    exact ⟨Carrying.statement_succ hg ih, Carrying.blockBody_succ hg ih,
      Carrying.expression_succ ih, Carrying.operators_succ hg ih, Carrying.operand_succ hg ih,
      Carrying.elseBranch_succ hg ih, Carrying.listItems_succ hg ih, Carrying.moreItems_succ hg ih,
      Carrying.hashPairs_succ hg ih, Carrying.morePairs_succ hg ih⟩

theorem carries_statements (hg : Moves g) (n : Nat) :
    Carries g (Stmt.retokenAll g) (statements n) (statements n) := by
  induction n with
  | zero => exact .skip
  | succ n ih =>
    intro ts
    simp only [statements, kindAt_map hg, ← List.map_tail]
    split
    · rfl
    · refine (carrying hg n).statement.attempt.bind_at fun s => ih.bind fun ss => .pure ?_
      rw [Stmt.retokenAll_append, Stmt.retokenAll_toList]

/-- The program of moved tokens is the program with its tokens moved, and its faults are the same. -/
theorem parseTokens_map (hg : Moves g) (ts : List Token) :
    parseTokens (ts.map g) = ((parseTokens ts).1.retoken g, (parseTokens ts).2) := by
  unfold parseTokens
  rw [List.length_map, carries_statements hg _ ts]
  simp only [Parsed.move, Program.retoken]
  cases (statements (parseBudget ts.length) ts).value <;> rfl

theorem parseTokens_unplaced {ts us : List Token}
    (h : ts.map Token.unplaced = us.map Token.unplaced) :
    (parseTokens ts).2 = (parseTokens us).2 ∧
      (parseTokens ts).1.unplaced = (parseTokens us).1.unplaced := by
  have hts := parseTokens_map moves_unplaced ts
  have hus := parseTokens_map moves_unplaced us
  rw [h] at hts
  obtain ⟨hprogram, hfaults⟩ := Prod.ext_iff.mp (hts.symm.trans hus)
  exact ⟨hfaults, hprogram⟩

end Monkey
