import Monkey.Proofs.Syntax.Recursion

/-!
The readers with a budget that is always enough. They satisfy the equations of the bounded readers
with the budget struck out, which is all that later proofs use of them.
-/

namespace Monkey

open Monkey.Parser

namespace Unbounded

def statement : Parser Stmt := fun ts => Monkey.statement (parseBudget ts.length) ts

def blockBody : Parser (List Stmt) := fun ts => Monkey.blockBody (parseBudget ts.length) ts

def expression (prec : Nat) : Parser Expr := fun ts =>
  Monkey.expression (parseBudget ts.length) prec ts

def operators (prec : Nat) (left : Expr) : Parser Expr := fun ts =>
  Monkey.operators (parseBudget ts.length) prec left ts

def operand : Parser Expr := fun ts => Monkey.operand (parseBudget ts.length) ts

def elseBranch : Parser (Option Block) := fun ts => Monkey.elseBranch (parseBudget ts.length) ts

def listItems (close : TokenKind) : Parser (List Expr) := fun ts =>
  Monkey.listItems (parseBudget ts.length) close ts

def moreItems (close : TokenKind) : Parser (List Expr) := fun ts =>
  Monkey.moreItems (parseBudget ts.length) close ts

def hashPairs : Parser (List (Expr × Expr)) := fun ts =>
  Monkey.hashPairs (parseBudget ts.length) ts

def morePairs : Parser (List (Expr × Expr)) := fun ts =>
  Monkey.morePairs (parseBudget ts.length) ts

def answers : Answers where
  answer r ts := (readers (parseBudget ts.length)).answer r ts

theorem lt_parseBudget (L : Nat) : 4 * L + 3 < parseBudget L := by
  unfold parseBudget
  omega

theorem weight_lt_parseBudget {α : Type} (r : Reader α) (ts : List Token) :
    r.weight ts < parseBudget ts.length := by
  have hrank := r.rank_le
  have hbudget := lt_parseBudget ts.length
  unfold Reader.weight
  omega

theorem sureBelow {n k : Nat} (h : k ≤ n) : Answers.SureBelow k (readers n) answers := by
  intro α r ts hts
  exact readers_sure (Nat.lt_of_lt_of_le hts h) (weight_lt_parseBudget r ts) r ts
    (Nat.lt_succ_self _)

/-- A budget that exceeds what a call weighs is as good as none. -/
theorem readers_eq {α : Type} {n : Nat} (r : Reader α) {ts : List Token} (h : r.weight ts < n) :
    (readers n).answer r ts = answers.answer r ts := (sureBelow h r ts (Nat.lt_succ_self _)).1

theorem leaves {α : Type} (r : Reader α) (ts : List Token) : r.Leaves ts (answers.answer r ts) :=
  (sureBelow (Nat.le_refl _) r ts (weight_lt_parseBudget r ts)).2

/-- The equations of the bounded readers with the budget struck out: a turn changes nothing. -/
theorem answer_eq_turn {α : Type} (r : Reader α) (ts : List Token) :
    answers.answer r ts = answers.turn.answer r ts := by
  rw [← readers_eq r (Nat.lt_succ_self _), readers_succ]
  exact (sureBelow (Nat.le_refl (r.weight ts))).answer_turn.1

theorem takes_operand : Takes operand where
  rest ts := (leaves .operand ts).takes (by decide)
  nil := rfl

theorem takes_expression (prec : Nat) : Takes (expression prec) where
  rest ts := (leaves (.expression prec) ts).takes (by simp [Reader.rank])
  nil := rfl

theorem takes_statement : Takes statement where
  rest ts := (leaves .statement ts).takes (by decide)
  nil := rfl

theorem trims_blockBody : Trims blockBody := fun ts => (leaves .blockBody ts).rest

theorem trims_listItems (close : TokenKind) : Trims (listItems close) := fun ts =>
  (leaves (.listItems close) ts).rest

theorem trims_moreItems (close : TokenKind) : Trims (moreItems close) := fun ts =>
  (leaves (.moreItems close) ts).rest

theorem trims_hashPairs : Trims hashPairs := fun ts => (leaves .hashPairs ts).rest

theorem trims_morePairs : Trims morePairs := fun ts => (leaves .morePairs ts).rest

theorem trims_elseBranch : Trims elseBranch := fun ts => (leaves .elseBranch ts).rest

theorem expression_eq (prec : Nat) : expression prec = operand >>= operators prec :=
  funext fun ts => answer_eq_turn (.expression prec) ts

theorem statement_cons (t : Token) (ts : List Token) : statement (t :: ts) =
    match t.kind with
    | .kwLet => read ts do
        let name ← attempt (expect .identifier)
        let _ ← attempt (expect .assign)
        let value ← attempt (expression 0)
        statementEnd
        match name with
        | some name => return .bind t ⟨name⟩ value
        | none => skip
    | .kwReturn =>
      if kindAt ts = .semicolon ∨ kindAt ts = .rightBrace ∨ kindAt ts = .eof then read ts do
        statementEnd
        return .ret t none
      else read ts do
        let value ← expression 0
        statementEnd
        return .ret t (some value)
    | _ => read (t :: ts) do
        let value ← expression 0
        statementEnd
        return .expr t value :=
  answer_eq_turn .statement (t :: ts)

theorem blockBody_eq (ts : List Token) : blockBody ts =
    if kindAt ts = .rightBrace then ⟨some [], ts.tail, []⟩
    else if kindAt ts = .eof then
      ⟨some [], ts.tail, [⟨.expected .rightBrace .eof, ts.length⟩]⟩
    else read ts do
      let s ← attempt statement
      let ss ← blockBody
      return s.toList ++ ss :=
  answer_eq_turn .blockBody ts

theorem operators_nil (prec : Nat) (left : Expr) :
    operators prec left [] = ⟨some left, [], []⟩ := rfl

theorem operators_cons (prec : Nat) (left : Expr) (t : Token) (ts : List Token) :
    operators prec left (t :: ts) =
      if prec < t.kind.precedence then
        match BinaryOp.ofKind? t.kind with
        | some op => read ts do
            let right ← expression t.kind.precedence
            operators prec (.binary left op t right)
        | none =>
          if t.kind = .leftParen then read ts do
            let args ← listItems .rightParen
            operators prec (.call left t args)
          else read ts do
            let position ← expression 0
            let _ ← expect .rightBracket
            operators prec (.index left t position)
      else ⟨some left, t :: ts, []⟩ :=
  answer_eq_turn (.operators prec left) (t :: ts)

theorem operand_nil : operand [] = ⟨none, [], [⟨.noExpression "EOF", 0⟩]⟩ := rfl

theorem operand_cons (t : Token) (ts : List Token) : operand (t :: ts) =
    match t.kind with
    | .identifier => ⟨some (.ident ⟨t⟩), ts, []⟩
    | .integer => match integer? t.text with
      | some value => ⟨some (.integer t value), ts, []⟩
      | none => ⟨none, ts, [⟨.integerRange t.text, ts.length + 1⟩]⟩
    | .string => ⟨some (.string t t.text), ts, []⟩
    | .kwTrue => ⟨some (.boolean t true), ts, []⟩
    | .kwFalse => ⟨some (.boolean t false), ts, []⟩
    | .bang => read ts do return .unary .not t (← expression unaryPrecedence)
    | .minus => read ts do return .unary .neg t (← expression unaryPrecedence)
    | .leftParen => read ts do
        let e ← expression 0
        let _ ← expect .rightParen
        return e
    | .kwIf => read ts do
        let _ ← expect .leftParen
        let condition ← expression 0
        let _ ← expect .rightParen
        let brace ← expect .leftBrace
        let consequence ← blockBody
        let alternative ← elseBranch
        return .cond t condition (.mk brace consequence) alternative
    | .kwFn => read ts do
        let _ ← expect .leftParen
        let ps ← params
        let brace ← expect .leftBrace
        let body ← blockBody
        return .function (.mk t ps (.mk brace body))
    | .leftBracket => read ts do return .array t (← listItems .rightBracket)
    | .leftBrace => read ts do return .hash t (← hashPairs)
    | _ => ⟨none, ts, [⟨.noExpression t.render, ts.length + 1⟩]⟩ :=
  answer_eq_turn .operand (t :: ts)

theorem elseBranch_eq (ts : List Token) : elseBranch ts =
    if kindAt ts = .kwElse then read ts.tail do
      let brace ← expect .leftBrace
      let body ← blockBody
      return some (.mk brace body)
    else ⟨some none, ts, []⟩ :=
  answer_eq_turn .elseBranch ts

theorem listItems_eq (close : TokenKind) (ts : List Token) : listItems close ts =
    if kindAt ts = close then ⟨some [], ts.tail, []⟩
    else read ts do
      let e ← expression 0
      let es ← moreItems close
      return e :: es :=
  answer_eq_turn (.listItems close) ts

theorem moreItems_eq (close : TokenKind) (ts : List Token) : moreItems close ts =
    if kindAt ts = .comma then
      if kindAt ts.tail = close then ⟨some [], ts.tail.tail, []⟩
      else read ts.tail do
        let e ← expression 0
        let es ← moreItems close
        return e :: es
    else read ts do
      let _ ← expect close
      return [] :=
  answer_eq_turn (.moreItems close) ts

theorem hashPairs_eq (ts : List Token) : hashPairs ts =
    if kindAt ts = .rightBrace then ⟨some [], ts.tail, []⟩
    else read ts do
      let key ← expression 0
      let _ ← expect .colon
      let value ← expression 0
      let more ← morePairs
      return (key, value) :: more :=
  answer_eq_turn .hashPairs ts

theorem morePairs_eq (ts : List Token) : morePairs ts =
    if kindAt ts = .rightBrace then ⟨some [], ts.tail, []⟩
    else (expect .comma >>= fun _ => hashPairs) ts :=
  answer_eq_turn .morePairs ts

end Unbounded

end Monkey
