import Monkey.Syntax
import Monkey.Syntax.Diagnostic
import Monkey.Text.Characters
import Monkey.Token.Scan

/-!
From token streams to syntax trees, by precedence climbing. Reading never gives up: a construct that
fails leaves a diagnostic and what it could not use, and the next statement is read from there.

The functions that call each other count down a budget. Each of them either takes a token before it
calls an equal or calls one that stands below it, so four steps per token are enough; `parse` fixes
the budget and does not show it.
-/

namespace Monkey

open Text

/-- The outcome of reading a construct: what was read, the tokens left, the faults found. -/
structure Parsed (α : Type) where
  value : Option α
  rest : List Token
  diagnostics : List Diagnostic

def Parser (α : Type) : Type := List Token → Parsed α

namespace Parser

variable {α β : Type}

@[inline] protected def pure (a : α) : Parser α := fun ts => ⟨some a, ts, []⟩

@[inline] protected def bind (p : Parser α) (f : α → Parser β) : Parser β := fun ts =>
  match p ts with
  | ⟨none, rest, ds⟩ => ⟨none, rest, ds⟩
  | ⟨some a, rest, ds⟩ =>
    let q := f a rest
    ⟨q.value, q.rest, ds ++ q.diagnostics⟩

instance : Monad Parser where
  pure := Parser.pure
  bind := Parser.bind

@[inline] abbrev read (ts : List Token) (p : Parser α) : Parsed α := p ts

def skip : Parser α := fun ts => ⟨none, ts, []⟩

/-- Turns failure into an absent value, keeping the diagnostics. -/
@[inline] def attempt (p : Parser α) : Parser (Option α) := fun ts =>
  let q := p ts
  ⟨some q.value, q.rest, q.diagnostics⟩

/-- Takes a token of the given kind, or reports what stands there and leaves it. The reader still
stands on the token before. -/
def expect (kind : TokenKind) : Parser Token
  | [] => ⟨none, [], [⟨.expected kind .eof, 1⟩]⟩
  | t :: ts =>
    if t.kind = kind then ⟨some t, ts, []⟩
    else ⟨none, t :: ts, [⟨.expected kind t.kind, ts.length + 2⟩]⟩

def statementEnd : Parser Unit := fun ts =>
  if kindAt ts = .semicolon then ⟨some (), ts.tail, []⟩ else ⟨some (), ts, []⟩

end Parser

open Monkey.Parser

/-- How tightly a token binds to the expression before it; zero ends the expression. -/
def TokenKind.precedence : TokenKind → Nat
  | .equal | .notEqual => 1
  | .less | .greater => 2
  | .plus | .minus => 3
  | .star | .slash => 4
  | .leftParen | .leftBracket => 6
  | _ => 0

/-- The operand of `!` and `-` takes calls and indexing along, and nothing else. -/
def unaryPrecedence : Nat := 5

def integer? (digits : String) : Option Int64 :=
  let n := decimalValue digits.toList
  if n < 0x8000000000000000 then some (Int64.ofNat n) else none

def moreParams : Parser (List Ident)
  | [] => ⟨some [], [], []⟩
  | [c] =>
    if c.kind = .comma then ⟨none, [], [⟨.expected .identifier .eof, 1⟩]⟩ else ⟨some [], [c], []⟩
  | c :: i :: ts =>
    if c.kind = .comma then
      if i.kind = .identifier then
        let q := moreParams ts
        ⟨q.value.map (⟨i⟩ :: ·), q.rest, q.diagnostics⟩
      else ⟨none, i :: ts, [⟨.expected .identifier i.kind, ts.length + 2⟩]⟩
    else ⟨some [], c :: i :: ts, []⟩

def params : Parser (List Ident) := fun ts =>
  if kindAt ts = .rightParen then ⟨some [], ts.tail, []⟩
  else read ts do
    let first ← expect .identifier
    let more ← moreParams
    let _ ← expect .rightParen
    return ⟨first⟩ :: more

mutual

def statement : Nat → Parser Stmt
  | 0 => skip
  | n + 1 => fun
    | [] => ⟨none, [], []⟩
    | t :: ts => match t.kind with
      | .kwLet => read ts do
          let name ← attempt (expect .identifier)
          let _ ← attempt (expect .assign)
          let value ← attempt (expression n 0)
          statementEnd
          match name with
          | some name => return .bind t ⟨name⟩ value
          | none => skip
      | .kwReturn =>
        if kindAt ts = .semicolon ∨ kindAt ts = .rightBrace ∨ kindAt ts = .eof then read ts do
          statementEnd
          return .ret t none
        else read ts do
          let value ← expression n 0
          statementEnd
          return .ret t (some value)
      | _ => read (t :: ts) do
          let value ← expression n 0
          statementEnd
          return .expr t value

def blockBody : Nat → Parser (List Stmt)
  | 0 => skip
  | n + 1 => fun ts =>
    if kindAt ts = .rightBrace then ⟨some [], ts.tail, []⟩
    else if kindAt ts = .eof then
      ⟨some [], ts.tail, [⟨.expected .rightBrace .eof, ts.length⟩]⟩
    else read ts do
      let s ← attempt (statement n)
      let ss ← blockBody n
      return s.toList ++ ss

/-- An expression whose operators all bind tighter than `prec`. -/
def expression : Nat → Nat → Parser Expr
  | 0, _ => skip
  | n + 1, prec => do
    let left ← operand n
    operators n prec left

def operators : Nat → Nat → Expr → Parser Expr
  | 0, _, _ => skip
  | n + 1, prec, left => fun
    | [] => ⟨some left, [], []⟩
    | t :: ts =>
      if prec < t.kind.precedence then
        match BinaryOp.ofKind? t.kind with
        | some op => read ts do
            let right ← expression n t.kind.precedence
            operators n prec (.binary left op t right)
        | none =>
          if t.kind = .leftParen then read ts do
            let args ← listItems n .rightParen
            operators n prec (.call left t args)
          else read ts do
            let position ← expression n 0
            let _ ← expect .rightBracket
            operators n prec (.index left t position)
      else ⟨some left, t :: ts, []⟩

def operand : Nat → Parser Expr
  | 0 => skip
  | n + 1 => fun
    | [] => ⟨none, [], [⟨.noExpression "EOF", 0⟩]⟩
    | t :: ts => match t.kind with
      | .identifier => ⟨some (.ident ⟨t⟩), ts, []⟩
      | .integer => match integer? t.text with
        | some value => ⟨some (.integer t value), ts, []⟩
        | none => ⟨none, ts, [⟨.integerRange t.text, ts.length + 1⟩]⟩
      | .string => ⟨some (.string t t.text), ts, []⟩
      | .kwTrue => ⟨some (.boolean t true), ts, []⟩
      | .kwFalse => ⟨some (.boolean t false), ts, []⟩
      | .bang => read ts do return .unary .not t (← expression n unaryPrecedence)
      | .minus => read ts do return .unary .neg t (← expression n unaryPrecedence)
      | .leftParen => read ts do
          let e ← expression n 0
          let _ ← expect .rightParen
          return e
      | .kwIf => read ts do
          let _ ← expect .leftParen
          let condition ← expression n 0
          let _ ← expect .rightParen
          let brace ← expect .leftBrace
          let consequence ← blockBody n
          let alternative ← elseBranch n
          return .cond t condition (.mk brace consequence) alternative
      | .kwFn => read ts do
          let _ ← expect .leftParen
          let ps ← params
          let brace ← expect .leftBrace
          let body ← blockBody n
          return .function (.mk t ps (.mk brace body))
      | .leftBracket => read ts do return .array t (← listItems n .rightBracket)
      | .leftBrace => read ts do return .hash t (← hashPairs n)
      | _ => ⟨none, ts, [⟨.noExpression t.render, ts.length + 1⟩]⟩

def elseBranch : Nat → Parser (Option Block)
  | 0 => skip
  | n + 1 => fun ts =>
    if kindAt ts = .kwElse then read ts.tail do
      let brace ← expect .leftBrace
      let body ← blockBody n
      return some (.mk brace body)
    else ⟨some none, ts, []⟩

def listItems : Nat → TokenKind → Parser (List Expr)
  | 0, _ => skip
  | n + 1, close => fun ts =>
    if kindAt ts = close then ⟨some [], ts.tail, []⟩
    else read ts do
      let e ← expression n 0
      let es ← moreItems n close
      return e :: es

/-- The list after an item. One comma may stand before `close`. -/
def moreItems : Nat → TokenKind → Parser (List Expr)
  | 0, _ => skip
  | n + 1, close => fun ts =>
    if kindAt ts = .comma then
      if kindAt ts.tail = close then ⟨some [], ts.tail.tail, []⟩
      else read ts.tail do
        let e ← expression n 0
        let es ← moreItems n close
        return e :: es
    else read ts do
      let _ ← expect close
      return []

def hashPairs : Nat → Parser (List (Expr × Expr))
  | 0 => skip
  | n + 1 => fun ts =>
    if kindAt ts = .rightBrace then ⟨some [], ts.tail, []⟩
    else read ts do
      let key ← expression n 0
      let _ ← expect .colon
      let value ← expression n 0
      let more ← morePairs n
      return (key, value) :: more

def morePairs : Nat → Parser (List (Expr × Expr))
  | 0 => skip
  | n + 1 => fun ts =>
    if kindAt ts = .rightBrace then ⟨some [], ts.tail, []⟩
    else read ts do
      let _ ← expect .comma
      hashPairs n

end

def statements : Nat → Parser (List Stmt)
  | 0 => skip
  | n + 1 => fun ts =>
    if kindAt ts = .eof then ⟨some [], ts.tail, []⟩
    else read ts do
      let s ← attempt (statement n)
      let ss ← statements n
      return s.toList ++ ss

def parseBudget (length : Nat) : Nat := 4 * length + 8

def parseTokens (ts : List Token) : Program × List Diagnostic :=
  let q := statements (parseBudget ts.length) ts
  (⟨q.value.getD []⟩, q.diagnostics)

def parse (source : String) : Program × List Diagnostic := parseTokens (tokenize source)

end Monkey
