import Monkey.State
import Monkey.Value.Operator

/-!
Evaluation. It ends with a value or a signal: a `return` on its way to the call it leaves, a failure
on its way to the top, or a call depth that was used up.

Expressions are evaluated by recursion on the tree, given what a call of a function does. Calls then
come by recursion on the depth they may reach, so depth is spent by calls of functions alone.
-/

namespace Monkey

/-- What ends an evaluation before it has a value. -/
inductive Signal where
  | returned (value : Value)
  | failed (e : RuntimeError)
  | tooDeep

abbrev Eval (α : Type) : Type := Action Signal α

namespace Eval

variable {α : Type}

@[inline] def fail (e : RuntimeError) : Eval α := Action.stop (.failed e)

@[inline] def ofExcept : Except RuntimeError α → Eval α
  | .ok a => Action.pure a
  | .error e => fail e

def writeLine (text : String) : Eval Unit :=
  Action.write (.failed (.output .sinkFull)) (text ++ "\n")

def define (scope : ScopeId) (name : String) (value : Value) : Eval Value := fun st =>
  (.ok value, { st with heap := st.heap.set scope name value })

def lookUp (scope : ScopeId) (name : String) : Eval Value := fun st =>
  match st.heap.find? .outwards name scope with
  | some v => (.ok v, st)
  | none =>
    match Builtin.ofName? name with
    | some b => (.ok (.builtin b), st)
    | none => (.error (.failed (.identifierNotFound name)), st)

def close (scope : ScopeId) (literal : Lambda) : Eval Value := fun st =>
  (.ok (.function ⟨st.functions, literal, scope⟩), { st with functions := st.functions + 1 })

def enter (outer : ScopeId) (bindings : List (String × Value)) : Eval ScopeId := fun st =>
  let (scope, st) := st.newScope outer
  (.ok scope, { st with heap := st.heap.setAll scope bindings })

@[inline] def catchReturn (x : Eval Value) : Eval Value := fun st =>
  match x st with
  | (.error (.returned v), st) => (.ok v, st)
  | r => r

end Eval

namespace Builtin

def onArray (b : Builtin) (args : List Value) (f : List Value → Value) : Eval Value :=
  match args with
  | [.array elements] => pure (f elements)
  | [v] => Eval.fail (.argumentKind b .array v.kind)
  | _ => Eval.fail (.wrongArgumentCount args.length 1)

def putLines : List Value → Eval Value
  | [] => pure .null
  | v :: vs => do
    Eval.writeLine v.inspect
    putLines vs

def apply (b : Builtin) (args : List Value) : Eval Value :=
  match b with
  | .len =>
    match args with
    | [.string s] => pure (.integer (Int64.ofNat s.length))
    | [.array elements] => pure (.integer (Int64.ofNat elements.length))
    | [v] => Eval.fail (.unsupportedArgument .len v.kind)
    | _ => Eval.fail (.wrongArgumentCount args.length 1)
  | .first => onArray .first args fun elements => elements.head?.getD .null
  | .last => onArray .last args fun elements => elements.getLast?.getD .null
  | .rest => onArray .rest args fun
    | [] => .null
    | _ :: tail => .array tail
  | .push =>
    match args with
    | [.array elements, v] => pure (.array (elements ++ [v]))
    | [v, _] => Eval.fail (.argumentKind .push .array v.kind)
    | _ => Eval.fail (.wrongArgumentCount args.length 2)
  | .puts => putLines args

end Builtin

/-- What a call of a function does with its arguments. -/
abbrev CallRule := Closure → List Value → Eval Value

def Value.apply (call : CallRule) (callee : Value) (args : List Value) : Eval Value :=
  match callee with
  | .function f => call f args
  | .builtin b => do
    Action.record (.callingBuiltin b args.length)
    b.apply args
  | v => Eval.fail (.notAFunction v.kind)

mutual

def Expr.eval (call : CallRule) (scope : ScopeId) : Expr → Eval Value
  | .ident i => Eval.lookUp scope i.name
  | .integer _ n => pure (.integer n)
  | .boolean _ b => pure (.boolean b)
  | .string _ s => pure (.string s)
  | .array _ es => do
    let vs ← Expr.evalAll call scope es
    pure (.array vs)
  | .hash _ ps => do
    let entries ← Expr.evalPairs call scope [] ps
    pure (.hash entries)
  | .unary _ t e => do
    let v ← e.eval call scope
    Eval.ofExcept (v.unary t.text)
  | .binary l _ t r => do
    let v ← l.eval call scope
    let w ← r.eval call scope
    Eval.ofExcept (v.binary t.text w)
  | .cond _ c b none => do
    let v ← c.eval call scope
    if v.truthy then b.eval call scope else pure .null
  | .cond _ c b (some a) => do
    let v ← c.eval call scope
    if v.truthy then b.eval call scope else a.eval call scope
  | .function f => Eval.close scope f
  | .call f _ as => do
    let v ← f.eval call scope
    let vs ← Expr.evalAll call scope as
    v.apply call vs
  | .index t _ i => do
    let v ← t.eval call scope
    let w ← i.eval call scope
    Eval.ofExcept (v.index w)
termination_by structural e => e

def Expr.evalAll (call : CallRule) (scope : ScopeId) : List Expr → Eval (List Value)
  | [] => pure []
  | e :: es => do
    let v ← e.eval call scope
    let vs ← Expr.evalAll call scope es
    pure (v :: vs)
termination_by structural es => es

/-- Adds pairs to the entries of a hash. A key is checked before its value is looked at. -/
def Expr.evalPairs (call : CallRule) (scope : ScopeId) (entries : List Entry) :
    List (Expr × Expr) → Eval (List Entry)
  | [] => pure entries
  | (k, v) :: ps => do
    let key ← k.eval call scope
    match key.hashKey? with
    | none => Eval.fail (.unusableAsHashKey key.kind)
    | some slot => do
      let value ← v.eval call scope
      Expr.evalPairs call scope ((Entry.mk slot key value).insert entries) ps
termination_by structural ps => ps

def Stmt.eval (call : CallRule) (scope : ScopeId) : Stmt → Eval Value
  | .bind _ name none => Eval.define scope name.name .null
  | .bind _ name (some e) => do
    let v ← e.eval call scope
    Eval.define scope name.name v
  | .ret _ none => Action.stop (.returned .null)
  | .ret _ (some e) => do
    let v ← e.eval call scope
    Action.stop (.returned v)
  | .expr _ e => e.eval call scope
  | .block b => b.eval call scope
termination_by structural s => s

def Stmt.evalAll (call : CallRule) (scope : ScopeId) : List Stmt → Eval Value
  | [] => pure .null
  | [s] => do
    Action.record (.statement s)
    s.eval call scope
  | s :: t :: ss => do
    Action.record (.statement s)
    let _ ← s.eval call scope
    Stmt.evalAll call scope (t :: ss)
termination_by structural ss => ss

/-- A block runs in the scope around it. -/
def Block.eval (call : CallRule) (scope : ScopeId) : Block → Eval Value
  | .mk _ ss => Stmt.evalAll call scope ss
termination_by structural b => b

end

/-- Calls a function within the given depth: its body runs in a new scope within the captured one,
where the parameters are bound to the arguments. -/
def Closure.call : Nat → CallRule
  | 0, _, _ => Action.stop .tooDeep
  | depth + 1, f, args =>
    if f.literal.params.length ≠ args.length then
      Eval.fail (.wrongArgumentCount args.length f.literal.params.length)
    else do
      Action.record (.callingFunction f.literal args.length)
      let scope ← Eval.enter f.scope ((f.literal.params.map Ident.name).zip args)
      Eval.catchReturn (f.literal.body.eval (Closure.call depth) scope)

end Monkey
