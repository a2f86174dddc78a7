import Monkey.Proofs.Eval.Builtins

/-!
Properties of evaluations that hold of the whole if they hold of the parts. Evaluation is put
together from a handful of actions by sequencing and by catching a `return`; a property that these
have and that putting together keeps holds of every expression, every block and every call.
-/

namespace Monkey

/-- A property of evaluations that the actions they are made of have, and that is kept when they are
put together. -/
structure Compositional (T : (α : Type) → Eval α → Prop) : Prop where
  pure : ∀ {α : Type} (a : α), T α (pure a)
  bind : ∀ {α β : Type} {x : Eval α} {f : α → Eval β}, T α x → (∀ a, T β (f a)) → T β (x >>= f)
  stop : ∀ {α : Type} (s : Signal), T α (Action.stop s)
  catchReturn : ∀ {x : Eval Value}, T Value x → T Value (Eval.catchReturn x)
  record : ∀ e, T Unit (Action.record e)
  writeLine : ∀ text, T Unit (Eval.writeLine text)
  lookUp : ∀ scope name, T Value (Eval.lookUp scope name)
  define : ∀ scope name value, T Value (Eval.define scope name value)
  close : ∀ scope literal, T Value (Eval.close scope literal)
  enter : ∀ outer bindings, T ScopeId (Eval.enter outer bindings)

namespace Compositional

variable {T : (α : Type) → Eval α → Prop}

theorem ofExcept (h : Compositional T) {α : Type} (r : Except RuntimeError α) :
    T α (Eval.ofExcept r) := by
  cases r with
  | ok a => exact h.pure a
  | error e => exact h.stop _

theorem putLines (h : Compositional T) (vs : List Value) : T Value (Builtin.putLines vs) := by
  induction vs with
  | nil => exact h.pure _
  | cons v vs ih => exact h.bind (h.writeLine _) fun _ => ih

theorem builtin (h : Compositional T) (b : Builtin) (args : List Value) :
    T Value (b.apply args) := by
  rcases b.apply_cases args with hb | ⟨e, hb, -⟩ | ⟨v, hb, -⟩
  · rw [hb]
    exact h.putLines args
  · rw [hb]
    exact h.stop (.failed e)
  · rw [hb]
    exact h.pure v

theorem apply (h : Compositional T) {call : CallRule} (hcall : ∀ f args, T Value (call f args))
    (callee : Value) (args : List Value) : T Value (callee.apply call args) := by
  cases callee with
  | function f => exact hcall f args
  | builtin b => exact h.bind (h.record _) fun _ => h.builtin b args
  | _ => exact h.stop _

end Compositional

section Evaluation

variable {T : (α : Type) → Eval α → Prop} {call : CallRule} {scope : ScopeId}

mutual

theorem Expr.eval_has (h : Compositional T) (hcall : ∀ f args, T Value (call f args))
    (e : Expr) : T Value (e.eval call scope) := by
  match e with
  | .ident i => exact h.lookUp scope i.name
  | .integer _ n => exact h.pure _
  | .boolean _ b => exact h.pure _
  | .string _ s => exact h.pure _
  | .array _ es => exact h.bind (Expr.evalAll_has h hcall es) fun _ => h.pure _
  | .hash _ ps => exact h.bind (Expr.evalPairs_has h hcall ps []) fun _ => h.pure _
  | .unary _ _ e => exact h.bind (Expr.eval_has h hcall e) fun _ => h.ofExcept _
  | .binary l _ _ r =>
    exact h.bind (Expr.eval_has h hcall l) fun _ =>
      h.bind (Expr.eval_has h hcall r) fun _ => h.ofExcept _
  | .cond _ c b none =>
    refine h.bind (Expr.eval_has h hcall c) fun v => ?_
    by_cases hv : v.truthy
    · rw [if_pos hv]
      exact Block.eval_has h hcall b
    · rw [if_neg hv]
      exact h.pure _
  | .cond _ c b (some a) =>
    refine h.bind (Expr.eval_has h hcall c) fun v => ?_
    by_cases hv : v.truthy
    · rw [if_pos hv]
      exact Block.eval_has h hcall b
    · rw [if_neg hv]
      exact Block.eval_has h hcall a
  | .function f => exact h.close scope f
  | .call f _ as =>
    exact h.bind (Expr.eval_has h hcall f) fun v =>
      h.bind (Expr.evalAll_has h hcall as) fun vs => h.apply hcall v vs
  | .index t _ i =>
    exact h.bind (Expr.eval_has h hcall t) fun _ =>
      h.bind (Expr.eval_has h hcall i) fun _ => h.ofExcept _
termination_by structural e

theorem Expr.evalAll_has (h : Compositional T) (hcall : ∀ f args, T Value (call f args))
    (es : List Expr) : T (List Value) (Expr.evalAll call scope es) := by
  match es with
  | [] => exact h.pure _
  | e :: es =>
    exact h.bind (Expr.eval_has h hcall e) fun _ =>
      h.bind (Expr.evalAll_has h hcall es) fun _ => h.pure _
termination_by structural es

theorem Expr.evalPairs_has (h : Compositional T) (hcall : ∀ f args, T Value (call f args))
    (ps : List (Expr × Expr)) (entries : List Entry) :
    T (List Entry) (Expr.evalPairs call scope entries ps) := by
  match ps with
  | [] => exact h.pure _
  | (k, v) :: ps =>
    refine h.bind (Expr.eval_has h hcall k) fun key => ?_
    cases key.hashKey? with
    | none => exact h.stop _
    | some slot =>
      exact h.bind (Expr.eval_has h hcall v) fun _ => Expr.evalPairs_has h hcall ps _
termination_by structural ps

theorem Stmt.eval_has (h : Compositional T) (hcall : ∀ f args, T Value (call f args))
    (s : Stmt) : T Value (s.eval call scope) := by
  match s with
  | .bind _ name none => exact h.define scope name.name .null
  | .bind _ name (some e) =>
    exact h.bind (Expr.eval_has h hcall e) fun v => h.define scope name.name v
  | .ret _ none => exact h.stop _
  | .ret _ (some e) => exact h.bind (Expr.eval_has h hcall e) fun _ => h.stop _
  | .expr _ e => exact Expr.eval_has h hcall e
  | .block b => exact Block.eval_has h hcall b
termination_by structural s

theorem Stmt.evalAll_has (h : Compositional T) (hcall : ∀ f args, T Value (call f args))
    (ss : List Stmt) : T Value (Stmt.evalAll call scope ss) := by
  match ss with
  | [] => exact h.pure _
  | [s] => exact h.bind (h.record _) fun _ => Stmt.eval_has h hcall s
  | s :: t :: ss =>
    exact h.bind (h.record _) fun _ => h.bind (Stmt.eval_has h hcall s) fun _ =>
      Stmt.evalAll_has h hcall (t :: ss)
termination_by structural ss

theorem Block.eval_has (h : Compositional T) (hcall : ∀ f args, T Value (call f args))
    (b : Block) : T Value (b.eval call scope) := by
  match b with
  | .mk _ ss => exact Stmt.evalAll_has h hcall ss
termination_by structural b

end

theorem Closure.call_has (h : Compositional T) (depth : Nat) (f : Closure) (args : List Value) :
    T Value (Closure.call depth f args) := by
  induction depth generalizing f args with
  | zero => exact h.stop _
  | succ depth ih =>
    unfold Closure.call
    split
    · exact h.stop _
    · exact h.bind (h.record _) fun _ => h.bind (h.enter _ _) fun _ =>
        h.catchReturn (Block.eval_has h ih f.literal.body)

end Evaluation

end Monkey
