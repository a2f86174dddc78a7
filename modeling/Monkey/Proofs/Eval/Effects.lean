import Monkey.Proofs.Eval.Builtins
import Monkey.Proofs.State
import Monkey.Run

/-!
What evaluation can do to a state, said once for all properties that compare a state with a later
one. An evaluation records events, writes, numbers functions, binds the names of its own `let`
statements in its own scope, and calls functions; a relation that allows each of these is kept by
the whole, whatever the outcome.
-/

namespace Monkey

namespace Action

variable {ε α : Type}

def Keeps (R : State → State → Prop) (x : Action ε α) : Prop := ∀ st, R st (x st).2

end Action

namespace Closure

def entered (f : Closure) (args : List Value) (st : State) : State :=
  { st.record (.callingFunction f.literal args.length) with
    heap := (st.heap.push (some f.scope)).setAll st.heap.size
      ((f.literal.params.map Ident.name).zip args) }

theorem call_succ (depth : Nat) (f : Closure) (args : List Value) (st : State) :
    Closure.call (depth + 1) f args st =
      if f.literal.params.length ≠ args.length then
        (.error (.failed (.wrongArgumentCount args.length f.literal.params.length)), st)
      else Eval.catchReturn (f.literal.body.eval (Closure.call depth) st.heap.size)
        (f.entered args st) := by
  unfold Closure.call
  split
  · rfl
  · rfl

end Closure

/-- What a relation has to allow for evaluation in `scope` with the `let` names `Bound`. -/
structure Allows (R : State → State → Prop) (scope : ScopeId) (Bound : String → Prop) : Prop where
  refl : ∀ st, R st st
  trans : ∀ {st mid st'}, R st mid → R mid st' → R st st'
  record : ∀ st e, R st (st.record e)
  write : ∀ st text, R st { st with sink := (st.sink.write text).2 }
  number : ∀ st, R st { st with functions := st.functions + 1 }
  define : ∀ st name value, Bound name → R st { st with heap := st.heap.set scope name value }

mutual

/-- The names of the `let` statements of an expression, those of function literals left out. -/
def Expr.letNames : Expr → List String
  | .array _ es => Expr.letNamesAll es
  | .hash _ ps => Expr.letNamesPairs ps
  | .unary _ _ e => e.letNames
  | .binary l _ _ r => l.letNames ++ r.letNames
  | .cond _ c b none => c.letNames ++ b.letNames
  | .cond _ c b (some a) => c.letNames ++ (b.letNames ++ a.letNames)
  | .call f _ as => f.letNames ++ Expr.letNamesAll as
  | .index t _ i => t.letNames ++ i.letNames
  | .ident _ | .integer .. | .boolean .. | .string .. | .function _ => []
termination_by structural e => e

def Expr.letNamesAll : List Expr → List String
  | [] => []
  | e :: es => e.letNames ++ Expr.letNamesAll es
termination_by structural es => es

def Expr.letNamesPairs : List (Expr × Expr) → List String
  | [] => []
  | (k, v) :: ps => k.letNames ++ (v.letNames ++ Expr.letNamesPairs ps)
termination_by structural ps => ps

def Stmt.letNames : Stmt → List String
  | .bind _ name none => [name.name]
  | .bind _ name (some e) => name.name :: e.letNames
  | .ret _ none => []
  | .ret _ (some e) => e.letNames
  | .expr _ e => e.letNames
  | .block b => b.letNames
termination_by structural s => s

def Stmt.letNamesAll : List Stmt → List String
  | [] => []
  | s :: ss => s.letNames ++ Stmt.letNamesAll ss
termination_by structural ss => ss

def Block.letNames : Block → List String
  | .mk _ ss => Stmt.letNamesAll ss
termination_by structural b => b

end

def Node.letNames : Node → List String
  | .program p => Stmt.letNamesAll p.statements
  | .stmt s => s.letNames
  | .expr e => e.letNames
  | .block b => b.letNames

namespace Allows

open Monkey.Action

variable {ε α β : Type} {R : State → State → Prop} {scope : ScopeId} {Bound : String → Prop}

theorem bind (h : Allows R scope Bound) {x : Action ε α} {f : α → Action ε β} (hx : Keeps R x)
    (hf : ∀ a, Keeps R (f a)) : Keeps R (x >>= f) := by
  intro st
  have hst := hx st
  rcases hxst : x st with ⟨s | a, mid⟩
  · rw [bind_of_error hxst]
    rwa [hxst] at hst
  · rw [bind_of_ok hxst]
    rw [hxst] at hst
    exact h.trans hst (hf a mid)

theorem pure (h : Allows R scope Bound) (a : α) : Keeps R (pure a : Action ε α) := h.refl

theorem stop (h : Allows R scope Bound) (s : ε) : Keeps R (stop s : Action ε α) := h.refl

theorem fail (h : Allows R scope Bound) (e : RuntimeError) : Keeps R (Eval.fail e : Eval α) :=
  h.refl

theorem ofExcept (h : Allows R scope Bound) (r : Except RuntimeError α) :
    Keeps R (Eval.ofExcept r) := by
  cases r with
  | ok a => exact h.refl
  | error e => exact h.refl

theorem lookUp (h : Allows R scope Bound) (id : ScopeId) (name : String) :
    Keeps R (Eval.lookUp id name) := by
  intro st
  unfold Eval.lookUp
  split
  · exact h.refl st
  · split <;> exact h.refl st

theorem writeLine (h : Allows R scope Bound) (text : String) : Keeps R (Eval.writeLine text) := by
  intro st
  have hw := h.write st (text ++ "\n")
  unfold Eval.writeLine Action.write
  rcases hs : st.sink.write (text ++ "\n") with ⟨_ | _, sink⟩
  all_goals rwa [hs] at hw

theorem putLines (h : Allows R scope Bound) (vs : List Value) : Keeps R (Builtin.putLines vs) := by
  induction vs with
  | nil => exact h.pure _
  | cons v vs ih => exact h.bind (h.writeLine _) fun _ => ih

theorem builtin (h : Allows R scope Bound) (b : Builtin) (args : List Value) :
    Keeps R (b.apply args) := by
  rcases b.apply_cases args with hb | ⟨e, hb, -⟩ | ⟨v, hb, -⟩
  · rw [hb]
    exact h.putLines args
  · rw [hb]
    exact h.fail e
  · rw [hb]
    exact h.pure v

theorem apply (h : Allows R scope Bound) {call : CallRule} (hcall : ∀ f args, Keeps R (call f args))
    (callee : Value) (args : List Value) : Keeps R (callee.apply call args) := by
  cases callee with
  | function f => exact hcall f args
  | builtin b => exact h.bind (fun st => h.record st _) fun _ => h.builtin b args
  | _ => exact h.fail _

end Allows

section Evaluation

open Monkey.Action

variable {R : State → State → Prop} {scope : ScopeId} {Bound : String → Prop} {call : CallRule}

mutual

theorem Expr.eval_keeps (h : Allows R scope Bound) (hcall : ∀ f args, Keeps R (call f args))
    (e : Expr) (hb : ∀ x ∈ e.letNames, Bound x) : Keeps R (e.eval call scope) := by
  match e with
  | .ident i => exact h.lookUp _ _
  | .integer _ n => exact h.pure _
  | .boolean _ b => exact h.pure _
  | .string _ s => exact h.pure _
  | .array _ es => exact h.bind (Expr.evalAll_keeps h hcall es hb) fun _ => h.pure _
  | .hash _ ps => exact h.bind (Expr.evalPairs_keeps h hcall ps hb []) fun _ => h.pure _
  | .unary _ _ e => exact h.bind (Expr.eval_keeps h hcall e hb) fun _ => h.ofExcept _
  | .binary l _ _ r =>
    simp only [Expr.letNames, List.forall_mem_append] at hb
    exact h.bind (Expr.eval_keeps h hcall l hb.1) fun _ =>
      h.bind (Expr.eval_keeps h hcall r hb.2) fun _ => h.ofExcept _
  | .cond _ c b none =>
    simp only [Expr.letNames, List.forall_mem_append] at hb
    refine h.bind (Expr.eval_keeps h hcall c hb.1) fun v => ?_
    by_cases hv : v.truthy
    · rw [if_pos hv]
      exact Block.eval_keeps h hcall b hb.2
    · rw [if_neg hv]
      exact h.pure _
  | .cond _ c b (some a) =>
    simp only [Expr.letNames, List.forall_mem_append] at hb
    refine h.bind (Expr.eval_keeps h hcall c hb.1) fun v => ?_
    by_cases hv : v.truthy
    · rw [if_pos hv]
      exact Block.eval_keeps h hcall b hb.2.1
    · rw [if_neg hv]
      exact Block.eval_keeps h hcall a hb.2.2
  | .function f => exact h.number
  | .call f _ as =>
    simp only [Expr.letNames, List.forall_mem_append] at hb
    exact h.bind (Expr.eval_keeps h hcall f hb.1) fun v =>
      h.bind (Expr.evalAll_keeps h hcall as hb.2) fun vs => h.apply hcall v vs
  | .index t _ i =>
    simp only [Expr.letNames, List.forall_mem_append] at hb
    exact h.bind (Expr.eval_keeps h hcall t hb.1) fun _ =>
      h.bind (Expr.eval_keeps h hcall i hb.2) fun _ => h.ofExcept _
termination_by structural e

theorem Expr.evalAll_keeps (h : Allows R scope Bound) (hcall : ∀ f args, Keeps R (call f args))
    (es : List Expr) (hb : ∀ x ∈ Expr.letNamesAll es, Bound x) :
    Keeps R (Expr.evalAll call scope es) := by
  match es with
  | [] => exact h.pure _
  | e :: es =>
    simp only [Expr.letNamesAll, List.forall_mem_append] at hb
    exact h.bind (Expr.eval_keeps h hcall e hb.1) fun _ =>
      h.bind (Expr.evalAll_keeps h hcall es hb.2) fun _ => h.pure _
termination_by structural es

theorem Expr.evalPairs_keeps (h : Allows R scope Bound) (hcall : ∀ f args, Keeps R (call f args))
    (ps : List (Expr × Expr)) (hb : ∀ x ∈ Expr.letNamesPairs ps, Bound x) (entries : List Entry) :
    Keeps R (Expr.evalPairs call scope entries ps) := by
  match ps with
  | [] => exact h.pure _
  | (k, v) :: ps =>
    simp only [Expr.letNamesPairs, List.forall_mem_append] at hb
    refine h.bind (Expr.eval_keeps h hcall k hb.1) fun key => ?_
    cases key.hashKey? with
    | none => exact h.fail _
    | some slot =>
      exact h.bind (Expr.eval_keeps h hcall v hb.2.1) fun _ =>
        Expr.evalPairs_keeps h hcall ps hb.2.2 _
termination_by structural ps

theorem Stmt.eval_keeps (h : Allows R scope Bound) (hcall : ∀ f args, Keeps R (call f args))
    (s : Stmt) (hb : ∀ x ∈ s.letNames, Bound x) : Keeps R (s.eval call scope) := by
  match s with
  | .bind _ name none => exact fun st => h.define st _ _ (hb _ (List.mem_singleton_self _))
  | .bind _ name (some e) =>
    simp only [Stmt.letNames, List.forall_mem_cons] at hb
    exact h.bind (Expr.eval_keeps h hcall e hb.2) fun _ st => h.define st _ _ hb.1
  | .ret _ none => exact h.stop _
  | .ret _ (some e) => exact h.bind (Expr.eval_keeps h hcall e hb) fun _ => h.stop _
  | .expr _ e => exact Expr.eval_keeps h hcall e hb
  | .block b => exact Block.eval_keeps h hcall b hb
termination_by structural s

theorem Stmt.evalAll_keeps (h : Allows R scope Bound) (hcall : ∀ f args, Keeps R (call f args))
    (ss : List Stmt) (hb : ∀ x ∈ Stmt.letNamesAll ss, Bound x) :
    Keeps R (Stmt.evalAll call scope ss) := by
  match ss with
  | [] => exact h.pure _
  | [s] =>
    simp only [Stmt.letNamesAll, List.append_nil] at hb
    exact h.bind (fun st => h.record st _) fun _ => Stmt.eval_keeps h hcall s hb
  | s :: t :: ss =>
    rw [Stmt.letNamesAll, List.forall_mem_append] at hb
    exact h.bind (fun st => h.record st _) fun _ => h.bind (Stmt.eval_keeps h hcall s hb.1)
      fun _ => Stmt.evalAll_keeps h hcall (t :: ss) hb.2
termination_by structural ss

theorem Block.eval_keeps (h : Allows R scope Bound) (hcall : ∀ f args, Keeps R (call f args))
    (b : Block) (hb : ∀ x ∈ b.letNames, Bound x) : Keeps R (b.eval call scope) := by
  match b with
  | .mk _ ss => exact Stmt.evalAll_keeps h hcall ss hb
termination_by structural b

end

theorem Eval.catchReturn_snd (x : Eval Value) (st : State) :
    (Eval.catchReturn x st).2 = (x st).2 := by
  unfold Eval.catchReturn
  split
  · rename_i h
    rw [h]
  · rfl

theorem Closure.call_keeps (h : ∀ scope, Allows R scope fun _ => True)
    (henter : ∀ f args st, R st (Closure.entered f args st)) (depth : Nat) (f : Closure)
    (args : List Value) : Keeps R (Closure.call depth f args) := by
  induction depth generalizing f args with
  | zero => exact (h 0).stop _
  | succ depth ih =>
    intro st
    rw [Closure.call_succ]
    split
    · exact (h 0).refl st
    · rw [Eval.catchReturn_snd]
      have hbody := Block.eval_keeps (h st.heap.size) ih f.literal.body fun _ _ => trivial
      exact (h 0).trans (henter f args st) (hbody _)

theorem Program.run_keeps (h : Allows R scope Bound) {depth : Nat}
    (hcall : ∀ f args, Keeps R (Closure.call depth f args)) (p : Program)
    (hb : ∀ x ∈ Stmt.letNamesAll p.statements, Bound x) (st : State) :
    R st (p.run depth scope st).2 := by
  have hall := h.trans (h.record st _) (Stmt.evalAll_keeps h hcall p.statements hb
    (st.record (.evaluating p.statements.length)))
  unfold Program.run
  split
  · rename_i v st' hst
    rw [hst] at hall
    exact h.trans hall (h.record _ _)
  · rename_i s st' hst
    rw [hst] at hall
    split
    · exact h.trans hall (h.record _ _)
    · exact hall

theorem Node.run_keeps (h : Allows R scope Bound) {depth : Nat}
    (hcall : ∀ f args, Keeps R (Closure.call depth f args)) (n : Node)
    (hb : ∀ x ∈ n.letNames, Bound x) (st : State) : R st (n.run depth scope st).2 := by
  have outcome_snd (r : Except Signal Value × State) : (Node.outcome r).2 = r.2 := by
    rcases r with ⟨_ | _, _⟩ <;> rfl
  cases n with
  | program p => exact p.run_keeps h hcall hb st
  | stmt s =>
    rw [Node.run, outcome_snd]
    exact s.eval_keeps h hcall hb st
  | expr e =>
    rw [Node.run, outcome_snd]
    exact e.eval_keeps h hcall hb st
  | block b =>
    rw [Node.run, outcome_snd]
    exact b.eval_keeps h hcall hb st

end Evaluation

end Monkey
