import Monkey.Proofs.Eval.Builtins
import Monkey.Proofs.Eval.Layout
import Monkey.Proofs.Scope.Chain
import Monkey.Proofs.Syntax.Tree

/-!
Evaluation without functions. Depth is spent by calls of functions alone, and what is called is
looked up, taken out of arrays and hashes, and handed on by builtins. Where no function is in reach
and the code has no literal to make one, none can come up in any of these ways; so evaluation ends
by itself, whatever a call of a function would do, and there is still no function in reach.
-/

namespace Monkey

def Value.NotFunction : Value → Prop
  | .function _ => False
  | _ => True

abbrev Value.FunctionFree (v : Value) : Prop := v.Every Value.NotFunction

/-- The scopes on the way from `scope` to a global one are `ids`, and they bind no functions. -/
structure Heap.Functionless (h : Heap) (scope : ScopeId) (ids : List ScopeId) : Prop where
  chain : h.Chain scope ids
  free : ∀ id ∈ ids, ∀ s, h.scopes[id]? = some s → ∀ b ∈ s.bindings, b.2.FunctionFree

def Part.LiteralFree (x : Part) : Prop := x.Everywhere fun y => ∀ f, y ≠ .expr (.function f)

theorem Part.LiteralFree.child {x y : Part} (h : x.LiteralFree) (hy : y ∈ x.children) :
    y.LiteralFree := (Part.everywhere_iff.mp h).2 y hy

theorem Value.Plain.notFunction {v : Value} (h : v.Plain) : v.NotFunction := by
  cases v with
  | function f => exact h.ne_function f rfl
  | _ => trivial

theorem Value.Atom.functionFree {v : Value} (h : v.Atom) : v.FunctionFree :=
  h.every fun _ => Value.Plain.notFunction

theorem Heap.Chain.exists_mem_of_find? {h : Heap} {id : ScopeId} {ids : List ScopeId}
    (hc : h.Chain id ids) {reach : Reach} {name : String} {v : Value}
    (hv : h.find? reach name id = some v) :
    ∃ i ∈ ids, ∃ s, h.scopes[i]? = some s ∧ (name, v) ∈ s.bindings := by
  induction hc with
  | @global id s hs houter =>
    rw [Heap.find?, hs] at hv
    cases hfind : s.find? name with
    | none => simp [hfind, houter] at hv
    | some w =>
      obtain rfl : w = v := by simpa [hfind] using hv
      exact ⟨id, List.mem_singleton_self id, s, hs, Scope.mem_bindings_of_find? hfind⟩
  | @within id outer s ids hs houter _ ih =>
    rw [Heap.find?, hs] at hv
    cases hfind : s.find? name with
    | some w =>
      obtain rfl : w = v := by simpa [hfind] using hv
      exact ⟨id, List.mem_cons_self, s, hs, Scope.mem_bindings_of_find? hfind⟩
    | none =>
      cases reach with
      | own => simp [hfind] at hv
      | outwards =>
        by_cases hlt : outer < id
        · obtain ⟨i, hi, hfound⟩ := ih (by simpa [hfind, houter, hlt] using hv)
          exact ⟨i, List.mem_cons_of_mem id hi, hfound⟩
        · simp [hfind, houter, hlt] at hv

namespace Heap.Functionless

variable {h : Heap} {scope : ScopeId} {ids : List ScopeId}

theorem find? (hh : h.Functionless scope ids) {reach : Reach} {name : String} {v : Value}
    (hv : h.find? reach name scope = some v) : v.FunctionFree := by
  obtain ⟨i, hi, s, hs, hb⟩ := hh.chain.exists_mem_of_find? hv
  exact hh.free i hi s hs _ hb

theorem set (hh : h.Functionless scope ids) (id : ScopeId) (name : String) {value : Value}
    (hv : value.FunctionFree) : (h.set id name value).Functionless scope ids := by
  constructor
  · apply hh.chain.imp
    intro i s hs
    rw [getElem?_set, hs]
    by_cases hi : id = i
    · rw [if_pos hi]
      exact ⟨s.set name value, rfl, rfl⟩
    · rw [if_neg hi]
      exact ⟨s, rfl, rfl⟩
  · intro i hi s hs b hb
    rw [getElem?_set] at hs
    split at hs
    · obtain ⟨t, ht, rfl⟩ := Option.map_eq_some_iff.mp hs
      rcases Scope.mem_bindings_set hb with rfl | hb
      · exact hv
      · exact hh.free i hi t ht b hb
    · exact hh.free i hi s hs b hb

end Heap.Functionless

section Evaluation

open Monkey.Action

variable {α β : Type} {Q : α → Prop} {R : β → Prop} {call : CallRule} {scope : ScopeId}
  {ids : List ScopeId}

/-- Ended with an `α` of the property `Q`, by a return or by a failure, and not for want of depth. -/
def EndsFree (Q : α → Prop) : Except Signal α → Prop
  | .ok a => Q a
  | .error (.returned v) => v.FunctionFree
  | .error (.failed _) => True
  | .error .tooDeep => False

/-- Where no functions are in reach of `scope`, the evaluation ends, and there are none after it. -/
def Eval.Terminates (scope : ScopeId) (ids : List ScopeId) (Q : α → Prop) (x : Eval α) : Prop :=
  ∀ st, st.heap.Functionless scope ids →
    EndsFree Q (x st).1 ∧ (x st).2.heap.Functionless scope ids

namespace Eval.Terminates

theorem bind {x : Eval α} {f : α → Eval β} (hx : x.Terminates scope ids Q)
    (hf : ∀ a, Q a → (f a).Terminates scope ids R) : (x >>= f).Terminates scope ids R := by
  intro st hst
  obtain ⟨hend, hheap⟩ := hx st hst
  rcases h : x st with ⟨s | a, mid⟩
  · rw [h] at hend hheap
    rw [bind_of_error h]
    exact ⟨by cases s <;> exact hend, hheap⟩
  · rw [h] at hend hheap
    rw [bind_of_ok h]
    exact hf a hend mid hheap

theorem pure {a : α} (ha : Q a) : (pure a : Eval α).Terminates scope ids Q :=
  fun _ hst => ⟨ha, hst⟩

theorem fail (e : RuntimeError) : (Eval.fail e : Eval α).Terminates scope ids Q :=
  fun _ hst => ⟨trivial, hst⟩

theorem returning {v : Value} (hv : v.FunctionFree) :
    Eval.Terminates scope ids Q (Action.stop (.returned v)) := fun _ hst => ⟨hv, hst⟩

theorem ofExcept {r : Except RuntimeError α} (hr : ∀ a, r = .ok a → Q a) :
    (Eval.ofExcept r).Terminates scope ids Q := by
  cases r with
  | ok a => exact .pure (hr a rfl)
  | error e => exact .fail e

theorem record (e : Event) : Eval.Terminates scope ids (fun _ => True) (Action.record e) :=
  fun _ hst => ⟨trivial, hst⟩

theorem writeLine (text : String) :
    (Eval.writeLine text).Terminates scope ids fun _ => True := by
  intro st hst
  unfold Eval.writeLine Action.write
  rcases st.sink.write (text ++ "\n") with ⟨_ | _, sink⟩
  · exact ⟨trivial, hst⟩
  · exact ⟨trivial, hst⟩

theorem define (name : String) {value : Value} (hv : value.FunctionFree) :
    (Eval.define scope name value).Terminates scope ids Value.FunctionFree :=
  fun _ hst => ⟨hv, hst.set scope name hv⟩

theorem lookUp (name : String) :
    (Eval.lookUp scope name).Terminates scope ids Value.FunctionFree := by
  intro st hst
  unfold Eval.lookUp
  split
  · rename_i v hv
    exact ⟨hst.find? hv, hst⟩
  · split
    · exact ⟨trivial, hst⟩
    · exact ⟨trivial, hst⟩

theorem putLines (vs : List Value) :
    (Builtin.putLines vs).Terminates scope ids Value.FunctionFree := by
  induction vs with
  | nil => exact .pure trivial
  | cons v vs ih => exact (writeLine v.inspect).bind fun _ _ => ih

theorem builtin (b : Builtin) {args : List Value} (hargs : ∀ v ∈ args, v.FunctionFree) :
    (b.apply args).Terminates scope ids Value.FunctionFree := by
  rcases b.apply_cases args with h | ⟨e, h, -⟩ | ⟨v, h, hv⟩
  · rw [h]
    exact putLines args
  · rw [h]
    exact .fail e
  · rw [h]
    exact .pure (hv _ (fun _ => Value.Plain.notFunction) hargs)

/-- What is called is a builtin or cannot be called. -/
theorem apply {callee : Value} {args : List Value} (hcallee : callee.FunctionFree)
    (hargs : ∀ v ∈ args, v.FunctionFree) :
    (callee.apply call args).Terminates scope ids Value.FunctionFree := by
  cases callee with
  | function f => exact False.elim hcallee
  | builtin b => exact (record _).bind fun _ _ => builtin b hargs
  | _ => exact .fail _

end Eval.Terminates

mutual

theorem Expr.eval_terminates (e : Expr) (he : (Part.expr e).LiteralFree) :
    (e.eval call scope).Terminates scope ids Value.FunctionFree := by
  have below {y : Part} (hy : y ∈ (Part.expr e).children) : y.LiteralFree := he.child hy
  match e with
  | .ident i => exact .lookUp i.name
  | .integer _ n => exact .pure trivial
  | .boolean _ b => exact .pure trivial
  | .string _ s => exact .pure trivial
  | .array _ es =>
    refine (Expr.evalAll_terminates es fun e he => below (List.mem_map_of_mem he)).bind
      fun vs hvs => .pure (Value.every_array (fun _ => Value.Plain.notFunction) hvs)
  | .hash _ ps =>
    refine (Expr.evalPairs_terminates ps (fun p hp => ⟨below ?_, below ?_⟩) []
      (List.forall_mem_nil _)).bind fun es hes => .pure ⟨trivial, Entry.everyAll_iff.mpr hes⟩
    · exact List.mem_flatMap.mpr ⟨p, hp, by simp⟩
    · exact List.mem_flatMap.mpr ⟨p, hp, by simp⟩
  | .unary _ t e =>
    refine (Expr.eval_terminates e (below (by simp [Part.children]))).bind fun v hv => ?_
    exact .ofExcept fun w hw => (Value.atom_of_unary hw).functionFree
  | .binary l _ t r =>
    refine (Expr.eval_terminates l (below (by simp [Part.children]))).bind fun v hv => ?_
    refine (Expr.eval_terminates r (below (by simp [Part.children]))).bind fun w hw => ?_
    exact .ofExcept fun u hu => (Value.atom_of_binary hu).functionFree
  | .cond _ c b none =>
    refine (Expr.eval_terminates c (below (by simp [Part.children]))).bind fun v hv => ?_
    split
    · exact Block.eval_terminates b (below (by simp [Part.children]))
    · exact .pure trivial
  | .cond _ c b (some a) =>
    refine (Expr.eval_terminates c (below (by simp [Part.children]))).bind fun v hv => ?_
    split
    · exact Block.eval_terminates b (below (by simp [Part.children]))
    · exact Block.eval_terminates a (below (by simp [Part.children]))
  | .function f => exact absurd rfl (he _ .refl f)
  | .call f _ as =>
    refine (Expr.eval_terminates f (below (by simp [Part.children]))).bind fun v hv => ?_
    refine (Expr.evalAll_terminates as fun e he => below ?_).bind fun vs hvs => ?_
    · exact List.mem_cons_of_mem _ (List.mem_map_of_mem he)
    · exact .apply hv hvs
  | .index t _ i =>
    refine (Expr.eval_terminates t (below (by simp [Part.children]))).bind fun v hv => ?_
    refine (Expr.eval_terminates i (below (by simp [Part.children]))).bind fun w hw => ?_
    exact .ofExcept fun u => Value.every_index (fun _ => Value.Plain.notFunction) hv
termination_by structural e

theorem Expr.evalAll_terminates (es : List Expr) (hes : ∀ e ∈ es, (Part.expr e).LiteralFree) :
    (Expr.evalAll call scope es).Terminates scope ids
      fun vs => ∀ v ∈ vs, Value.FunctionFree v := by
  match es with
  | [] => exact .pure (List.forall_mem_nil _)
  | e :: es =>
    rw [List.forall_mem_cons] at hes
    exact (Expr.eval_terminates e hes.1).bind fun v hv =>
      (Expr.evalAll_terminates es hes.2).bind fun vs hvs =>
        .pure (List.forall_mem_cons.mpr ⟨hv, hvs⟩)
termination_by structural es

theorem Expr.evalPairs_terminates (ps : List (Expr × Expr))
    (hps : ∀ p ∈ ps, (Part.expr p.1).LiteralFree ∧ (Part.expr p.2).LiteralFree)
    (entries : List Entry) (hes : ∀ e ∈ entries, e.Every Value.NotFunction) :
    (Expr.evalPairs call scope entries ps).Terminates scope ids
      fun es => ∀ e ∈ es, Entry.Every Value.NotFunction e := by
  match ps with
  | [] => exact .pure hes
  | (k, v) :: ps =>
    rw [List.forall_mem_cons] at hps
    refine (Expr.eval_terminates k hps.1.1).bind fun key hkey => ?_
    cases key.hashKey? with
    | none => exact .fail _
    | some slot =>
      exact (Expr.eval_terminates v hps.1.2).bind fun value hvalue =>
        Expr.evalPairs_terminates ps hps.2 _ (Entry.every_insert ⟨hkey, hvalue⟩ hes)
termination_by structural ps

theorem Stmt.eval_terminates (s : Stmt) (hs : (Part.stmt s).LiteralFree) :
    (s.eval call scope).Terminates scope ids Value.FunctionFree := by
  have below {y : Part} (hy : y ∈ (Part.stmt s).children) : y.LiteralFree := hs.child hy
  match s with
  | .bind _ name none => exact .define name.name trivial
  | .bind _ name (some e) =>
    exact (Expr.eval_terminates e (below (by simp [Part.children]))).bind
      fun v hv => .define name.name hv
  | .ret _ none => exact .returning trivial
  | .ret _ (some e) =>
    exact (Expr.eval_terminates e (below (by simp [Part.children]))).bind
      fun v hv => .returning hv
  | .expr _ e => exact Expr.eval_terminates e (below (by simp [Part.children]))
  | .block b => exact Block.eval_terminates b (below (by simp [Part.children]))
termination_by structural s

theorem Stmt.evalAll_terminates (ss : List Stmt) (hss : ∀ s ∈ ss, (Part.stmt s).LiteralFree) :
    (Stmt.evalAll call scope ss).Terminates scope ids Value.FunctionFree := by
  match ss with
  | [] => exact .pure trivial
  | [s] =>
    rw [List.forall_mem_singleton] at hss
    exact (Eval.Terminates.record _).bind fun _ _ => Stmt.eval_terminates s hss
  | s :: t :: ss =>
    rw [List.forall_mem_cons] at hss
    exact (Eval.Terminates.record _).bind fun _ _ => (Stmt.eval_terminates s hss.1).bind
      fun _ _ => Stmt.evalAll_terminates (t :: ss) hss.2
termination_by structural ss

theorem Block.eval_terminates (b : Block) (hb : (Part.block b).LiteralFree) :
    (b.eval call scope).Terminates scope ids Value.FunctionFree := by
  match b with
  | .mk _ ss => exact Stmt.evalAll_terminates ss fun s hs => hb.child (List.mem_map_of_mem hs)
termination_by structural b

end

end Evaluation

theorem EndsFree.cases {r : Except Signal Value} (h : EndsFree Value.FunctionFree r) :
    (∃ v, r = .ok v ∧ v.FunctionFree) ∨ (∃ v, r = .error (.returned v) ∧ v.FunctionFree) ∨
      ∃ e, r = .error (.failed e) := by
  rcases r with (v | e | _) | v
  · exact .inr (.inl ⟨v, rfl, h⟩)
  · exact .inr (.inr ⟨e, rfl⟩)
  · exact False.elim h
  · exact .inl ⟨v, rfl, h⟩

theorem EndsFree.exists_resultOf {r : Except Signal Value} (h : EndsFree Value.FunctionFree r) :
    ∃ v, resultOf r = some v ∧ v.FunctionFree := by
  rcases h.cases with ⟨v, rfl, hv⟩ | ⟨v, rfl, hv⟩ | ⟨e, rfl⟩
  · exact ⟨v, rfl, hv⟩
  · exact ⟨v, rfl, hv⟩
  · exact ⟨.error e, rfl, trivial⟩

/-- A program without function literals, run where no function is bound in the scopes that it can
see, ends with a value, a return or a failure, whatever calls of functions would do; so no depth of
calls is too small for it. What it yields holds no function, and neither do the scopes it has run
in. -/
theorem only_functions_can_diverge {p : Program} (hp : ∀ f, ¬p.Contains (.expr (.function f)))
    {scope : ScopeId} {ids : List ScopeId} {st : State} (hst : st.heap.Functionless scope ids) :
    (∀ call : CallRule, let outcome := (Stmt.evalAll call scope p.statements st).1
      (∃ v, outcome = .ok v ∧ v.FunctionFree) ∨
      (∃ v, outcome = .error (.returned v) ∧ v.FunctionFree) ∨
      ∃ e, outcome = .error (.failed e)) ∧
    ∀ depth, (∃ v, (p.run depth scope st).1 = some v ∧ v.FunctionFree) ∧
      (p.run depth scope st).2.heap.Functionless scope ids := by
  have hfree : ∀ s ∈ p.statements, (Part.stmt s).LiteralFree := by
    rintro s hs y hy f rfl
    exact hp f ⟨s, hs, hy⟩
  constructor
  · intro call
    exact (Stmt.evalAll_terminates p.statements hfree st hst).1.cases
  · intro depth
    obtain ⟨journal, hrun⟩ := p.run_eq depth scope st
    have hends : (Stmt.evalAll (Closure.call depth) scope p.statements).Terminates scope ids
        Value.FunctionFree := Stmt.evalAll_terminates p.statements hfree
    obtain ⟨hend, hheap⟩ := hends (st.record (.evaluating p.statements.length)) hst
    rw [hrun]
    exact ⟨hend.exists_resultOf, hheap⟩

/-- Builtins stored in an array and a hash and called from there, run in a scope within a global one,
beside another global scope that binds a function. -/
theorem only_functions_can_diverge_instance :
    let t : Token := default
    let name (s : String) : Ident := ⟨{ t with text := s }⟩
    let table : Expr := .hash t [(.string t "k", .array t [.ident (name "puts"), .ident (name "f")])]
    let callee : Expr :=
      .index (.index (.ident (name "h")) t (.string t "k")) t (.integer t 1)
    let p : Program := ⟨[.bind t (name "h") (some table),
      .ret t (some (.call callee t [.string t "abc"]))]⟩
    let function : Value := .function ⟨0, .mk t [] (.mk t []), 1⟩
    let st : State := { State.ofSink .unlimited .silent with
      heap := ⟨#[⟨[("f", .builtin .len)], none⟩, ⟨[("f", function)], none⟩, ⟨[], some 0⟩]⟩ }
    (∀ f, ¬p.Contains (.expr (.function f))) ∧ st.heap.Functionless 2 [2, 0] ∧
      (p.run 0 2 st).1.map Value.inspect = some "3" ∧
      (p.run 0 2 st).2.heap.Functionless 2 [2, 0] ∧
      ∃ v, (p.run 0 2 st).1 = some v ∧ v.FunctionFree := by
  intro t name table callee p function st
  have hp : ∀ f, ¬p.Contains (.expr (.function f)) := by
    have expr (e : Expr) : (Part.expr e).LiteralFree ↔ (∀ f, Part.expr e ≠ .expr (.function f)) ∧
        ∀ y ∈ (Part.expr e).children, y.LiteralFree := Part.everywhere_iff
    have stmt (s : Stmt) : (Part.stmt s).LiteralFree ↔ (∀ f, Part.stmt s ≠ .expr (.function f)) ∧
        ∀ y ∈ (Part.stmt s).children, y.LiteralFree := Part.everywhere_iff
    have hfree : ∀ s ∈ p.statements, (Part.stmt s).LiteralFree := by
      simp [p, table, callee, expr, stmt, Part.children]
    rintro f ⟨s, hs, hcontains⟩
    exact hfree s hs _ hcontains f rfl
  have hst : st.heap.Functionless 2 [2, 0] := by
    refine ⟨.within rfl rfl (.global rfl rfl), ?_⟩
    rw [List.forall_mem_cons, List.forall_mem_singleton]
    constructor
    · rintro s ⟨⟩ b hb
      cases hb
    · rintro s ⟨⟩ b hb
      obtain rfl := List.mem_singleton.mp hb
      trivial
  obtain ⟨hvalue, hheap⟩ := (only_functions_can_diverge hp hst).2 0
  exact ⟨hp, hst, by decide +kernel, hheap, hvalue⟩

end Monkey
