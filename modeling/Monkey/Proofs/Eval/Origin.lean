import Monkey.Proofs.Eval.Builtins
import Monkey.Proofs.Eval.Signals
import Monkey.Proofs.Scope
import Monkey.Proofs.Syntax.WellFormed
import Monkey.Proofs.Value

/-!
Evaluation of what was read. If all functions in reach stand in trees of sources, evaluation of such
a tree makes only functions that do, too; so a call, of whatever function that was stored wherever,
runs code that has been read. Operators that were read are known to evaluation, so none of them
fails for being unknown: integers take every binary operator, and only a minus can refuse its
operand.
-/

namespace Monkey

def Part.FromSource (x : Part) : Prop := ∃ source, (parse source).1.Contains x

theorem Part.FromSource.child {x y : Part} (h : x.FromSource) (hy : y ∈ x.children) :
    y.FromSource := h.imp fun _ hx => hx.child hy

theorem Part.FromSource.wellFormed {x : Part} (h : x.FromSource) : x.WellFormed := by
  obtain ⟨source, hx⟩ := h
  exact hx.wellFormed

def Value.LiteralFromSource : Value → Prop
  | .function f => (Part.expr (.function f.literal)).FromSource
  | _ => True

abbrev Value.FromSource (v : Value) : Prop := v.Every Value.LiteralFromSource

def Heap.FromSource (h : Heap) : Prop :=
  ∀ (id : ScopeId) (s : Scope), h.scopes[id]? = some s → ∀ b ∈ s.bindings, b.2.FromSource

def RuntimeError.OfKnownOperator : RuntimeError → Prop
  | .unknownUnary op _ => op = "-"
  | .unknownBinary left _ right => ¬(left = .integer ∧ right = .integer)
  | _ => True

theorem RuntimeError.OfArguments.ofKnownOperator {e : RuntimeError} (h : e.OfArguments) :
    e.OfKnownOperator := by
  cases e with
  | wrongArgumentCount _ _ | unsupportedArgument _ _ | argumentKind _ _ _ => trivial
  | _ => exact False.elim h

theorem Value.Plain.literalFromSource {v : Value} (h : v.Plain) : v.LiteralFromSource := by
  cases v with
  | function f => exact absurd rfl (h.ne_function f)
  | _ => trivial

theorem Value.Atom.fromSource {v : Value} (h : v.Atom) : v.FromSource :=
  h.every fun _ => Value.Plain.literalFromSource

section Operators

variable {op : String} {v w : Value} {e : RuntimeError}

theorem Value.unary_known (hop : op ∈ ["!", "-"]) (h : v.unary op = .error e) :
    e.OfKnownOperator := by
  unfold Value.unary at h
  split at h
  · cases h
  · cases h
  · rename_i hnot _
    obtain rfl := Except.error.inj h
    have hne : op ≠ "!" := hnot
    change op = "-"
    simpa [hne] using hop

theorem Value.integerBinary_known {m n : Int64}
    (hop : op ∈ ["+", "-", "*", "/", "<", ">", "==", "!="])
    (h : Value.integerBinary m op n = .error e) : e.OfKnownOperator := by
  unfold Value.integerBinary at h
  split at h
  case h_4 =>
    split at h
    · obtain rfl := Except.error.inj h
      trivial
    · cases h
  case h_9 hplus hminus hstar hslash hless hgreater hequal hnotEqual =>
    simp only [List.mem_cons, List.not_mem_nil, or_false] at hop
    tauto
  all_goals cases h

theorem Value.eq_integer_of_kind (h : v.kind = .integer) : ∃ n, v = .integer n := by
  cases v with
  | integer n => exact ⟨n, rfl⟩
  | _ => cases h

theorem Value.concat_known {s : String} (h : Value.concat s v = .error e) :
    e.OfKnownOperator := by
  unfold Value.concat at h
  split at h
  any_goals cases h
  rintro ⟨hstring, -⟩
  cases hstring

theorem Value.binary_known (hop : op ∈ ["+", "-", "*", "/", "<", ">", "==", "!="])
    (h : v.binary op w = .error e) : e.OfKnownOperator := by
  unfold Value.binary at h
  split at h
  · exact Value.concat_known h
  · exact Value.integerBinary_known hop h
  · rename_i hintegers
    split at h
    · obtain rfl := Except.error.inj h
      trivial
    · split at h
      · cases h
      · cases h
      · obtain rfl := Except.error.inj h
        rintro ⟨hv, hw⟩
        obtain ⟨m, rfl⟩ := Value.eq_integer_of_kind hv
        obtain ⟨n, rfl⟩ := Value.eq_integer_of_kind hw
        exact hintegers m n rfl rfl

theorem Value.index_known (h : v.index w = .error e) : e.OfKnownOperator := by
  unfold Value.index at h
  split at h
  · cases h
  · split at h
    · cases h
    · obtain rfl := Except.error.inj h
      trivial
  · obtain rfl := Except.error.inj h
    trivial

end Operators

namespace Heap.FromSource

variable {h : Heap}

theorem set (hh : h.FromSource) (id : ScopeId) (name : String) {value : Value}
    (hv : value.FromSource) : (h.set id name value).FromSource := by
  intro i s hs b hb
  rw [Heap.getElem?_set] at hs
  split at hs
  · obtain ⟨s, hold, rfl⟩ := Option.map_eq_some_iff.mp hs
    rcases Scope.mem_bindings_set hb with rfl | hb
    · exact hv
    · exact hh i s hold b hb
  · exact hh i s hs b hb

theorem setAll (hh : h.FromSource) (id : ScopeId) {bindings : List (String × Value)}
    (hb : ∀ b ∈ bindings, b.2.FromSource) : (h.setAll id bindings).FromSource := by
  induction bindings generalizing h with
  | nil => exact hh
  | cons b bindings ih =>
    obtain ⟨name, value⟩ := b
    rw [List.forall_mem_cons] at hb
    exact ih (hh.set id name hb.1) hb.2

theorem push (hh : h.FromSource) (outer : Option ScopeId) : (h.push outer).FromSource := by
  intro i s hs b hb
  rw [Heap.getElem?_push] at hs
  split at hs
  · obtain rfl := Option.some.inj hs
    cases hb
  · exact hh i s hs b hb

theorem find? (hh : h.FromSource) {reach : Reach} {name : String} {id : ScopeId} {value : Value}
    (hv : h.find? reach name id = some value) : value.FromSource := by
  obtain ⟨i, s, hs, hb⟩ := Heap.exists_mem_bindings_of_find? hv
  exact hh i s hs _ hb

end Heap.FromSource

section Evaluation

open Monkey.Action

variable {α β : Type} {Q : α → Prop} {R : β → Prop} {call : CallRule} {scope : ScopeId}

/-- How evaluation may end: with an `α` of the property `Q`, with a returned value whose functions
come from sources, or with a failure that no unknown operator is to blame for. -/
def EndsKnown (Q : α → Prop) : Except Signal α → Prop
  | .ok a => Q a
  | .error (.returned v) => v.FromSource
  | .error (.failed e) => e.OfKnownOperator
  | .error .tooDeep => True

def Eval.Sourced (Q : α → Prop) (x : Eval α) : Prop :=
  ∀ st, st.heap.FromSource → EndsKnown Q (x st).1 ∧ (x st).2.heap.FromSource

def CallRule.Sourced (call : CallRule) : Prop :=
  ∀ f args, (Value.function f).FromSource → (∀ v ∈ args, v.FromSource) →
    (call f args).Sourced Value.FromSource

namespace Eval.Sourced

theorem bind {x : Eval α} {f : α → Eval β} (hx : x.Sourced Q) (hf : ∀ a, Q a → (f a).Sourced R) :
    (x >>= f).Sourced R := by
  intro st hst
  obtain ⟨hend, hheap⟩ := hx st hst
  rcases h : x st with ⟨s | a, mid⟩
  · rw [h] at hend hheap
    rw [bind_of_error h]
    exact ⟨by cases s <;> exact hend, hheap⟩
  · rw [h] at hend hheap
    rw [bind_of_ok h]
    exact hf a hend mid hheap

theorem pure {a : α} (ha : Q a) : (pure a : Eval α).Sourced Q := fun _ hst => ⟨ha, hst⟩

theorem fail {e : RuntimeError} (he : e.OfKnownOperator) : (Eval.fail e : Eval α).Sourced Q :=
  fun _ hst => ⟨he, hst⟩

theorem returning {v : Value} (hv : v.FromSource) :
    Eval.Sourced Q (Action.stop (.returned v)) := fun _ hst => ⟨hv, hst⟩

theorem ofExcept {r : Except RuntimeError α} (hok : ∀ a, r = .ok a → Q a)
    (herror : ∀ e, r = .error e → e.OfKnownOperator) : (Eval.ofExcept r).Sourced Q := by
  cases r with
  | ok a => exact .pure (hok a rfl)
  | error e => exact .fail (herror e rfl)

theorem record (e : Event) : Eval.Sourced (fun _ => True) (Action.record e) :=
  fun _ hst => ⟨trivial, hst⟩

theorem writeLine (text : String) : (Eval.writeLine text).Sourced fun _ => True := by
  intro st hst
  unfold Eval.writeLine Action.write
  rcases st.sink.write (text ++ "\n") with ⟨_ | _, sink⟩
  · exact ⟨trivial, hst⟩
  · exact ⟨trivial, hst⟩

theorem define (name : String) {value : Value} (hv : value.FromSource) :
    (Eval.define scope name value).Sourced Value.FromSource :=
  fun _ hst => ⟨hv, hst.set scope name hv⟩

theorem lookUp (name : String) :
    (Eval.lookUp scope name).Sourced Value.FromSource := by
  intro st hst
  unfold Eval.lookUp
  split
  · rename_i v hv
    exact ⟨hst.find? hv, hst⟩
  · split
    · exact ⟨trivial, hst⟩
    · exact ⟨trivial, hst⟩

theorem putLines (vs : List Value) :
    (Builtin.putLines vs).Sourced Value.FromSource := by
  induction vs with
  | nil => exact .pure trivial
  | cons v vs ih => exact (writeLine v.inspect).bind fun _ _ => ih

theorem builtin (b : Builtin) {args : List Value} (hargs : ∀ v ∈ args, v.FromSource) :
    (b.apply args).Sourced Value.FromSource := by
  rcases b.apply_cases args with hb | ⟨e, hb, he⟩ | ⟨v, hb, hv⟩
  · rw [hb]
    exact putLines args
  · rw [hb]
    exact .fail he.ofKnownOperator
  · rw [hb]
    exact .pure (hv _ (fun _ => Value.Plain.literalFromSource) hargs)

theorem apply (hcall : call.Sourced) {callee : Value} {args : List Value}
    (hcallee : callee.FromSource) (hargs : ∀ v ∈ args, v.FromSource) :
    (callee.apply call args).Sourced Value.FromSource := by
  cases callee with
  | function f => exact hcall f args hcallee hargs
  | builtin b => exact (record _).bind fun _ _ => builtin b hargs
  | _ => exact .fail trivial

theorem catchReturn {x : Eval Value} (hx : x.Sourced Value.FromSource) :
    (Eval.catchReturn x).Sourced Value.FromSource := by
  intro st hst
  obtain ⟨hend, hheap⟩ := hx st hst
  unfold Eval.catchReturn
  split
  · rename_i v st' h
    rw [h] at hend hheap
    exact ⟨hend, hheap⟩
  · exact ⟨hend, hheap⟩

end Eval.Sourced

mutual

theorem Expr.eval_sourced (hcall : call.Sourced) (e : Expr) (he : (Part.expr e).FromSource) :
    (e.eval call scope).Sourced Value.FromSource := by
  have hknown := he.wellFormed
  have below {y : Part} (hy : y ∈ (Part.expr e).children) : y.FromSource := he.child hy
  match e with
  | .ident i => exact .lookUp i.name
  | .integer _ n => exact .pure trivial
  | .boolean _ b => exact .pure trivial
  | .string _ s => exact .pure trivial
  | .array _ es =>
    refine (Expr.evalAll_sourced hcall es fun e he => below (List.mem_map_of_mem he)).bind
      fun vs hvs => .pure (Value.every_array (fun _ => Value.Plain.literalFromSource) hvs)
  | .hash _ ps =>
    refine (Expr.evalPairs_sourced hcall ps (fun p hp => ⟨below ?_, below ?_⟩) []
      (List.forall_mem_nil _)).bind fun es hes => .pure ⟨trivial, Entry.everyAll_iff.mpr hes⟩
    · exact List.mem_flatMap.mpr ⟨p, hp, by simp⟩
    · exact List.mem_flatMap.mpr ⟨p, hp, by simp⟩
  | .unary _ t e =>
    refine (Expr.eval_sourced hcall e (below (by simp [Part.children]))).bind fun v hv => ?_
    exact .ofExcept (fun w hw => (Value.atom_of_unary hw).fromSource)
      fun e => Value.unary_known hknown.1
  | .binary l _ t r =>
    refine (Expr.eval_sourced hcall l (below (by simp [Part.children]))).bind fun v hv => ?_
    refine (Expr.eval_sourced hcall r (below (by simp [Part.children]))).bind fun w hw => ?_
    exact .ofExcept (fun u hu => (Value.atom_of_binary hu).fromSource)
      fun e => Value.binary_known hknown.1
  | .cond _ c b none =>
    refine (Expr.eval_sourced hcall c (below (by simp [Part.children]))).bind fun v hv => ?_
    split
    · exact Block.eval_sourced hcall b (below (by simp [Part.children]))
    · exact .pure trivial
  | .cond _ c b (some a) =>
    refine (Expr.eval_sourced hcall c (below (by simp [Part.children]))).bind fun v hv => ?_
    split
    · exact Block.eval_sourced hcall b (below (by simp [Part.children]))
    · exact Block.eval_sourced hcall a (below (by simp [Part.children]))
  | .function f => exact fun st hst => ⟨he, hst⟩
  | .call f _ as =>
    refine (Expr.eval_sourced hcall f (below (by simp [Part.children]))).bind fun v hv => ?_
    refine (Expr.evalAll_sourced hcall as fun e he => below ?_).bind fun vs hvs => ?_
    · exact List.mem_cons_of_mem _ (List.mem_map_of_mem he)
    · exact .apply hcall hv hvs
  | .index t _ i =>
    refine (Expr.eval_sourced hcall t (below (by simp [Part.children]))).bind fun v hv => ?_
    refine (Expr.eval_sourced hcall i (below (by simp [Part.children]))).bind fun w hw => ?_
    exact .ofExcept (fun u => Value.every_index (fun _ => Value.Plain.literalFromSource) hv)
      fun e => Value.index_known
termination_by structural e

theorem Expr.evalAll_sourced (hcall : call.Sourced) (es : List Expr)
    (hes : ∀ e ∈ es, (Part.expr e).FromSource) :
    (Expr.evalAll call scope es).Sourced fun vs => ∀ v ∈ vs, Value.FromSource v := by
  match es with
  | [] => exact .pure (List.forall_mem_nil _)
  | e :: es =>
    rw [List.forall_mem_cons] at hes
    exact (Expr.eval_sourced hcall e hes.1).bind fun v hv =>
      (Expr.evalAll_sourced hcall es hes.2).bind fun vs hvs =>
        .pure (List.forall_mem_cons.mpr ⟨hv, hvs⟩)
termination_by structural es

theorem Expr.evalPairs_sourced (hcall : call.Sourced) (ps : List (Expr × Expr))
    (hps : ∀ p ∈ ps, (Part.expr p.1).FromSource ∧ (Part.expr p.2).FromSource)
    (entries : List Entry) (hes : ∀ e ∈ entries, e.Every Value.LiteralFromSource) :
    (Expr.evalPairs call scope entries ps).Sourced
      fun es => ∀ e ∈ es, Entry.Every Value.LiteralFromSource e := by
  match ps with
  | [] => exact .pure hes
  | (k, v) :: ps =>
    rw [List.forall_mem_cons] at hps
    refine (Expr.eval_sourced hcall k hps.1.1).bind fun key hkey => ?_
    cases key.hashKey? with
    | none => exact .fail trivial
    | some slot =>
      exact (Expr.eval_sourced hcall v hps.1.2).bind fun value hvalue =>
        Expr.evalPairs_sourced hcall ps hps.2 _ (Entry.every_insert ⟨hkey, hvalue⟩ hes)
termination_by structural ps

theorem Stmt.eval_sourced (hcall : call.Sourced) (s : Stmt) (hs : (Part.stmt s).FromSource) :
    (s.eval call scope).Sourced Value.FromSource := by
  have below {y : Part} (hy : y ∈ (Part.stmt s).children) : y.FromSource := hs.child hy
  match s with
  | .bind _ name none => exact .define name.name trivial
  | .bind _ name (some e) =>
    exact (Expr.eval_sourced hcall e (below (by simp [Part.children]))).bind
      fun v hv => .define name.name hv
  | .ret _ none => exact .returning trivial
  | .ret _ (some e) =>
    exact (Expr.eval_sourced hcall e (below (by simp [Part.children]))).bind
      fun v hv => .returning hv
  | .expr _ e => exact Expr.eval_sourced hcall e (below (by simp [Part.children]))
  | .block b => exact Block.eval_sourced hcall b (below (by simp [Part.children]))
termination_by structural s

theorem Stmt.evalAll_sourced (hcall : call.Sourced) (ss : List Stmt)
    (hss : ∀ s ∈ ss, (Part.stmt s).FromSource) :
    (Stmt.evalAll call scope ss).Sourced Value.FromSource := by
  match ss with
  | [] => exact .pure trivial
  | [s] =>
    rw [List.forall_mem_singleton] at hss
    exact (Eval.Sourced.record _).bind fun _ _ => Stmt.eval_sourced hcall s hss
  | s :: t :: ss =>
    rw [List.forall_mem_cons] at hss
    exact (Eval.Sourced.record _).bind fun _ _ => (Stmt.eval_sourced hcall s hss.1).bind
      fun _ _ => Stmt.evalAll_sourced hcall (t :: ss) hss.2
termination_by structural ss

theorem Block.eval_sourced (hcall : call.Sourced) (b : Block) (hb : (Part.block b).FromSource) :
    (b.eval call scope).Sourced Value.FromSource := by
  match b with
  | .mk _ ss =>
    exact Stmt.evalAll_sourced hcall ss fun s hs => hb.child (List.mem_map_of_mem hs)
termination_by structural b

end

theorem Closure.call_sourced (depth : Nat) : (Closure.call depth).Sourced := by
  induction depth with
  | zero => exact fun f args _ _ st hst => ⟨trivial, hst⟩
  | succ depth ih =>
    intro f args hf hargs st hst
    rw [Closure.call_succ]
    split
    · exact ⟨trivial, hst⟩
    · have hbody : (Part.block f.literal.body).FromSource :=
        hf.child (List.mem_singleton_self _)
      refine (Block.eval_sourced ih f.literal.body hbody).catchReturn _ ?_
      exact (hst.push _).setAll _ fun b hb => hargs b.2 (List.of_mem_zip hb).2

theorem Site.ofProgram_sourced (depth : Nat) (scope : ScopeId) (source : String) {st : State}
    (hst : st.heap.FromSource) :
    EndsKnown Value.FromSource (Site.ofProgram depth scope (parse source).1 st).outcome.1 ∧
      (Site.ofProgram depth scope (parse source).1 st).outcome.2.heap.FromSource :=
  Stmt.evalAll_sourced (Closure.call_sourced depth) _ (fun s hs => ⟨source, s, hs, .refl⟩) _ hst

end Evaluation

theorem Program.run_heap (depth : Nat) (scope : ScopeId) (p : Program) (st : State) :
    (p.run depth scope st).2.heap = (Site.ofProgram depth scope p st).outcome.2.heap := by
  have houtcome : (Site.ofProgram depth scope p st).outcome =
      Stmt.evalAll (Closure.call depth) scope p.statements
        (st.record (.evaluating p.statements.length)) := rfl
  rw [houtcome]
  unfold Program.run
  split
  · rename_i v st' hrun
    rw [hrun]
    rfl
  · rename_i s st' hrun
    rw [hrun]
    split <;> rfl

/-- Whatever is read has only nodes that make sense, with or without faults. Where all functions
come from sources, running it leaves only functions that do, and nothing that is evaluated on the
way, in calls of functions stored anywhere, fails for an operator that integers do not have, or for
a unary operator other than a minus. -/
theorem parsed_trees_make_sense (source : String) :
    (∀ x, (parse source).1.Contains x → x.WellFormed) ∧
      ∀ (depth : Nat) (scope : ScopeId) (st : State), st.heap.FromSource →
        ((parse source).1.run depth scope st).2.heap.FromSource ∧
        ∀ y, (Site.ofProgram depth scope (parse source).1 st).Reaches y →
          (∀ op, y.outcome.1 ≠ .error (.failed (.unknownBinary .integer op .integer))) ∧
          ∀ op k, y.outcome.1 = .error (.failed (.unknownUnary op k)) → op = "-" := by
  refine ⟨fun x hx => hx.wellFormed, fun depth scope st hst => ?_⟩
  obtain ⟨hend, hheap⟩ := Site.ofProgram_sourced depth scope source hst
  refine ⟨Program.run_heap depth scope _ st ▸ hheap, fun y hy => ?_⟩
  have hknown {e : RuntimeError} (he : y.outcome.1 = .error (.failed e)) : e.OfKnownOperator := by
    rw [hy.outcome (Prod.ext he rfl)] at hend
    exact hend
  exact ⟨fun op he => hknown he ⟨rfl, rfl⟩, fun op k he => hknown he⟩

/-- A function that was stored by one program, and called by another one that has a fault. -/
theorem parsed_trees_make_sense_instance :
    let first := "let f = fn(x) \x7b -x \x7d;"
    let second := "1 + ; f(true)"
    let st := (State.ofSink .unlimited .silent).newGlobal.2
    let mid := ((parse first).1.run 1 0 st).2
    st.heap.FromSource ∧ mid.heap.FromSource ∧ mid.heap.has .own "f" 0 = true ∧
      ((parse second).1.run 1 0 mid).1.map Value.inspect =
        some "ERROR: unknown operator: -Boolean" ∧
      ∀ y, (Site.ofProgram 1 0 (parse second).1 mid).Reaches y →
        (∀ op, y.outcome.1 ≠ .error (.failed (.unknownBinary .integer op .integer))) ∧
        ∀ op k, y.outcome.1 = .error (.failed (.unknownUnary op k)) → op = "-" := by
  intro first second st mid
  have hst : st.heap.FromSource := (show Heap.FromSource .empty from nofun).push none
  have hmid : mid.heap.FromSource := ((parsed_trees_make_sense first).2 1 0 st hst).1
  refine ⟨hst, hmid, by decide +kernel, by decide +kernel, ?_⟩
  exact ((parsed_trees_make_sense second).2 1 0 mid hmid).2

end Monkey
