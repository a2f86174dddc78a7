import Monkey.Proofs.Eval.Frame

/-!
Evaluation that can be relied on. An evaluation may yield one and the same value in a state and in
all later ones, as long as nothing happens to the scopes of that state, and leave nothing behind but
new scopes. What else is evaluated in between then does not matter, so this is proved part by part
along a tree, and call by call along a recursion.
-/

namespace Monkey

/-- The scopes of `st` are what they were, and nothing has been written since. -/
structure Later (st st' : State) : Prop where
  untouched : Untouched st st'
  sink_eq : st'.sink = st.sink

namespace Later

theorem refl (st : State) : Later st st := ⟨.refl st, rfl⟩

theorem trans {st mid st' : State} (h : Later st mid) (h' : Later mid st') : Later st st' :=
  ⟨h.untouched.trans h'.untouched, h'.sink_eq.trans h.sink_eq⟩

theorem record (st : State) (e : Event) : Later st (st.record e) := ⟨.of_heap_eq rfl, rfl⟩

end Later

theorem Untouched.find?_eq {st st' : State} (h : Untouched st st') {id : ScopeId}
    (hid : id < st.heap.size) (reach : Reach) (name : String) :
    st'.heap.find? reach name id = st.heap.find? reach name id :=
  Heap.find?_congr (fun i hi => h.scope_eq i (Nat.lt_of_le_of_lt hi hid)) reach name

/-- Seen from `scope`, the name stands for `v`: that is its value, or the builtin of this name, and
then it has no other. -/
structure State.Sees (st : State) (scope : ScopeId) (name : String) (v : Value) : Prop where
  lt_size : scope < st.heap.size
  value : (st.heap.find? .outwards name scope).or ((Builtin.ofName? name).map .builtin) = some v

namespace State.Sees

variable {st : State} {scope : ScopeId} {name : String} {v : Value}

theorem later (h : st.Sees scope name v) {st' : State} (hst : Later st st') :
    st'.Sees scope name v where
  lt_size := Nat.lt_of_lt_of_le h.lt_size hst.untouched.size_le
  value := by rw [hst.untouched.find?_eq h.lt_size, h.value]

theorem set_self (hscope : scope < st.heap.size) (name : String) (v : Value) :
    State.Sees { st with heap := st.heap.set scope name v } scope name v where
  lt_size := by rwa [Heap.size_set]
  value := by rw [Heap.find?_set_self hscope, if_pos rfl, Option.some_or]

theorem set_of_ne (h : st.Sees scope name v) {n : String} (hn : name ≠ n) (w : Value) :
    State.Sees { st with heap := st.heap.set scope n w } scope name v where
  lt_size := by rw [Heap.size_set]; exact h.lt_size
  value := by rw [Heap.find?_set_self h.lt_size, if_neg hn, h.value]

end State.Sees

namespace Closure

variable {f : Closure} {args : List Value} {st : State}

/-- In its new scope a function sees its arguments, and what it has captured. -/
theorem find?_entered (hf : f.scope < st.heap.size) (args : List Value) (name : String) :
    (f.entered args st).heap.find? .outwards name st.heap.size =
      (((f.literal.params.map Ident.name).zip args).reverse.lookup name).or
        (st.heap.find? .outwards name f.scope) := by
  have hnew : st.heap.size < (st.heap.push (some f.scope)).size := by simp
  unfold Closure.entered
  rw [Heap.find?_setAll_self hnew, Heap.find?_push_self hf]

theorem size_entered (f : Closure) (args : List Value) (st : State) :
    (f.entered args st).heap.size = st.heap.size + 1 := by simp [Closure.entered]

theorem entered_sees_arg (hf : f.scope < st.heap.size) {name : String} {v : Value}
    (h : ((f.literal.params.map Ident.name).zip args).reverse.lookup name = some v) :
    (f.entered args st).Sees st.heap.size name v where
  lt_size := by rw [size_entered]; exact Nat.lt_succ_self _
  value := by rw [find?_entered hf, h, Option.some_or, Option.some_or]

theorem entered_sees_captured {name : String} {v : Value} (hv : st.Sees f.scope name v)
    (h : ((f.literal.params.map Ident.name).zip args).reverse.lookup name = none) :
    (f.entered args st).Sees st.heap.size name v where
  lt_size := by rw [size_entered]; exact Nat.lt_succ_self _
  value := by rw [find?_entered hv.lt_size, h, Option.none_or, hv.value]

theorem entered_later (f : Closure) (args : List Value) (st : State) :
    Later st (f.entered args st) := ⟨f.entered_untouched args st, rfl⟩

end Closure

/-- From `st` on the evaluation yields `a`, and all it does to the state is to add scopes. -/
def Eval.Yields {α : Type} (st : State) (x : Eval α) (a : α) : Prop :=
  ∀ mid, Later st mid → ∃ st', x mid = (.ok a, st') ∧ Later mid st'

namespace Eval.Yields

open Monkey.Action

variable {α β : Type} {st : State} {call : CallRule} {scope : ScopeId}

theorem later {x : Eval α} {a : α} (h : Yields st x a) {st' : State} (hst : Later st st') :
    Yields st' x a := fun mid hmid => h mid (hst.trans hmid)

theorem exists_end {x : Eval α} {a : α} (h : Yields st x a) :
    ∃ st', x st = (.ok a, st') ∧ Later st st' := h st (.refl st)

theorem pure (a : α) : Yields st (pure a) a := fun mid _ => ⟨mid, rfl, .refl mid⟩

theorem bind {x : Eval α} {f : α → Eval β} {a : α} {b : β} (hx : Yields st x a)
    (hf : Yields st (f a) b) : Yields st (x >>= f) b := by
  intro start hstart
  obtain ⟨mid, hmid, hlater⟩ := hx start hstart
  obtain ⟨st', hst', hlater'⟩ := hf mid (hstart.trans hlater)
  exact ⟨st', (bind_of_ok hmid f).trans hst', hlater.trans hlater'⟩

theorem record (e : Event) : Yields st (Action.record e) () := fun mid _ =>
  ⟨mid.record e, rfl, .record mid e⟩

theorem ident {i : Ident} {v : Value} (h : st.Sees scope i.name v) :
    Yields st ((Expr.ident i).eval call scope) v := by
  intro mid hmid
  have hvalue := (h.later hmid).value
  have heval : (Expr.ident i).eval call scope mid = (.ok v, mid) := by
    simp only [Expr.eval, Eval.lookUp]
    cases hfind : mid.heap.find? .outwards i.name scope with
    | some w =>
      rw [hfind] at hvalue
      obtain rfl := Option.some.inj hvalue
      rfl
    | none =>
      rw [hfind, Option.none_or] at hvalue
      obtain ⟨b, hb, rfl⟩ := Option.map_eq_some_iff.mp hvalue
      rw [hb]
  exact ⟨mid, heval, .refl mid⟩

theorem evalAll_nil : Yields st (Expr.evalAll call scope []) [] := .pure []

theorem evalAll_cons {e : Expr} {es : List Expr} {v : Value} {vs : List Value}
    (he : Yields st (e.eval call scope) v) (hes : Yields st (Expr.evalAll call scope es) vs) :
    Yields st (Expr.evalAll call scope (e :: es)) (v :: vs) := he.bind (hes.bind (.pure _))

theorem application {f : Expr} {t : Token} {args : List Expr} {v w : Value} {vs : List Value}
    (hf : Yields st (f.eval call scope) v) (hargs : Yields st (Expr.evalAll call scope args) vs)
    (hw : Yields st (v.apply call vs) w) : Yields st ((Expr.call f t args).eval call scope) w :=
  hf.bind (hargs.bind hw)

theorem builtin {b : Builtin} {args : List Value} {w : Value} (h : b.apply args = Pure.pure w) :
    Yields st ((Value.builtin b).apply call args) w := by
  refine (record _).bind ?_
  rw [h]
  exact .pure w

theorem binary {l r : Expr} {op : BinaryOp} {t : Token} {v w u : Value}
    (hl : Yields st (l.eval call scope) v) (hr : Yields st (r.eval call scope) w)
    (hu : v.binary t.text w = .ok u) : Yields st ((Expr.binary l op t r).eval call scope) u := by
  refine hl.bind (hr.bind ?_)
  rw [hu]
  exact .pure u

theorem cond_of_truthy {c : Expr} {t : Token} {b a : Block} {v w : Value}
    (hc : Yields st (c.eval call scope) v) (hv : v.truthy = true)
    (hb : Yields st (b.eval call scope) w) :
    Yields st ((Expr.cond t c b (some a)).eval call scope) w := by
  refine hc.bind ?_
  rwa [if_pos hv]

theorem cond_of_not_truthy {c : Expr} {t : Token} {b a : Block} {v w : Value}
    (hc : Yields st (c.eval call scope) v) (hv : v.truthy = false)
    (ha : Yields st (a.eval call scope) w) :
    Yields st ((Expr.cond t c b (some a)).eval call scope) w := by
  refine hc.bind ?_
  rwa [hv, if_neg Bool.false_ne_true]

theorem single {s : Stmt} {v : Value} (h : Yields st (s.eval call scope) v) :
    Yields st (Stmt.evalAll call scope [s]) v := (record _).bind h

end Eval.Yields

/-- A call can be relied on for the value of its body, if the body writes nothing: it runs in a scope
of its own, so whatever it binds there is new. -/
theorem Closure.call_yields {f : Closure} {args : List Value} {st : State} {v : Value} {depth : Nat}
    (hargs : f.literal.params.length = args.length)
    (hbody : ∀ mid, Later st mid → ∃ st', st'.sink = mid.sink ∧
      f.literal.body.eval (Closure.call depth) mid.heap.size (f.entered args mid) = (.ok v, st')) :
    Eval.Yields st (Closure.call (depth + 1) f args) v := by
  intro mid hmid
  obtain ⟨st', hsink, hst'⟩ := hbody mid hmid
  have hcall : Closure.call (depth + 1) f args mid = (.ok v, st') := by
    rw [Closure.call_succ, if_neg fun hne => hne hargs]
    unfold Eval.catchReturn
    rw [hst']
  have huntouched := Closure.call_untouched (depth + 1) f args mid
  rw [hcall] at huntouched
  exact ⟨st', hcall, huntouched, hsink⟩

def State.bindFunction (st : State) (scope : ScopeId) (t : Token) (name : Ident) (f : Lambda) :
    State :=
  { st.record (.statement (.bind t name (some (.function f)))) with
    heap := st.heap.set scope name.name (.function ⟨st.functions, f, scope⟩)
    functions := st.functions + 1 }

namespace State

variable {st : State} {scope : ScopeId} {t : Token} {name : Ident} {f : Lambda}

theorem bindFunction_framed (st : State) (scope : ScopeId) (t : Token) (name : Ident) (f : Lambda) :
    Framed scope (fun _ => True) st (st.bindFunction scope t name f) := by
  let value : Value := .function ⟨st.functions, f, scope⟩
  have h : Framed scope (fun _ => True) st { st with heap := st.heap.set scope name.name value } :=
    .set st name.name value trivial
  exact ⟨h.size_le, h.other_eq, h.own⟩

theorem find?_bindFunction (hscope : scope < st.heap.size) {n : String} (hn : n ≠ name.name)
    (reach : Reach) : (st.bindFunction scope t name f).heap.find? reach n scope =
      st.heap.find? reach n scope := by
  have hset := Heap.find?_set_self hscope reach name.name (.function ⟨st.functions, f, scope⟩) n
  rwa [if_neg hn] at hset

theorem bindFunction_sees_self (hscope : scope < st.heap.size) :
    (st.bindFunction scope t name f).Sees scope name.name (.function ⟨st.functions, f, scope⟩) := by
  have h := Sees.set_self hscope name.name (.function ⟨st.functions, f, scope⟩)
  exact ⟨h.lt_size, h.value⟩

theorem Sees.bindFunction {n : String} {v : Value} (h : st.Sees scope n v) (hn : n ≠ name.name) :
    (st.bindFunction scope t name f).Sees scope n v := by
  have hset := h.set_of_ne hn (.function ⟨st.functions, f, scope⟩)
  exact ⟨hset.lt_size, hset.value⟩

end State

theorem Stmt.evalAll_bindFunction (call : CallRule) (scope : ScopeId) (t : Token) (name : Ident)
    (f : Lambda) (s : Stmt) (ss : List Stmt) (st : State) :
    Stmt.evalAll call scope (.bind t name (some (.function f)) :: s :: ss) st =
      Stmt.evalAll call scope (s :: ss) (st.bindFunction scope t name f) := rfl

end Monkey
