import Mathlib.Data.List.Basic
import Monkey.Proofs.Eval.Effects
import Monkey.Proofs.Renaming
import Monkey.Proofs.Stream
import Monkey.Proofs.Syntax.Retoken

/-!
Evaluation in two states at once. It depends neither on the numbers of scopes and functions nor on
where tokens stand, nor on what has been written before: if one state shows the scopes of another
under new numbers and with moved tokens, an evaluation goes the same way in both and ends in states
of which this holds again, having written the same. The second state may hold scopes that show
nothing: no value refers to them.
-/

namespace Monkey

structure Translation extends Renaming where
  token : Token → Token

namespace Translation

structure Faithful (τ : Translation) : Prop where
  moves : Moves τ.token
  scope_lt_iff : ∀ {i j}, τ.scope i < τ.scope j ↔ i < j
  function_injective : Function.Injective τ.function

theorem Faithful.scope_eq_iff {τ : Translation} (hτ : τ.Faithful) {i j : ScopeId} :
    τ.scope i = τ.scope j ↔ i = j := by
  constructor
  · intro h
    rcases Nat.lt_trichotomy i j with hlt | heq | hlt
    · exact absurd h (Nat.ne_of_lt (hτ.scope_lt_iff.mpr hlt))
    · exact heq
    · exact absurd h (Nat.ne_of_gt (hτ.scope_lt_iff.mpr hlt))
  · rintro rfl
    rfl

end Translation

def Closure.translate (τ : Translation) (f : Closure) : Closure :=
  ⟨τ.function f.id, f.literal.retoken τ.token, τ.scope f.scope⟩

abbrev Value.translate (τ : Translation) : Value → Value := Value.map (Closure.translate τ)

abbrev Entry.translate (τ : Translation) : Entry → Entry := Entry.map (Closure.translate τ)

abbrev Scope.translate (τ : Translation) : Scope → Scope := Scope.map (Closure.translate τ) τ.scope

theorem Value.inspect_translate {τ : Translation} (hτ : Moves τ.token) (v : Value) :
    (v.translate τ).inspect = v.inspect :=
  v.inspect_map fun f => f.literal.print_retoken hτ

theorem Translation.Faithful.keepsApart {τ : Translation} (hτ : τ.Faithful) :
    KeepsApart (Closure.translate τ) := fun _ _ => hτ.function_injective.eq_iff

def Signal.map (g : Closure → Closure) : Signal → Signal
  | .returned v => .returned (v.map g)
  | .failed e => .failed e
  | .tooDeep => .tooDeep

def mapOutcome {α : Type} (g : Closure → Closure) (f : α → α) : Except Signal α → Except Signal α
  | .ok a => .ok (f a)
  | .error s => .error (s.map g)

/-- The scopes of `st` are found in `st'` under their new numbers, and so will be the next ones to
be made. What has been written since the sinks were `s` and `s'` is the same, and so will be what
is written next. -/
structure Tracks (τ : Translation) (s s' : Sink) (st st' : State) : Prop where
  room : s.room = s'.room
  scope_next : ∀ i, τ.scope (st.heap.size + i) = st'.heap.size + i
  function_next : ∀ i, τ.function (st.functions + i) = st'.functions + i
  scopes : ∀ i : ScopeId, st'.heap.scopes[τ.scope i]? = st.heap.scopes[i]?.map (Scope.translate τ)
  output : ∃ w, st.sink = s.append w ∧ st'.sink = s'.append w

/-- `y` does from a state that tracks another what `x` does from that one, up to translation. -/
def Parallels {α : Type} (τ : Translation) (s s' : Sink) (f : α → α) (x y : Eval α) : Prop :=
  ∀ st st', Tracks τ s s' st st' →
    (y st').1 = mapOutcome (Closure.translate τ) f (x st).1 ∧ Tracks τ s s' (x st).2 (y st').2

namespace Tracks

variable {τ : Translation} {s s' : Sink} {st st' : State}

theorem record (h : Tracks τ s s' st st') (e e' : Event) :
    Tracks τ s s' (st.record e) (st'.record e') :=
  ⟨h.room, h.scope_next, h.function_next, h.scopes, h.output⟩

theorem find? (h : Tracks τ s s' st st') (hτ : τ.Faithful) (reach : Reach) (name : String)
    (id : ScopeId) : st'.heap.find? reach name (τ.scope id) =
      (st.heap.find? reach name id).map (Value.translate τ) := by
  induction id using Nat.strongRecOn with
  | ind id ih =>
    unfold Heap.find?
    rw [h.scopes id]
    cases st.heap.scopes[id]? with
    | none => rfl
    | some s =>
      simp only [Option.map_some, Scope.find?_map]
      cases s.find? name with
      | some v => rfl
      | none =>
        cases reach with
        | own => rfl
        | outwards =>
          simp only [Option.map_none, Scope.map]
          cases s.outer with
          | none => rfl
          | some outer =>
            simp only [Option.map_some]
            by_cases hlt : outer < id
            · rw [dif_pos hlt, dif_pos (hτ.scope_lt_iff.mpr hlt), ih outer hlt]
            · rw [dif_neg hlt, dif_neg (mt hτ.scope_lt_iff.mp hlt)]
              rfl

theorem set (h : Tracks τ s s' st st') (hτ : τ.Faithful) (id : ScopeId) (name : String)
    (value : Value) : Tracks τ s s' { st with heap := st.heap.set id name value }
      { st' with heap := st'.heap.set (τ.scope id) name (value.translate τ) } where
  room := h.room
  scope_next := by simpa using h.scope_next
  function_next := h.function_next
  scopes i := by
    simp only [Heap.getElem?_set, hτ.scope_eq_iff, h.scopes i]
    split
    · cases st.heap.scopes[i]? with
      | none => rfl
      | some s => exact congrArg some (Scope.set_map name value s).symm
    · rfl
  output := h.output

theorem setAll (h : Tracks τ s s' st st') (hτ : τ.Faithful) (id : ScopeId)
    (bindings : List (String × Value)) :
    Tracks τ s s' { st with heap := st.heap.setAll id bindings }
      { st' with
        heap := st'.heap.setAll (τ.scope id) (bindings.map fun b => (b.1, b.2.translate τ)) } := by
  induction bindings generalizing st st' with
  | nil => exact h
  | cons b bindings ih =>
    obtain ⟨name, value⟩ := b
    exact ih (h.set hτ id name value)

theorem push (h : Tracks τ s s' st st') (hτ : τ.Faithful) (outer : Option ScopeId) :
    Tracks τ s s' { st with heap := st.heap.push outer }
      { st' with heap := st'.heap.push (outer.map τ.scope) } where
  room := h.room
  scope_next i := by
    have hi := h.scope_next (1 + i)
    simpa [Nat.add_assoc] using hi
  function_next := h.function_next
  scopes i := by
    have hnext := h.scope_next 0
    simp only [Nat.add_zero] at hnext
    simp only [Heap.getElem?_push, ← hnext, hτ.scope_eq_iff, h.scopes i]
    split
    · rfl
    · rfl
  output := h.output

theorem number (h : Tracks τ s s' st st') :
    Tracks τ s s' { st with functions := st.functions + 1 }
      { st' with functions := st'.functions + 1 } where
  room := h.room
  scope_next := h.scope_next
  function_next i := by
    have hi := h.function_next (1 + i)
    simpa [Nat.add_assoc] using hi
  scopes := h.scopes
  output := h.output

theorem entered (h : Tracks τ s s' st st') (hτ : τ.Faithful) (f : Closure) (args : List Value) :
    Tracks τ s s' (f.entered args st)
      ((f.translate τ).entered (args.map (Value.translate τ)) st') := by
  have hpush := h.push hτ (some f.scope)
  have hset := hpush.setAll hτ st.heap.size ((f.literal.params.map Ident.name).zip args)
  have hnext : τ.scope st.heap.size = st'.heap.size := h.scope_next 0
  have hnames : (f.translate τ).literal.params.map Ident.name =
      f.literal.params.map Ident.name := by
    simp only [Closure.translate, Lambda.params_retoken, Ident.names_retoken hτ.moves]
  have hzip : ((f.literal.params.map Ident.name).zip args).map
        (fun b => (b.1, b.2.translate τ)) =
      (f.literal.params.map Ident.name).zip (args.map (Value.translate τ)) := by
    rw [List.zip_map_right]
    rfl
  rw [hnext, hzip] at hset
  unfold Closure.entered
  rw [hnames]
  exact hset.record _ _

end Tracks

namespace Builtin

theorem onArray_of_length {args : List Value} (h : args.length ≠ 1) (b : Builtin)
    (f : List Value → Value) :
    b.onArray args f = Eval.fail (.wrongArgumentCount args.length 1) := by
  unfold Builtin.onArray
  split
  · exact absurd rfl h
  · exact absurd rfl h
  · rfl

theorem len_of_length {args : List Value} (h : args.length ≠ 1) :
    Builtin.len.apply args = Eval.fail (.wrongArgumentCount args.length 1) := by
  simp only [Builtin.apply]
  split
  · exact absurd rfl h
  · exact absurd rfl h
  · exact absurd rfl h
  · rfl

theorem push_of_length {args : List Value} (h : args.length ≠ 2) :
    Builtin.push.apply args = Eval.fail (.wrongArgumentCount args.length 2) := by
  simp only [Builtin.apply]
  split
  · exact absurd rfl h
  · exact absurd rfl h
  · rfl

end Builtin

namespace Parallels

open Monkey.Action

variable {τ : Translation} {s s' : Sink} {α β : Type} {f : α → α} {g : β → β}

theorem bind {x y : Eval α} {k l : α → Eval β} (hx : Parallels τ s s' f x y)
    (hk : ∀ a, Parallels τ s s' g (k a) (l (f a))) :
    Parallels τ s s' g (x >>= k) (y >>= l) := by
  intro st st' hst
  obtain ⟨hout, hmid⟩ := hx st st' hst
  rcases hxst : x st with ⟨sig | a, mid⟩
  · rw [hxst] at hout hmid
    have hyst : y st' = (.error (sig.map (Closure.translate τ)), (y st').2) := Prod.ext hout rfl
    rw [bind_of_error hxst, bind_of_error hyst]
    exact ⟨rfl, hmid⟩
  · rw [hxst] at hout hmid
    have hyst : y st' = (.ok (f a), (y st').2) := Prod.ext hout rfl
    rw [bind_of_ok hxst, bind_of_ok hyst]
    exact hk a mid _ hmid

theorem pure {a b : α} (h : f a = b) :
    Parallels τ s s' f (pure a : Eval α) (pure b : Eval α) := fun _ _ hst =>
  ⟨congrArg Except.ok h.symm, hst⟩

theorem fail (e : RuntimeError) : Parallels τ s s' f (Eval.fail e : Eval α) (Eval.fail e) :=
  fun _ _ hst => ⟨rfl, hst⟩

theorem returning (v : Value) : Parallels τ s s' f (Action.stop (.returned v) : Eval α)
    (Action.stop (.returned (v.translate τ))) := fun _ _ hst => ⟨rfl, hst⟩

theorem ofExcept {r r' : Except RuntimeError α} (h : r' = r.map f) :
    Parallels τ s s' f (Eval.ofExcept r) (Eval.ofExcept r') := by
  subst h
  cases r with
  | ok a => exact .pure rfl
  | error e => exact .fail e

theorem record (e e' : Event) :
    Parallels τ s s' id (Action.record e : Eval Unit) (Action.record e') := fun _ _ hst =>
  ⟨rfl, hst.record e e'⟩

theorem writeLine (text : String) :
    Parallels τ s s' id (Eval.writeLine text) (Eval.writeLine text) := by
  intro st st' hst
  obtain ⟨w, hw, hw'⟩ := hst.output
  obtain ⟨fits, v, hv, hv'⟩ := Sink.write_append hst.room w (text ++ "\n")
  rw [← hw] at hv
  rw [← hw'] at hv'
  simp only [Eval.writeLine, Action.write, hv, hv']
  cases fits with
  | true => exact ⟨rfl, hst.room, hst.scope_next, hst.function_next, hst.scopes, v, rfl, rfl⟩
  | false => exact ⟨rfl, hst.room, hst.scope_next, hst.function_next, hst.scopes, v, rfl, rfl⟩

theorem define (hτ : τ.Faithful) (scope : ScopeId) (name : String) (value : Value) :
    Parallels τ s s' (Value.translate τ) (Eval.define scope name value)
      (Eval.define (τ.scope scope) name (value.translate τ)) := fun _ _ hst =>
  ⟨rfl, hst.set hτ scope name value⟩

theorem lookUp (hτ : τ.Faithful) (scope : ScopeId) (name : String) :
    Parallels τ s s' (Value.translate τ) (Eval.lookUp scope name)
      (Eval.lookUp (τ.scope scope) name) := by
  intro st st' hst
  unfold Eval.lookUp
  rw [hst.find? hτ .outwards name scope]
  cases st.heap.find? .outwards name scope with
  | some v => exact ⟨rfl, hst⟩
  | none =>
    dsimp only [Option.map_none]
    cases Builtin.ofName? name with
    | some b => exact ⟨rfl, hst⟩
    | none => exact ⟨rfl, hst⟩

theorem close (scope : ScopeId) (literal : Lambda) :
    Parallels τ s s' (Value.translate τ) (Eval.close scope literal)
      (Eval.close (τ.scope scope) (literal.retoken τ.token)) := by
  intro st st' hst
  have hnext : τ.function st.functions = st'.functions := hst.function_next 0
  refine ⟨?_, hst.number⟩
  simp only [Eval.close, mapOutcome, Value.map, Closure.translate, hnext]

theorem catchReturn {x y : Eval Value} (h : Parallels τ s s' (Value.translate τ) x y) :
    Parallels τ s s' (Value.translate τ) (Eval.catchReturn x) (Eval.catchReturn y) := by
  intro st st' hst
  obtain ⟨hout, hmid⟩ := h st st' hst
  rcases hx : x st with ⟨sig | v, mid⟩
  · rcases hy : y st' with ⟨o, mid'⟩
    rw [hx, hy] at hout hmid
    obtain rfl : o = .error (sig.map (Closure.translate τ)) := hout
    unfold Eval.catchReturn
    rw [hx, hy]
    cases sig with
    | returned v => exact ⟨rfl, hmid⟩
    | failed e => exact ⟨rfl, hmid⟩
    | tooDeep => exact ⟨rfl, hmid⟩
  · rcases hy : y st' with ⟨o, mid'⟩
    rw [hx, hy] at hout hmid
    obtain rfl : o = .ok (v.translate τ) := hout
    unfold Eval.catchReturn
    rw [hx, hy]
    exact ⟨rfl, hmid⟩

theorem onArray (b : Builtin) (args : List Value) {k : List Value → Value}
    (hk : ∀ vs : List Value, k (vs.map (Value.translate τ)) = (k vs).translate τ) :
    Parallels τ s s' (Value.translate τ) (b.onArray args k)
      (b.onArray (args.map (Value.translate τ)) k) := by
  by_cases hlen : args.length = 1
  · obtain ⟨v, rfl⟩ := List.length_eq_one_iff.mp hlen
    cases v with
    | array vs =>
      refine .pure ?_
      rw [Value.mapAll_eq_map, hk]
    | _ => exact .fail _
  · have hmap : (args.map (Value.translate τ)).length ≠ 1 := by rwa [List.length_map]
    rw [Builtin.onArray_of_length hlen, Builtin.onArray_of_length hmap, List.length_map]
    exact .fail _

theorem putLines (hτ : Moves τ.token) (vs : List Value) :
    Parallels τ s s' (Value.translate τ) (Builtin.putLines vs)
      (Builtin.putLines (vs.map (Value.translate τ))) := by
  induction vs with
  | nil => exact .pure rfl
  | cons v vs ih =>
    rw [List.map_cons, Builtin.putLines, Builtin.putLines, Value.inspect_translate hτ]
    exact (writeLine v.inspect).bind fun _ => ih

theorem builtin (hτ : Moves τ.token) (b : Builtin) (args : List Value) :
    Parallels τ s s' (Value.translate τ) (b.apply args)
      (b.apply (args.map (Value.translate τ))) := by
  cases b with
  | len =>
    by_cases hlen : args.length = 1
    · obtain ⟨v, rfl⟩ := List.length_eq_one_iff.mp hlen
      cases v with
      | array vs =>
        refine .pure ?_
        rw [Value.mapAll_eq_map, List.length_map]
        rfl
      | string text => exact .pure rfl
      | _ => exact .fail _
    · have hmap : (args.map (Value.translate τ)).length ≠ 1 := by rwa [List.length_map]
      rw [Builtin.len_of_length hlen, Builtin.len_of_length hmap, List.length_map]
      exact .fail _
  | first =>
    refine onArray .first args fun vs => ?_
    rw [List.head?_map]
    cases vs.head? <;> rfl
  | last =>
    refine onArray .last args fun vs => ?_
    rw [List.getLast?_map]
    cases vs.getLast? <;> rfl
  | rest =>
    refine onArray .rest args fun vs => ?_
    cases vs with
    | nil => rfl
    | cons v vs => exact congrArg Value.array (Value.mapAll_eq_map vs).symm
  | push =>
    by_cases hlen : args.length = 2
    · obtain ⟨v, w, rfl⟩ := List.length_eq_two.mp hlen
      cases v with
      | array vs =>
        refine .pure ?_
        simp only [Value.map, Value.mapAll_eq_map, List.map_append, List.map_cons, List.map_nil]
      | _ => exact .fail _
    · have hmap : (args.map (Value.translate τ)).length ≠ 2 := by rwa [List.length_map]
      rw [Builtin.push_of_length hlen, Builtin.push_of_length hmap, List.length_map]
      exact .fail _
  | puts => exact putLines hτ args

end Parallels

def CallRule.Parallels (τ : Translation) (s s' : Sink) (call : CallRule) : Prop :=
  ∀ f args, Monkey.Parallels τ s s' (Value.translate τ) (call f args)
    (call (f.translate τ) (args.map (Value.translate τ)))

section Evaluation

variable {τ : Translation} {s s' : Sink} {call : CallRule} {scope : ScopeId}

theorem Value.apply_parallels (hτ : Moves τ.token) (hcall : call.Parallels τ s s') (callee : Value)
    (args : List Value) : Parallels τ s s' (Value.translate τ) (callee.apply call args)
      ((callee.translate τ).apply call (args.map (Value.translate τ))) := by
  cases callee with
  | function f => exact hcall f args
  | builtin b =>
    simp only [Value.map, Value.apply, List.length_map]
    exact (Parallels.record _ _).bind fun _ => .builtin hτ b args
  | _ => exact .fail _

mutual

theorem Expr.eval_parallels (hτ : τ.Faithful) (hcall : call.Parallels τ s s') (e : Expr) :
    Parallels τ s s' (Value.translate τ) (e.eval call scope)
      ((e.retoken τ.token).eval call (τ.scope scope)) := by
  match e with
  | .ident i =>
    have hname : (i.retoken τ.token).name = i.name := i.name_retoken hτ.moves
    simp only [Expr.retoken, Expr.eval, hname]
    exact .lookUp hτ scope i.name
  | .integer _ n => exact .pure rfl
  | .boolean _ b => exact .pure rfl
  | .string _ s => exact .pure rfl
  | .array _ es =>
    refine (Expr.evalAll_parallels hτ hcall es).bind fun vs => .pure ?_
    exact congrArg Value.array (Value.mapAll_eq_map vs)
  | .hash _ ps =>
    refine (Expr.evalPairs_parallels hτ hcall ps []).bind fun es => .pure ?_
    exact congrArg Value.hash (Entry.mapAll_eq_map es)
  | .unary _ t e =>
    simp only [Expr.retoken, Expr.eval, hτ.moves.text]
    exact (Expr.eval_parallels hτ hcall e).bind fun v => .ofExcept (Value.unary_map t.text v)
  | .binary l _ t r =>
    simp only [Expr.retoken, Expr.eval, hτ.moves.text]
    exact (Expr.eval_parallels hτ hcall l).bind fun v => (Expr.eval_parallels hτ hcall r).bind
      fun w => .ofExcept (Value.binary_map hτ.keepsApart t.text v w)
  | .cond _ c b none =>
    refine (Expr.eval_parallels hτ hcall c).bind fun v => ?_
    rw [Value.truthy_map]
    by_cases hv : v.truthy
    · rw [if_pos hv, if_pos hv]
      exact Block.eval_parallels hτ hcall b
    · rw [if_neg hv, if_neg hv]
      exact .pure rfl
  | .cond _ c b (some a) =>
    refine (Expr.eval_parallels hτ hcall c).bind fun v => ?_
    rw [Value.truthy_map]
    by_cases hv : v.truthy
    · rw [if_pos hv, if_pos hv]
      exact Block.eval_parallels hτ hcall b
    · rw [if_neg hv, if_neg hv]
      exact Block.eval_parallels hτ hcall a
  | .function f => exact .close scope f
  | .call f _ as =>
    exact (Expr.eval_parallels hτ hcall f).bind fun v => (Expr.evalAll_parallels hτ hcall as).bind
      fun vs => Value.apply_parallels hτ.moves hcall v vs
  | .index t _ i =>
    exact (Expr.eval_parallels hτ hcall t).bind fun v => (Expr.eval_parallels hτ hcall i).bind
      fun w => .ofExcept (Value.index_map v w)
termination_by structural e

theorem Expr.evalAll_parallels (hτ : τ.Faithful) (hcall : call.Parallels τ s s')
    (es : List Expr) : Parallels τ s s' (List.map (Value.translate τ)) (Expr.evalAll call scope es)
      (Expr.evalAll call (τ.scope scope) (Expr.retokenAll τ.token es)) := by
  match es with
  | [] => exact .pure rfl
  | e :: es =>
    exact (Expr.eval_parallels hτ hcall e).bind fun v => (Expr.evalAll_parallels hτ hcall es).bind
      fun vs => .pure rfl
termination_by structural es

theorem Expr.evalPairs_parallels (hτ : τ.Faithful) (hcall : call.Parallels τ s s')
    (ps : List (Expr × Expr)) (entries : List Entry) :
    Parallels τ s s' (List.map (Entry.translate τ)) (Expr.evalPairs call scope entries ps)
      (Expr.evalPairs call (τ.scope scope) (entries.map (Entry.translate τ))
        (Expr.retokenPairs τ.token ps)) := by
  match ps with
  | [] => exact .pure rfl
  | (k, v) :: ps =>
    refine (Expr.eval_parallels hτ hcall k).bind fun key => ?_
    simp only [Value.hashKey?_map, Value.kind_map]
    cases key.hashKey? with
    | none => exact .fail _
    | some slot =>
      refine (Expr.eval_parallels hτ hcall v).bind fun value => ?_
      have hrest := Expr.evalPairs_parallels hτ hcall ps ((Entry.mk slot key value).insert entries)
      rw [← Entry.insert_map] at hrest
      exact hrest
termination_by structural ps

theorem Stmt.eval_parallels (hτ : τ.Faithful) (hcall : call.Parallels τ s s') (st : Stmt) :
    Parallels τ s s' (Value.translate τ) (st.eval call scope)
      ((st.retoken τ.token).eval call (τ.scope scope)) := by
  match st with
  | .bind _ name none =>
    have hname : (name.retoken τ.token).name = name.name := name.name_retoken hτ.moves
    simp only [Stmt.retoken, Stmt.eval, hname]
    exact .define hτ scope name.name .null
  | .bind _ name (some e) =>
    refine (Expr.eval_parallels hτ hcall e).bind fun v => ?_
    rw [name.name_retoken hτ.moves]
    exact .define hτ scope name.name v
  | .ret _ none => exact .returning .null
  | .ret _ (some e) => exact (Expr.eval_parallels hτ hcall e).bind fun v => .returning v
  | .expr _ e => exact Expr.eval_parallels hτ hcall e
  | .block b => exact Block.eval_parallels hτ hcall b
termination_by structural st

theorem Stmt.evalAll_parallels (hτ : τ.Faithful) (hcall : call.Parallels τ s s')
    (ss : List Stmt) : Parallels τ s s' (Value.translate τ) (Stmt.evalAll call scope ss)
      (Stmt.evalAll call (τ.scope scope) (Stmt.retokenAll τ.token ss)) := by
  match ss with
  | [] => exact .pure rfl
  | [t] => exact (Parallels.record _ _).bind fun _ => Stmt.eval_parallels hτ hcall t
  | t :: u :: ss =>
    exact (Parallels.record _ _).bind fun _ => (Stmt.eval_parallels hτ hcall t).bind fun _ =>
      Stmt.evalAll_parallels hτ hcall (u :: ss)
termination_by structural ss

theorem Block.eval_parallels (hτ : τ.Faithful) (hcall : call.Parallels τ s s') (b : Block) :
    Parallels τ s s' (Value.translate τ) (b.eval call scope)
      ((b.retoken τ.token).eval call (τ.scope scope)) := by
  match b with
  | .mk _ ss => exact Stmt.evalAll_parallels hτ hcall ss
termination_by structural b

end

theorem Closure.call_parallels (hτ : τ.Faithful) (depth : Nat) :
    CallRule.Parallels τ s s' (Closure.call depth) := by
  induction depth with
  | zero =>
    intro f args st st' hst
    exact ⟨rfl, hst⟩
  | succ depth ih =>
    intro f args st st' hst
    have hparams : (f.translate τ).literal.params.length = f.literal.params.length := by
      simp [Closure.translate]
    have hbody : (f.translate τ).literal.body = f.literal.body.retoken τ.token := by
      simp [Closure.translate]
    rw [Closure.call_succ, Closure.call_succ, List.length_map, hparams, hbody]
    by_cases hlen : f.literal.params.length ≠ args.length
    · rw [if_pos hlen, if_pos hlen]
      exact ⟨rfl, hst⟩
    · have hnext : τ.scope st.heap.size = st'.heap.size := hst.scope_next 0
      rw [if_neg hlen, if_neg hlen, ← hnext]
      exact (Block.eval_parallels hτ ih f.literal.body).catchReturn _ _ (hst.entered hτ f args)

end Evaluation

end Monkey
