import Mathlib.Logic.Relation
import Monkey.Proofs.Eval.Effects

/-!
Signals on their way out. A tree is put together from constructs with a hole where one of their
parts is evaluated; the hole is reached when everything before it has finished normally. What ends
the part in the hole then ends all constructs around it, in the same state. Calls are the one place
where a `return` turns into a value, and failures pass through them too.
-/

namespace Monkey

inductive Category where
  | expr | stmt | stmts

namespace Category

abbrev Tree : Category → Type
  | .expr => Expr
  | .stmt => Stmt
  | .stmts => List Stmt

def eval (call : CallRule) (scope : ScopeId) : (c : Category) → c.Tree → Eval Value
  | .expr, e => Expr.eval call scope e
  | .stmt, s => Stmt.eval call scope s
  | .stmts, ss => Stmt.evalAll call scope ss

end Category

/-- One construct around a hole: `Construct i o` makes a tree of category `o` from one of category
`i`. -/
inductive Construct : Category → Category → Type where
  | element (token : Token) (before after : List Expr) : Construct .expr .expr
  | key (token : Token) (before : List (Expr × Expr)) (value : Expr)
      (after : List (Expr × Expr)) : Construct .expr .expr
  | value (token : Token) (before : List (Expr × Expr)) (key : Expr)
      (after : List (Expr × Expr)) : Construct .expr .expr
  | operand (op : UnaryOp) (token : Token) : Construct .expr .expr
  | left (op : BinaryOp) (token : Token) (right : Expr) : Construct .expr .expr
  | right (left : Expr) (op : BinaryOp) (token : Token) : Construct .expr .expr
  | condition (token : Token) (consequence : Block) (alternative : Option Block) :
      Construct .expr .expr
  | consequence (token : Token) (condition : Expr) (brace : Token) (alternative : Option Block) :
      Construct .stmts .expr
  | alternative (token : Token) (condition : Expr) (consequence : Block) (brace : Token) :
      Construct .stmts .expr
  | callee (token : Token) (args : List Expr) : Construct .expr .expr
  | argument (callee : Expr) (token : Token) (before after : List Expr) : Construct .expr .expr
  | target (token : Token) (position : Expr) : Construct .expr .expr
  | position (target : Expr) (token : Token) : Construct .expr .expr
  | bound (token : Token) (name : Ident) : Construct .expr .stmt
  | returned (token : Token) : Construct .expr .stmt
  | sole (token : Token) : Construct .expr .stmt
  | braced (token : Token) : Construct .stmts .stmt
  | listed (before after : List Stmt) : Construct .stmt .stmts

namespace Construct

def plug {i o : Category} : Construct i o → i.Tree → o.Tree
  | .element t before after, e => Expr.array t (before ++ e :: after)
  | .key t before v after, e => Expr.hash t (before ++ (e, v) :: after)
  | .value t before k after, e => Expr.hash t (before ++ (k, e) :: after)
  | .operand op t, e => Expr.unary op t e
  | .left op t r, e => Expr.binary e op t r
  | .right l op t, e => Expr.binary l op t e
  | .condition t b a, e => Expr.cond t e b a
  | .consequence t c brace a, ss => Expr.cond t c (.mk brace ss) a
  | .alternative t c b brace, ss => Expr.cond t c b (some (.mk brace ss))
  | .callee t args, e => Expr.call e t args
  | .argument f t before after, e => Expr.call f t (before ++ e :: after)
  | .target t p, e => Expr.index e t p
  | .position e t, p => Expr.index e t p
  | .bound t name, e => Stmt.bind t name (some e)
  | .returned t, e => Stmt.ret t (some e)
  | .sole t, e => Stmt.expr t e
  | .braced t, ss => Stmt.block (.mk t ss)
  | .listed before after, s => before ++ s :: after

/-- From `st`, everything before the hole finishes normally, and `hole` is started in `st'`. A value
of a hash is looked at only after its key has turned out usable. -/
def Reaches (call : CallRule) (scope : ScopeId) {i o : Category} (C : Construct i o) (hole : i.Tree)
    (st st' : State) : Prop :=
  match C, hole with
  | .element _ before _, _ => ∃ vs, Expr.evalAll call scope before st = (.ok vs, st')
  | .key _ before _ _, _ => ∃ es, Expr.evalPairs call scope [] before st = (.ok es, st')
  | .value _ before k _, _ => ∃ es mid key slot,
      Expr.evalPairs call scope [] before st = (.ok es, mid) ∧
      k.eval call scope mid = (.ok key, st') ∧ key.hashKey? = some slot
  | .right l _ _, _ => ∃ v, l.eval call scope st = (.ok v, st')
  | .consequence _ c _ _, _ => ∃ v, c.eval call scope st = (.ok v, st') ∧ v.truthy = true
  | .alternative _ c _ _, _ => ∃ v, c.eval call scope st = (.ok v, st') ∧ v.truthy = false
  | .argument f _ before _, _ => ∃ v mid vs, f.eval call scope st = (.ok v, mid) ∧
      Expr.evalAll call scope before mid = (.ok vs, st')
  | .position e _, _ => ∃ v, e.eval call scope st = (.ok v, st')
  | .listed before _, s => ∃ v mid, Stmt.evalAll call scope before st = (.ok v, mid) ∧
      st' = mid.record (.statement s)
  | .operand _ _, _ | .left _ _ _, _ | .condition _ _ _, _ | .callee _ _, _ | .target _ _, _
  | .bound _ _, _ | .returned _, _ | .sole _, _ | .braced _, _ => st' = st

end Construct

section Lists

open Monkey.Action

variable {call : CallRule} {scope : ScopeId} {st mid st' : State}

theorem Expr.evalAll_append_cons_error {before after : List Expr} {e : Expr} {vs : List Value}
    {s : Signal} (hb : Expr.evalAll call scope before st = (.ok vs, mid))
    (he : e.eval call scope mid = (.error s, st')) :
    Expr.evalAll call scope (before ++ e :: after) st = (.error s, st') := by
  induction before generalizing st vs with
  | nil =>
    obtain ⟨-, rfl⟩ := Prod.mk.inj hb
    exact bind_of_error he _
  | cons b before ih =>
    obtain ⟨v, mid', hv, hrest⟩ := bind_eq_ok.mp hb
    obtain ⟨ws, mid'', hws, hpure⟩ := bind_eq_ok.mp hrest
    obtain ⟨-, rfl⟩ := Prod.mk.inj hpure
    exact (bind_of_ok hv _).trans (bind_of_error (ih hws) _)

theorem Expr.evalPairs_append {before after : List (Expr × Expr)} {es fs : List Entry}
    (hb : Expr.evalPairs call scope es before st = (.ok fs, mid)) :
    Expr.evalPairs call scope es (before ++ after) st =
      Expr.evalPairs call scope fs after mid := by
  induction before generalizing st es with
  | nil =>
    obtain ⟨hes, rfl⟩ := Prod.mk.inj hb
    obtain rfl := Except.ok.inj hes
    rfl
  | cons p before ih =>
    obtain ⟨k, v⟩ := p
    obtain ⟨key, mid', hkey, hrest⟩ := bind_eq_ok.mp hb
    refine (bind_of_ok hkey _).trans ?_
    cases hslot : key.hashKey? with
    | none =>
      rw [hslot] at hrest
      cases hrest
    | some slot =>
      rw [hslot] at hrest
      obtain ⟨value, mid'', hvalue, hrest⟩ := bind_eq_ok.mp hrest
      exact (bind_of_ok hvalue _).trans (ih hrest)

/-- The first statements run before the others, if there are others. -/
theorem Stmt.evalAll_append {before after : List Stmt} {v : Value} (hne : after ≠ [])
    (hb : Stmt.evalAll call scope before st = (.ok v, mid)) :
    Stmt.evalAll call scope (before ++ after) st = Stmt.evalAll call scope after mid := by
  obtain ⟨a, after, rfl⟩ := List.exists_cons_of_ne_nil hne
  induction before generalizing st with
  | nil =>
    obtain ⟨-, rfl⟩ := Prod.mk.inj hb
    rfl
  | cons b before ih =>
    have recorded : (record (.statement b) : Eval Unit) st = (.ok (), st.record (.statement b)) :=
      rfl
    cases before with
    | nil => exact (bind_of_ok recorded _).trans (bind_of_ok hb _)
    | cons c before =>
      obtain ⟨w, mid', hw, hrest⟩ := bind_eq_ok.mp ((bind_of_ok recorded _).symm.trans hb)
      exact (bind_of_ok recorded _).trans ((bind_of_ok hw _).trans (ih hrest))

theorem Stmt.evalAll_cons_error {s : Stmt} {after : List Stmt} {sig : Signal}
    (hs : s.eval call scope (st.record (.statement s)) = (.error sig, st')) :
    Stmt.evalAll call scope (s :: after) st = (.error sig, st') := by
  cases after with
  | nil => exact hs
  | cons t after => exact bind_of_error hs _

end Lists

namespace Construct

open Monkey.Action

/-- A signal that ends the hole ends the construct. -/
theorem eval_plug {call : CallRule} {scope : ScopeId} {i o : Category} {C : Construct i o}
    {hole : i.Tree} {st mid st' : State} {s : Signal} (hC : C.Reaches call scope hole st mid)
    (hhole : i.eval call scope hole mid = (.error s, st')) :
    o.eval call scope (C.plug hole) st = (.error s, st') := by
  cases C with
  | element t before after =>
    obtain ⟨vs, hb⟩ := hC
    exact bind_of_error (Expr.evalAll_append_cons_error hb hhole) _
  | key t before v after =>
    obtain ⟨es, hb⟩ := hC
    exact bind_of_error ((Expr.evalPairs_append hb).trans (bind_of_error hhole _)) _
  | value t before k after =>
    obtain ⟨es, mid', key, slot, hb, hk, hslot⟩ := hC
    refine bind_of_error ((Expr.evalPairs_append hb).trans ((bind_of_ok hk _).trans ?_)) _
    simp only [hslot]
    exact bind_of_error hhole _
  | operand op t => exact hC ▸ bind_of_error hhole _
  | left op t r => exact hC ▸ bind_of_error hhole _
  | right l op t =>
    obtain ⟨v, hl⟩ := hC
    exact (bind_of_ok hl _).trans (bind_of_error hhole _)
  | condition t b a =>
    cases a with
    | none => exact hC ▸ bind_of_error hhole _
    | some a => exact hC ▸ bind_of_error hhole _
  | consequence t c brace a =>
    obtain ⟨v, hc, hv⟩ := hC
    cases a with
    | none =>
      refine (bind_of_ok hc _).trans ?_
      rw [if_pos hv]
      exact hhole
    | some a =>
      refine (bind_of_ok hc _).trans ?_
      rw [if_pos hv]
      exact hhole
  | alternative t c b brace =>
    obtain ⟨v, hc, hv⟩ := hC
    refine (bind_of_ok hc _).trans ?_
    rw [if_neg (by simp [hv])]
    exact hhole
  | callee t args => exact hC ▸ bind_of_error hhole _
  | argument f t before after =>
    obtain ⟨v, mid', vs, hf, hb⟩ := hC
    exact (bind_of_ok hf _).trans (bind_of_error (Expr.evalAll_append_cons_error hb hhole) _)
  | target t p => exact hC ▸ bind_of_error hhole _
  | position e t =>
    obtain ⟨v, he⟩ := hC
    exact (bind_of_ok he _).trans (bind_of_error hhole _)
  | bound t name => exact hC ▸ bind_of_error hhole _
  | returned t => exact hC ▸ bind_of_error hhole _
  | sole t => exact hC ▸ hhole
  | braced t => exact hC ▸ hhole
  | listed before after =>
    obtain ⟨v, mid', hb, rfl⟩ := hC
    exact (Stmt.evalAll_append (List.cons_ne_nil _ _) hb).trans (Stmt.evalAll_cons_error hhole)

end Construct

/-- An evaluation about to start: a tree, the scope and the state it is evaluated in, and the depth
that its calls may reach. -/
structure Site where
  depth : Nat
  scope : ScopeId
  category : Category
  tree : category.Tree
  state : State

namespace Site

def outcome (x : Site) : Except Signal Value × State :=
  x.category.eval (Closure.call x.depth) x.scope x.tree x.state

inductive Opens : Site → Site → Prop where
  | part {depth scope st st' i o} {C : Construct i o} {hole : i.Tree} :
      C.Reaches (Closure.call depth) scope hole st st' →
      Opens ⟨depth, scope, o, C.plug hole, st⟩ ⟨depth, scope, i, hole, st'⟩

inductive Calls : Site → Site → Prop where
  | body {depth scope st mid st' callee token args f vs} :
      Expr.eval (Closure.call (depth + 1)) scope callee st = (.ok (.function f), mid) →
      Expr.evalAll (Closure.call (depth + 1)) scope args mid = (.ok vs, st') →
      f.literal.params.length = vs.length →
      Calls ⟨depth + 1, scope, .expr, Expr.call callee token args, st⟩
        ⟨depth, st'.heap.size, .stmts, f.literal.body.statements, f.entered vs st'⟩

abbrev Surrounds : Site → Site → Prop := Relation.ReflTransGen Opens

abbrev Reaches : Site → Site → Prop := Relation.ReflTransGen fun x y => x.Opens y ∨ x.Calls y

theorem Opens.outcome {x y : Site} (h : x.Opens y) {s : Signal} {st : State}
    (hy : y.outcome = (.error s, st)) : x.outcome = (.error s, st) := by
  cases h with
  | part hC => exact Construct.eval_plug hC hy

theorem Surrounds.outcome {x y : Site} (h : x.Surrounds y) {s : Signal} {st : State}
    (hy : y.outcome = (.error s, st)) : x.outcome = (.error s, st) := by
  induction h with
  | refl => exact hy
  | tail _ hopens ih => exact ih (hopens.outcome hy)

/-- A call ends as the body of the function does, but for a `return`. -/
theorem Calls.outcome {x y : Site} (h : x.Calls y) :
    x.outcome = match y.outcome with
      | (.error (.returned v), st) => (.ok v, st)
      | r => r := by
  cases h with
  | @body depth scope st mid st' callee token args f vs hf hargs hlen =>
    have hbody : f.literal.body.eval (Closure.call depth) st'.heap.size =
        Stmt.evalAll (Closure.call depth) st'.heap.size f.literal.body.statements := by
      cases f.literal.body with
      | mk token ss => rfl
    refine (Action.bind_of_ok hf _).trans ((Action.bind_of_ok hargs _).trans ?_)
    refine (Closure.call_succ depth f vs st').trans ?_
    rw [if_neg (not_not_intro hlen), hbody]
    rfl

theorem Reaches.outcome {x y : Site} (h : x.Reaches y) {e : RuntimeError} {st : State}
    (hy : y.outcome = (.error (.failed e), st)) : x.outcome = (.error (.failed e), st) := by
  induction h with
  | refl => exact hy
  | tail _ hstep ih =>
    rcases hstep with hopens | hcalls
    · exact ih (hopens.outcome hy)
    · apply ih
      rw [hcalls.outcome, hy]

def ofProgram (depth : Nat) (scope : ScopeId) (p : Program) (st : State) : Site :=
  ⟨depth, scope, .stmts, p.statements, st.record (.evaluating p.statements.length)⟩

theorem run_of_outcome {depth : Nat} {scope : ScopeId} {p : Program} {st st' : State} {s : Signal}
    {v : Value} (h : (ofProgram depth scope p st).outcome = (.error s, st'))
    (hs : s.toResult = some v) :
    p.run depth scope st = (some v, st'.record (.finished v.kind)) := by
  have hall : Stmt.evalAll (Closure.call depth) scope p.statements
      (st.record (.evaluating p.statements.length)) = (.error s, st') := h
  simp only [Program.run, hall, hs]

end Site

/-- A signal ends everything around it in the state it was raised in. A failure ends every call on
its way and then the program; a `return` ends the constructs up to the body of the function it
stands in, and is the value of the call there, or of the program if there is no call. -/
theorem signals_unwind :
    (∀ x y : Site, x.Surrounds y → ∀ s st, y.outcome = (.error s, st) →
      x.outcome = (.error s, st)) ∧
    (∀ x y : Site, x.Reaches y → ∀ e st, y.outcome = (.error (.failed e), st) →
      x.outcome = (.error (.failed e), st)) ∧
    (∀ x y z : Site, x.Calls y → y.Surrounds z → ∀ v st, z.outcome = (.error (.returned v), st) →
      x.outcome = (.ok v, st)) ∧
    (∀ depth scope p st z, (Site.ofProgram depth scope p st).Surrounds z → ∀ v st',
      z.outcome = (.error (.returned v), st') →
      p.run depth scope st = (some v, st'.record (.finished v.kind))) ∧
    (∀ depth scope p st z, (Site.ofProgram depth scope p st).Reaches z → ∀ e st',
      z.outcome = (.error (.failed e), st') →
      p.run depth scope st = (some (.error e), st'.record (.finished .error))) := by
  refine ⟨fun x y h s st hy => h.outcome hy, fun x y h e st hy => h.outcome hy, ?_, ?_, ?_⟩
  · intro x y z hcalls hsurrounds v st hz
    rw [hcalls.outcome, hsurrounds.outcome hz]
  · intro depth scope p st z h v st' hz
    exact Site.run_of_outcome (h.outcome hz) rfl
  · intro depth scope p st z h e st' hz
    exact Site.run_of_outcome (h.outcome hz) rfl

/-- A failing element of an array, and a `return` before a statement that would fail, in a function
and in a program. -/
theorem signals_unwind_instances :
    let t : Token := default
    let st := State.ofSink .unlimited .silent
    let failing : Expr := .unary .neg t (.boolean t true)
    let ss : List Stmt := [.ret t (some (.integer t 1)), .expr t failing]
    let f : Lambda := .mk t [] (.mk t ss)
    let inner := Closure.entered ⟨0, f, 0⟩ [] { st with functions := 1 }
    let e : RuntimeError := .unknownUnary t.text .boolean
    (Site.mk 0 0 .expr (.array t [failing]) st).outcome = (.error (.failed e), st) ∧
    (Site.mk 1 0 .expr (.call (.function f) t []) st).outcome = (.ok (.integer 1), inner) ∧
    Program.run 0 0 ⟨ss⟩ st = (some (.integer 1), st) ∧
    Program.run 0 0 ⟨[.expr t (.array t [failing])]⟩ st = (some (.error e), st) := by
  intro t st failing ss f inner e
  let element : Construct .expr .expr := .element t [] []
  let first : Construct .stmt .stmts := .listed [] [.expr t failing]
  let only : Construct .stmt .stmts := .listed [] []
  have opensElement : Site.Opens ⟨0, 0, .expr, .array t [failing], st⟩ ⟨0, 0, .expr, failing, st⟩ :=
    @Site.Opens.part 0 0 st st .expr .expr element failing ⟨[], rfl⟩
  refine ⟨?_, ?_, ?_, ?_⟩
  · exact signals_unwind.1 _ _ (.single opensElement) _ _ rfl
  · have calls := @Site.Calls.body 0 0 st _ _ (.function f) t [] ⟨0, f, 0⟩ [] rfl rfl rfl
    have opens := @Site.Opens.part 0 0 inner inner .stmt .stmts first
      (.ret t (some (.integer t 1))) ⟨.null, _, rfl, rfl⟩
    exact signals_unwind.2.2.1 _ _ _ calls (.single opens) _ _ rfl
  · have opens := @Site.Opens.part 0 0 st st .stmt .stmts first (.ret t (some (.integer t 1)))
      ⟨.null, _, rfl, rfl⟩
    exact signals_unwind.2.2.2.1 0 0 ⟨ss⟩ st _ (.single opens) _ _ rfl
  · have opensStmt := @Site.Opens.part 0 0 st st .stmt .stmts only
      (.expr t (.array t [failing])) ⟨.null, _, rfl, rfl⟩
    have opensExpr := @Site.Opens.part 0 0 st st .expr .stmt (.sole t) (.array t [failing]) rfl
    have reaches : Site.Reaches _ _ :=
      ((Relation.ReflTransGen.single (.inl opensStmt)).tail (.inl opensExpr)).tail
        (.inl opensElement)
    exact signals_unwind.2.2.2.2 0 0 _ st _ reaches e _ rfl

end Monkey
