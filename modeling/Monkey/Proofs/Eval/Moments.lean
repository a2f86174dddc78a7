import Monkey.Proofs.Eval.Invariant
import Monkey.Proofs.Eval.Signals

/-!
What holds at every moment of a run. A run is looked at through its sites: wherever an evaluation
within it begins or ends, and while the parameters of a function are bound. A discipline that the
run starts with is kept up at all of these moments, through any number of programs that run one
after the other.
-/

namespace Monkey

namespace Category

def nesting : (c : Category) → c.Tree → Nat
  | .expr, e => Expr.nesting e
  | .stmt, s => Stmt.nesting s
  | .stmts, ss => Stmt.nestingAll ss

end Category

theorem Construct.nesting_le {i o : Category} (C : Construct i o) (hole : i.Tree) :
    i.nesting hole ≤ o.nesting (C.plug hole) := by
  cases C with
  | element t before after | argument f t before after =>
    simp only [Construct.plug, Category.nesting, Expr.nesting, Expr.nestingAll_append,
      Expr.nestingAll]
    omega
  | key t before v after | value t before k after =>
    simp only [Construct.plug, Category.nesting, Expr.nesting, Expr.nestingPairs_append,
      Expr.nestingPairs]
    omega
  | condition t b a | consequence t c brace a =>
    cases a with
    | none | some a =>
      simp only [Construct.plug, Category.nesting, Expr.nesting, Block.nesting]
      omega
  | listed before after =>
    simp only [Construct.plug, Category.nesting, Stmt.nestingAll_append, Stmt.nestingAll]
    omega
  | _ =>
    simp only [Construct.plug, Category.nesting, Expr.nesting, Stmt.nesting, Block.nesting]
    omega

section Sites

variable {P : State → Value → Prop} {Fit : State → ScopeId → Nat → Prop}

theorem Category.eval_sound {call : CallRule} {scope : ScopeId} {st : State}
    (h : Discipline P Fit) (hcall : call.Follows P Fit) (c : Category) (tree : c.Tree)
    (hst : st.Obeys P) (hfit : Fit st scope (c.nesting tree)) :
    Sound P Fit (fun st v => v.Every (P st)) st (c.eval call scope tree st) := by
  cases c with
  | expr => exact Expr.eval_sound h hcall tree st hst hfit
  | stmt => exact Stmt.eval_sound h hcall tree st hst hfit
  | stmts => exact Stmt.evalAll_sound h hcall tree st hst hfit

/-- What is evaluated before the hole of a construct keeps the discipline. -/
theorem Construct.Reaches.advances {call : CallRule} {scope : ScopeId} {st st' : State}
    {i o : Category} {C : Construct i o} {hole : i.Tree} (h : Discipline P Fit)
    (hcall : call.Follows P Fit) (hC : C.Reaches call scope hole st st') (hst : st.Obeys P)
    (hfit : Fit st scope (o.nesting (C.plug hole))) : Advances P Fit st st' := by
  have expr {e : Expr} {v : Value} {st st' : State} (he : e.eval call scope st = (.ok v, st'))
      (hst : st.Obeys P) (hfit : Fit st scope e.nesting) : Advances P Fit st st' := by
    have hsound := Expr.eval_sound h hcall e st hst hfit
    rw [he] at hsound
    exact hsound.toAdvances
  have exprs {es : List Expr} {vs : List Value} {st st' : State}
      (hes : Expr.evalAll call scope es st = (.ok vs, st')) (hst : st.Obeys P)
      (hfit : Fit st scope (Expr.nestingAll es)) : Advances P Fit st st' := by
    have hsound := Expr.evalAll_sound h hcall es st hst hfit
    rw [hes] at hsound
    exact hsound.toAdvances
  have pairs {ps : List (Expr × Expr)} {es : List Entry} {st' : State}
      (hps : Expr.evalPairs call scope [] ps st = (.ok es, st'))
      (hfit : Fit st scope (Expr.nestingPairs ps)) : Advances P Fit st st' := by
    have hsound := Expr.evalPairs_sound h hcall ps [] st hst hfit Entry.filed_nil (by simp)
    rw [hps] at hsound
    exact hsound.toAdvances
  cases C with
  | element t before after =>
    obtain ⟨vs, hbefore⟩ := hC
    simp only [Construct.plug, Category.nesting, Expr.nesting, Expr.nestingAll_append] at hfit
    exact exprs hbefore hst (h.narrow (Nat.le_max_left _ _) hfit)
  | key t before v after =>
    obtain ⟨es, hbefore⟩ := hC
    simp only [Construct.plug, Category.nesting, Expr.nesting, Expr.nestingPairs_append] at hfit
    exact pairs hbefore (h.narrow (Nat.le_max_left _ _) hfit)
  | value t before k after =>
    obtain ⟨es, mid, key, slot, hbefore, hkey, -⟩ := hC
    simp only [Construct.plug, Category.nesting, Expr.nesting, Expr.nestingPairs_append,
      Expr.nestingPairs] at hfit
    have hmid := pairs hbefore (h.narrow (Nat.le_max_left _ _) hfit)
    have hk : Fit st scope k.nesting := h.narrow (by omega) hfit
    exact hmid.trans (expr hkey hmid.obeys (h.fit_grow hmid.grows hk))
  | right l op t | position l t =>
    obtain ⟨v, hl⟩ := hC
    exact expr hl hst (h.narrow (Nat.le_max_left _ _) hfit)
  | consequence t c brace a =>
    obtain ⟨v, hc, -⟩ := hC
    cases a with
    | none | some a => exact expr hc hst (h.narrow (Nat.le_max_left _ _) hfit)
  | alternative t c b brace =>
    obtain ⟨v, hc, -⟩ := hC
    exact expr hc hst (h.narrow (Nat.le_max_left _ _) hfit)
  | argument f t before after =>
    obtain ⟨v, mid, vs, hf, hbefore⟩ := hC
    simp only [Construct.plug, Category.nesting, Expr.nesting, Expr.nestingAll_append] at hfit
    have hmid := expr hf hst (h.narrow (Nat.le_max_left _ _) hfit)
    have hb : Fit st scope (Expr.nestingAll before) := h.narrow (by omega) hfit
    exact hmid.trans (exprs hbefore hmid.obeys (h.fit_grow hmid.grows hb))
  | listed before after =>
    obtain ⟨v, mid, hbefore, rfl⟩ := hC
    simp only [Construct.plug, Category.nesting, Stmt.nestingAll_append] at hfit
    have hsound := Stmt.evalAll_sound h hcall before st hst (h.narrow (Nat.le_max_left _ _) hfit)
    rw [hbefore] at hsound
    exact hsound.toAdvances.trans (h.record hsound.obeys (.statement hole)).toAdvances
  | operand op t | left op t r | condition t b a | callee t args | target t p | bound t name
  | returned t | sole t | braced t =>
    obtain rfl : st' = st := hC
    exact .refl hst

end Sites

namespace Site

/-- The states that a site passes through: where one of the evaluations within it begins or ends,
and where the first `k` parameters of a function have been bound in its new scope. -/
inductive Passes (x : Site) : State → Prop where
  | start {y} : x.Reaches y → x.Passes y.state
  | finish {y} : x.Reaches y → x.Passes y.outcome.2
  | binding {depth scope st mid st' callee token args f vs} (k : Nat) :
      x.Reaches ⟨depth + 1, scope, .expr, Expr.call callee token args, st⟩ →
      Expr.eval (Closure.call (depth + 1)) scope callee st = (.ok (.function f), mid) →
      Expr.evalAll (Closure.call (depth + 1)) scope args mid = (.ok vs, st') →
      f.literal.params.length = vs.length →
      x.Passes { st' with
        heap := (st'.heap.push (some f.scope)).setAll st'.heap.size
          (((f.literal.params.map Ident.name).zip vs).take k) }

variable {P : State → Value → Prop} {Fit : State → ScopeId → Nat → Prop}

structure Obeys (P : State → Value → Prop) (Fit : State → ScopeId → Nat → Prop) (x : Site) :
    Prop where
  state : x.state.Obeys P
  fit : Fit x.state x.scope (x.category.nesting x.tree)

theorem Obeys.sound {x : Site} (h : Discipline P Fit) (hx : x.Obeys P Fit) :
    Sound P Fit (fun st v => v.Every (P st)) x.state x.outcome :=
  Category.eval_sound h (Closure.call_follows h x.depth) x.category x.tree hx.state hx.fit

theorem Opens.advances {x y : Site} (h : Discipline P Fit) (hopens : x.Opens y)
    (hx : x.Obeys P Fit) : Advances P Fit x.state y.state ∧ y.Obeys P Fit := by
  cases hopens with
  | @part depth scope st st' i o C hole hC =>
    have hmid := hC.advances h (Closure.call_follows h _) hx.state hx.fit
    have hfit : Fit st scope (i.nesting hole) := h.narrow (C.nesting_le hole) hx.fit
    exact ⟨hmid, hmid.obeys, h.fit_grow hmid.grows hfit⟩

/-- When the function and the arguments of a call have been evaluated, all is as it should be. -/
theorem prepared {depth : Nat} {scope : ScopeId} {st mid st' : State} {callee : Expr}
    {args : List Expr} {f : Closure} {vs : List Value} (h : Discipline P Fit) (hst : st.Obeys P)
    (hfit : Fit st scope (max callee.nesting (Expr.nestingAll args)))
    (hcallee : Expr.eval (Closure.call depth) scope callee st = (.ok (.function f), mid))
    (hargs : Expr.evalAll (Closure.call depth) scope args mid = (.ok vs, st')) :
    Advances P Fit st st' ∧ (Value.function f).Every (P st') ∧ ∀ v ∈ vs, v.Every (P st') := by
  have hcall := Closure.call_follows h depth
  have hfirst : Fit st scope callee.nesting := h.narrow (Nat.le_max_left _ _) hfit
  have hothers : Fit st scope (Expr.nestingAll args) := h.narrow (Nat.le_max_right _ _) hfit
  have hsound := Expr.eval_sound h hcall callee st hst hfirst
  rw [hcallee] at hsound
  have hsound' := Expr.evalAll_sound h hcall args mid hsound.obeys
    (h.fit_grow hsound.grows hothers)
  rw [hargs] at hsound'
  refine ⟨hsound.toAdvances.trans hsound'.toAdvances, ?_, hsound'.ok _ rfl⟩
  exact h.grow_every hsound'.grows (hsound.ok _ rfl)

theorem Calls.advances {x y : Site} (h : Discipline P Fit) (hcalls : x.Calls y)
    (hx : x.Obeys P Fit) : Advances P Fit x.state y.state ∧ y.Obeys P Fit := by
  cases hcalls with
  | @body depth scope st mid st' callee token args f vs hcallee hargs hlen =>
    obtain ⟨hst, hf, hvs⟩ := prepared h hx.state hx.fit hcallee hargs
    have hentered := Closure.entered_advances h hst.obeys hf hvs
    have hbody : f.literal.body.nesting = Stmt.nestingAll f.literal.body.statements := by
      cases f.literal.body
      rfl
    have hfit := Closure.entered_fit h hf vs
    rw [hbody] at hfit
    exact ⟨hst.trans hentered, hentered.obeys, hfit⟩

theorem Reaches.advances {x y : Site} (h : Discipline P Fit) (hreaches : x.Reaches y)
    (hx : x.Obeys P Fit) : Advances P Fit x.state y.state ∧ y.Obeys P Fit := by
  induction hreaches with
  | refl => exact ⟨.refl hx.state, hx⟩
  | tail _ hstep ih =>
    obtain ⟨hmid, hobeys⟩ := ih
    rcases hstep with hopens | hcalls
    · obtain ⟨hnext, hobeys'⟩ := hopens.advances h hobeys
      exact ⟨hmid.trans hnext, hobeys'⟩
    · obtain ⟨hnext, hobeys'⟩ := hcalls.advances h hobeys
      exact ⟨hmid.trans hnext, hobeys'⟩

theorem Passes.advances {x : Site} {st : State} (h : Discipline P Fit) (hpasses : x.Passes st)
    (hx : x.Obeys P Fit) : Advances P Fit x.state st := by
  cases hpasses with
  | start hreaches => exact (hreaches.advances h hx).1
  | finish hreaches =>
    obtain ⟨hmid, hobeys⟩ := hreaches.advances h hx
    exact hmid.trans (hobeys.sound h).toAdvances
  | binding k hreaches hcallee hargs =>
    obtain ⟨hmid, hobeys⟩ := hreaches.advances h hx
    obtain ⟨hst, hf, hvs⟩ := prepared h hobeys.state hobeys.fit hcallee hargs
    refine (hmid.trans hst).trans (Closure.binding_advances h hst.obeys hf hvs ?_)
    exact fun b => List.mem_of_mem_take

theorem Passes.obeys {x : Site} {st : State} (h : Discipline P Fit) (hpasses : x.Passes st)
    (hx : x.Obeys P Fit) : st.Obeys P := (hpasses.advances h hx).obeys

theorem ofProgram_obeys {scope : ScopeId} {st : State} (h : Discipline P Fit) (depth : Nat)
    (p : Program) (hst : st.Obeys P) (hfit : Fit st scope p.nesting) :
    (ofProgram depth scope p st).Obeys P Fit := by
  have hrecorded := h.record hst (.evaluating p.statements.length)
  exact ⟨hrecorded.obeys, h.fit_grow hrecorded.grows hfit⟩

end Site

namespace Program

def runAll (global : ScopeId) : List (Nat × Program) → State → State
  | [], st => st
  | (depth, p) :: rest, st => runAll global rest (p.run depth global st).2

def nestingAll : List (Nat × Program) → Nat
  | [] => 0
  | (_, p) :: rest => max p.nesting (nestingAll rest)

/-- The states in which programs that run one after the other are seen: `Moment global ps st st'`
when they start in `st` and are seen in `st'`. -/
inductive Moment (global : ScopeId) : List (Nat × Program) → State → State → Prop where
  | start (ps : List (Nat × Program)) (st : State) : Moment global ps st st
  | during {depth p st st'} (ps : List (Nat × Program)) :
      (Site.ofProgram depth global p st).Passes st' → Moment global ((depth, p) :: ps) st st'
  | after {depth p ps st st'} : Moment global ps (p.run depth global st).2 st' →
      Moment global ((depth, p) :: ps) st st'

variable {P : State → Value → Prop} {Fit : State → ScopeId → Nat → Prop}

theorem runAll_obeys {global : ScopeId} {st : State} (h : Discipline P Fit)
    (ps : List (Nat × Program)) (hst : st.Obeys P) (hfit : Fit st global (nestingAll ps)) :
    (runAll global ps st).Obeys P ∧ Fit (runAll global ps st) global (nestingAll ps) := by
  have grown (ps : List (Nat × Program)) (st : State) (hst : st.Obeys P)
      (hfit : Fit st global (nestingAll ps)) : Advances P Fit st (runAll global ps st) := by
    induction ps generalizing st with
    | nil => exact .refl hst
    | cons q ps ih =>
      obtain ⟨depth, p⟩ := q
      have hrun := p.run_advances h depth hst (h.narrow (Nat.le_max_left _ _) hfit)
      have hrest := h.fit_grow hrun.grows (h.narrow (Nat.le_max_right _ _) hfit)
      exact hrun.trans (ih _ hrun.obeys hrest)
  have hall := grown ps st hst hfit
  exact ⟨hall.obeys, h.fit_grow hall.grows hfit⟩

/-- A discipline that programs start with is kept up at every moment. -/
theorem Moment.advances {global : ScopeId} {ps : List (Nat × Program)} {st st' : State}
    (h : Discipline P Fit) (hmoment : Moment global ps st st') (hst : st.Obeys P)
    (hfit : Fit st global (nestingAll ps)) : Advances P Fit st st' := by
  induction hmoment with
  | start => exact .refl hst
  | @during depth p st st' ps hpasses =>
    have hp : Fit st global p.nesting := h.narrow (Nat.le_max_left _ _) hfit
    have hrecorded := (h.record hst (.evaluating p.statements.length)).toAdvances
    exact hrecorded.trans (hpasses.advances h (Site.ofProgram_obeys h depth p hst hp))
  | @after depth p ps st st' _ ih =>
    have hp : Fit st global p.nesting := h.narrow (Nat.le_max_left _ _) hfit
    have hrun := p.run_advances h depth hst hp
    have hrest := h.fit_grow hrun.grows (h.narrow (Nat.le_max_right _ _) hfit)
    exact hrun.trans (ih hrun.obeys hrest)

theorem run_yields {depth : Nat} {scope : ScopeId} {p : Program} {st : State} (h : Discipline P Fit)
    (hst : st.Obeys P) (hfit : Fit st scope p.nesting) {v : Value}
    (hv : (p.run depth scope st).1 = some v) :
    v.Every (P (p.run depth scope st).2) ∨ ∃ e, v = .error e := by
  have hsound := (Site.ofProgram_obeys h depth p hst hfit).sound h
  have hrecord (mid : State) : Grows mid (mid.record (.finished v.kind)) :=
    .of_heap_eq rfl (Nat.le_refl _)
  change Sound P _ _ _ (Stmt.evalAll (Closure.call depth) scope p.statements
    (st.record (.evaluating p.statements.length))) at hsound
  unfold Program.run at hv ⊢
  split at hv
  · rename_i w mid hw
    obtain rfl := Option.some.inj hv
    rw [hw] at hsound
    exact .inl (h.grow_every (hrecord mid) (hsound.ok w rfl))
  · rename_i s mid hs
    rw [hs] at hsound
    cases s with
    | returned w =>
      obtain rfl := Option.some.inj hv
      exact .inl (h.grow_every (hrecord mid) (hsound.returned w rfl))
    | failed e =>
      obtain rfl := Option.some.inj hv
      exact .inr ⟨e, rfl⟩
    | tooDeep => cases hv

end Program

end Monkey
