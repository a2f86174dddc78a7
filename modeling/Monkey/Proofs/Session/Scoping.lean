import Monkey.Proofs.Eval.Moments
import Monkey.Proofs.Scope.Chain

/-!
The scopes of a session. Values may refer to scopes in circles, since a scope can hold a function
that captures it; outer scopes do not, since a scope is made within one that exists and stays there.
So every scope leads to a global one, however it came about. How far that is has nothing to do with
the depth of calls: a scope lies as deep as the function literal it was made for.
-/

namespace Monkey

def Captures (st : State) (v : Value) : Prop := ∀ f, v = .function f → f.scope < st.heap.size

abbrev Exists (st : State) (scope : ScopeId) (_nesting : Nat) : Prop := scope < st.heap.size

theorem captures_discipline : Discipline Captures Exists where
  grow hg hv f hf := Nat.lt_of_lt_of_le (hv f hf) hg.size_le
  fit_grow hg hscope := Nat.lt_of_lt_of_le hscope hg.size_le
  narrow _ hscope := hscope
  plain hv f hf := absurd hf (hv.ne_function f)
  close hscope f hf := by
    obtain rfl := Value.function.inj hf
    exact hscope
  captured hf := hf _ rfl
  enter _ := by simp

namespace State

/-- What can be done to the scopes of a state: making a global scope or one within another, binding
a value whose functions capture existing scopes, and evaluating in an existing scope, whatever comes
of it. What is written may go to another sink. -/
inductive Step : State → State → Prop where
  | newGlobal (st : State) : Step st st.newGlobal.2
  | newScope {st : State} {outer : ScopeId} : outer < st.heap.size → Step st (st.newScope outer).2
  | set {st : State} (scope : ScopeId) (name : String) {value : Value} :
      value.Every (Captures st) → Step st { st with heap := st.heap.set scope name value }
  | run {st : State} {scope : ScopeId} (depth : Nat) (n : Node) : scope < st.heap.size →
      Step st (n.run depth scope st).2
  | redirect (st : State) (sink : Sink) : Step st { st with sink }

abbrev Steps : State → State → Prop := Relation.ReflTransGen Step

/-- Outer scopes are older, so that every scope leads to a global one without coming back to where
it was; functions capture scopes that exist; and look-ups see all scopes on their way. -/
structure WellScoped (st : State) : Prop where
  aged : st.heap.Aged
  rooted : ∀ id < st.heap.size, ∃ ids, st.heap.Chain id ids ∧ ids.Pairwise (· > ·)
  captured : ∀ (id : ScopeId) (s : Scope), st.heap.scopes[id]? = some s →
    ∀ b ∈ s.bindings, b.2.Every (Captures st)
  found : ∀ (id : ScopeId) (ids : List ScopeId), st.heap.Chain id ids →
    ∀ (reach : Reach) (name : String), st.heap.find? reach name id =
      (reach.along ids).findSome? fun i => st.heap.scopes[i]?.bind (Scope.find? name)
  had : ∀ (id : ScopeId) (ids : List ScopeId), st.heap.Chain id ids →
    ∀ (reach : Reach) (name : String), st.heap.has reach name id =
      (reach.along ids).any fun i => st.heap.scopes[i]?.any (Scope.has name)

def OuterKept (st st' : State) : Prop :=
  ∀ (id : ScopeId) (s : Scope), st.heap.scopes[id]? = some s →
    ∃ s', st'.heap.scopes[id]? = some s' ∧ s'.outer = s.outer

theorem Obeys.wellScoped {st : State} (h : st.Obeys Captures) : st.WellScoped := by
  have haged : st.heap.Aged := fun _ _ _ hs ho => h.outer_lt hs ho
  constructor
  · exact haged
  · intro id hid
    obtain ⟨ids, hids⟩ := haged.exists_chain hid
    exact ⟨ids, hids, hids.pairwise haged⟩
  · intro id s hs
    exact h.bound hs
  · intro id ids hids reach name
    exact hids.find?_eq haged reach name
  · intro id ids hids reach name
    exact hids.has_eq haged reach name

end State

namespace Node

variable {scope : ScopeId} {st : State}

theorem outcome_captures {r : Except Signal Value × State}
    (hr : Sound Captures Exists (Values Captures) st r) :
    Advances Captures Exists st (outcome r).2 ∧
      ∀ v, (outcome r).1 = some v → v.Every (Captures (outcome r).2) := by
  obtain ⟨s | v, st'⟩ := r
  · refine ⟨hr.toAdvances, ?_⟩
    intro v hv
    cases s with
    | returned w =>
      obtain rfl := Option.some.inj hv
      exact ⟨nofun, hr.returned w rfl⟩
    | failed e =>
      obtain rfl := Option.some.inj hv
      exact nofun
    | tooDeep => cases hv
  · refine ⟨hr.toAdvances, ?_⟩
    intro w hw
    obtain rfl := Option.some.inj hw
    exact hr.ok v rfl

theorem run_captures (n : Node) (depth : Nat) (hst : st.Obeys Captures) (hscope : scope < st.heap.size) :
    Advances Captures Exists st (n.run depth scope st).2 ∧
      ∀ v, (n.run depth scope st).1 = some v → v.Every (Captures (n.run depth scope st).2) := by
  have hcall := Closure.call_follows captures_discipline depth
  cases n with
  | program p =>
    refine ⟨p.run_advances captures_discipline depth hst hscope, ?_⟩
    intro v hv
    rcases Program.run_yields captures_discipline hst hscope hv with hv | ⟨e, rfl⟩
    · exact hv
    · exact nofun
  | stmt s => exact outcome_captures (s.eval_sound captures_discipline hcall st hst hscope)
  | expr e => exact outcome_captures (e.eval_sound captures_discipline hcall st hst hscope)
  | block b => exact outcome_captures (b.eval_sound captures_discipline hcall st hst hscope)

end Node

namespace State

theorem Step.advances {st st' : State} (h : Step st st') (hst : st.Obeys Captures) :
    Grows st st' ∧ st'.Obeys Captures := by
  cases h with
  | newGlobal =>
    have hgrows := Grows.push st none
    have hpush : (st.heap.push none).Holds (Captures st) := hst.push nofun
    exact ⟨hgrows, hpush.imp fun _ => captures_discipline.grow hgrows⟩
  | @newScope outer houter =>
    have hgrows := Grows.push st (some outer)
    have hpush : (st.heap.push (some outer)).Holds (Captures st) :=
      hst.push fun o ho => Option.some.inj ho ▸ houter
    exact ⟨hgrows, hpush.imp fun _ => captures_discipline.grow hgrows⟩
  | @set scope name value hvalue =>
    have hgrows := Grows.set st scope name value
    exact ⟨hgrows, (hst.set scope name hvalue).imp fun _ => captures_discipline.grow hgrows⟩
  | run depth n hscope =>
    have hrun := n.run_captures depth hst hscope
    exact ⟨hrun.1.grows, hrun.1.obeys⟩
  | redirect sink =>
    have hgrows : Grows st { st with sink } := .of_heap_eq rfl (Nat.le_refl _)
    exact ⟨hgrows, hst.imp fun _ => captures_discipline.grow hgrows⟩

theorem Steps.advances {st st' : State} (h : Steps st st') (hst : st.Obeys Captures) :
    Grows st st' ∧ st'.Obeys Captures := by
  induction h with
  | refl => exact ⟨.refl st, hst⟩
  | tail _ hstep ih =>
    obtain ⟨hgrows, hobeys⟩ := hstep.advances ih.2
    exact ⟨ih.1.trans hgrows, hobeys⟩

end State

namespace Site

def ofNode (depth : Nat) (scope : ScopeId) (n : Node) (st : State) : Site :=
  match n with
  | .program p => .ofProgram depth scope p st
  | .stmt s => ⟨depth, scope, .stmt, s, st⟩
  | .expr e => ⟨depth, scope, .expr, e, st⟩
  | .block b => ⟨depth, scope, .stmts, b.statements, st⟩

structure WellScoped (x : Site) : Prop where
  scope_lt : x.scope < x.state.heap.size
  yields : ∀ v, x.outcome.1 = .ok v → v.Every (Captures x.outcome.2)
  returns : ∀ v, x.outcome.1 = .error (.returned v) → v.Every (Captures x.outcome.2)

variable {scope : ScopeId} {st : State}

theorem ofNode_obeys (depth : Nat) (n : Node) (hst : st.Obeys Captures) (hscope : scope < st.heap.size) :
    (ofNode depth scope n st).Obeys Captures Exists := by
  cases n with
  | program p => exact ofProgram_obeys captures_discipline depth p hst hscope
  | stmt s => exact ⟨hst, hscope⟩
  | expr e => exact ⟨hst, hscope⟩
  | block b => exact ⟨hst, hscope⟩

theorem grows_ofNode (depth : Nat) (n : Node) : Grows st (ofNode depth scope n st).state := by
  cases n with
  | program p => exact .of_heap_eq rfl (Nat.le_refl _)
  | stmt s => exact .refl st
  | expr e => exact .refl st
  | block b => exact .refl st

theorem Obeys.wellScoped {x : Site} (hx : x.Obeys Captures Exists) : x.WellScoped := by
  have hsound := hx.sound captures_discipline
  exact ⟨hx.fit, hsound.ok, hsound.returned⟩

end Site

/-- Whatever is done from nothing on, scopes stay well scoped and where they are; so they are at
every moment of one more evaluation, all evaluations within it run in scopes that exist, and the
functions that come out of them capture scopes that exist. -/
theorem scopes_stay_rooted {sink : Sink} {filter : Filter} {st : State}
    (h : State.Steps (.ofSink sink filter) st) :
    st.WellScoped ∧ (∀ st', st.Steps st' → st.OuterKept st') ∧
      ∀ (depth : Nat) (scope : ScopeId) (n : Node), scope < st.heap.size →
        let result := n.run depth scope st
        let site := Site.ofNode depth scope n st
        (∀ v, result.1 = some v → v.Every (Captures result.2)) ∧
        (∀ x, site.Reaches x → x.WellScoped) ∧
        ∀ st', site.Passes st' → st'.WellScoped ∧ st.OuterKept st' := by
  have hst : st.Obeys Captures := (h.advances Heap.Holds.empty).2
  refine ⟨hst.wellScoped, ?_, ?_⟩
  · intro st' hsteps
    exact fun _ _ => (hsteps.advances hst).1.outer_eq
  · intro depth scope n hscope
    have hsite := Site.ofNode_obeys depth n hst hscope
    refine ⟨(n.run_captures depth hst hscope).2, ?_, ?_⟩
    · intro x hreaches
      exact (hreaches.advances captures_discipline hsite).2.wellScoped
    · intro st' hpasses
      have hpassed := hpasses.advances captures_discipline hsite
      have hgrows := (Site.grows_ofNode depth n).trans hpassed.grows
      exact ⟨hpassed.obeys.wellScoped, fun _ _ => hgrows.outer_eq⟩

/-- A function bound in the scope that it captures and in the global one: values go round in a
circle, the chain of scopes does not, nor does that of the scope that a call leaves behind in the
function it yields. -/
theorem scopes_stay_rooted_instance :
    let t : Token := default
    let f : Lambda := .mk t [] (.mk t [])
    let n : Node := .stmt (.bind t ⟨t⟩ (some (.function f)))
    let call : Node := .expr (.call (.function (.mk t [] (.mk t [.expr t (.function f)]))) t [])
    let start := ((State.ofSink .unlimited .silent).newGlobal.2.newScope 0).2
    let bound := (n.run 0 1 start).2
    let st : State := { bound with heap := bound.heap.set 0 "" (.function ⟨0, f, 1⟩) }
    let called := (call.run 1 1 st).2
    State.Steps (.ofSink .unlimited .silent) st ∧ st.WellScoped ∧ called.WellScoped ∧
      called.heap.Chain 2 [2, 1, 0] ∧ (Value.function ⟨2, f, 2⟩).Every (Captures called) := by
  intro t f n call start bound st called
  have hstart : State.Steps (.ofSink .unlimited .silent) start :=
    (Relation.ReflTransGen.single (.newGlobal _)).tail (.newScope Nat.zero_lt_one)
  have hbound := hstart.tail (.run 0 n (Nat.lt_add_one 1))
  have hcaptures : (Value.function ⟨0, f, 1⟩).Every (Captures bound) := by
    rintro g ⟨⟩
    exact Nat.lt_add_one 1
  have hst := hbound.tail (.set 0 "" hcaptures)
  have hcalled := hst.tail (.run 1 call (Nat.lt_add_one 1))
  obtain ⟨hscoped, -, hnext⟩ := scopes_stay_rooted hst
  have hyields := (hnext 1 1 call (Nat.lt_add_one 1)).1
  refine ⟨hst, hscoped, (scopes_stay_rooted hcalled).1, ?_, hyields _ rfl⟩
  exact .within rfl rfl (.within rfl rfl (.global rfl rfl))

/-- Code with function literals nested `k` deep is not too deep for a scope if the chain of the
scope leaves room for it. -/
def Shallow (bound : Nat) (st : State) (scope : ScopeId) (k : Nat) : Prop :=
  ∃ ids, st.heap.Chain scope ids ∧ ids.length + k ≤ bound + 1

def CapturesShallow (bound : Nat) (st : State) (v : Value) : Prop :=
  ∀ f, v = .function f → Shallow bound st f.scope f.literal.nesting

theorem Shallow.grow {bound k : Nat} {st st' : State} {scope : ScopeId} (hg : Grows st st')
    (h : Shallow bound st scope k) : Shallow bound st' scope k := by
  obtain ⟨ids, hids, hlength⟩ := h
  exact ⟨ids, hids.imp hg.outer_eq, hlength⟩

/-- The scope of a call is one deeper than the captured one, the body of the function one less deep
than its literal. -/
theorem Shallow.enter {bound : Nat} {st : State} {f : Closure}
    (h : Shallow bound st f.scope f.literal.nesting) :
    Shallow bound { st with heap := st.heap.push (some f.scope) } st.heap.size
      f.literal.body.nesting := by
  obtain ⟨ids, hids, hlength⟩ := h
  have hnew : (st.heap.push (some f.scope)).scopes[st.heap.size]? = some ⟨[], some f.scope⟩ := by
    simp [Heap.getElem?_push]
  have houter := hids.imp (Grows.push st (some f.scope)).outer_eq
  refine ⟨st.heap.size :: ids, .within hnew rfl houter, ?_⟩
  rw [Lambda.nesting_eq] at hlength
  simp only [List.length_cons]
  omega

theorem shallow_discipline (bound : Nat) : Discipline (CapturesShallow bound) (Shallow bound) where
  grow hg hv f hf := (hv f hf).grow hg
  fit_grow hg hscope := hscope.grow hg
  narrow hle hscope := by
    obtain ⟨ids, hids, hlength⟩ := hscope
    exact ⟨ids, hids, Nat.le_trans (Nat.add_le_add_left hle _) hlength⟩
  plain hv f hf := absurd hf (hv.ne_function f)
  close hscope f hf := by
    obtain rfl := Value.function.inj hf
    exact hscope
  captured hf := by
    obtain ⟨ids, hids, -⟩ := hf _ rfl
    exact hids.lt_size
  enter hf := (hf _ rfl).enter

/-- While programs run one after the other in a fresh global scope, no scope ever made is further
from the global one than function literals are nested in the programs. -/
theorem chains_follow_nesting (sink : Sink) (filter : Filter) (ps : List (Nat × Program))
    (st : State) :
    let fresh := (State.ofSink sink filter).newGlobal
    Program.Moment fresh.1 ps fresh.2 st → ∀ id < st.heap.size,
      ∃ ids, st.heap.Chain id ids ∧ ids.length ≤ Program.nestingAll ps + 1 := by
  intro fresh hmoment id hid
  have hobeys : fresh.2.Obeys (CapturesShallow (Program.nestingAll ps)) :=
    Heap.Holds.empty.push nofun
  have hglobal : Shallow (Program.nestingAll ps) fresh.2 0 (Program.nestingAll ps) :=
    ⟨[0], .global rfl rfl, by simp [Nat.add_comm]⟩
  have hadvances := hmoment.advances (shallow_discipline _) hobeys hglobal
  have hshallow : Shallow (Program.nestingAll ps) st id 0 := by
    by_cases hzero : id = 0
    · rw [hzero]
      exact (shallow_discipline _).narrow (Nat.zero_le _) (hglobal.grow hadvances.grows)
    · exact hadvances.adds st (.refl st) id (Nat.pos_of_ne_zero hzero) hid
  exact hshallow

/-- A function that calls itself: the scope of the inner call is within the global scope, not within
that of the outer call. -/
theorem chains_follow_nesting_instance :
    let t : Token := default
    let x : Token := { t with text := "x" }
    let again : Block := .mk t [.expr t (.call (.ident ⟨t⟩) t [.boolean t false])]
    let f : Lambda := .mk t [⟨x⟩] (.mk t [.expr t (.cond t (.ident ⟨x⟩) again none)])
    let first : Program := ⟨[.bind t ⟨t⟩ (some (.function f))]⟩
    let second : Program := ⟨[.expr t (.call (.ident ⟨t⟩) t [.boolean t true])]⟩
    let ps := [(0, first), (2, second)]
    let st := Program.runAll 0 ps (State.ofSink .unlimited .silent).newGlobal.2
    st.heap.scopes.map Scope.outer = #[none, some 0, some 0] ∧ Program.nestingAll ps = 1 ∧
      ∃ ids, st.heap.Chain 2 ids ∧ ids.length ≤ 2 := by
  intro t x again f first second ps st
  have houter : st.heap.scopes.map Scope.outer = #[none, some 0, some 0] := by decide +kernel
  have hsize : 2 < st.heap.size := by
    have hlength := congrArg Array.size houter
    rw [Array.size_map] at hlength
    exact Nat.lt_of_lt_of_eq (Nat.lt_add_one 2) hlength.symm
  have hmoment : Program.Moment 0 ps (State.ofSink .unlimited .silent).newGlobal.2 st :=
    .after (.after (.start [] st))
  exact ⟨houter, rfl, chains_follow_nesting .unlimited .silent ps st hmoment 2 hsize⟩

end Monkey
