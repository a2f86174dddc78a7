import Monkey.Proofs.Eval.Compositional
import Monkey.Proofs.Eval.Layout
import Monkey.Proofs.Session.Integrity

/-!
Statement by statement. A program can be evaluated as a whole or one statement after the other, each
of them as a node of its own whose result shows a `return` or a failure as a value. The two agree
because such values come up as results of nodes only: no scope holds one, so a result that looks
like a signal is one. They differ in what the journal says, which evaluation takes no notice of.
-/

namespace Monkey

structure ButJournal (st st' : State) : Prop where
  heap : st.heap = st'.heap
  functions : st.functions = st'.functions
  sink : st.sink = st'.sink

/-- What `x` comes to, and what it does to the rest of the state, does not depend on the journal. -/
def Unheeding {α : Type} (x : Eval α) : Prop :=
  ∀ st st' : State, ButJournal st st' → (x st).1 = (x st').1 ∧ ButJournal (x st).2 (x st').2

namespace ButJournal

theorem refl (st : State) : ButJournal st st := ⟨rfl, rfl, rfl⟩

theorem setJournal {st st' : State} (h : ButJournal st st') (journal : Journal) :
    ButJournal st { st' with journal } := ⟨h.heap, h.functions, h.sink⟩

theorem exists_journal {st st' : State} (h : ButJournal st st') :
    ∃ journal, st' = { st with journal } := by
  obtain ⟨heap, functions, sink, journal⟩ := st'
  obtain ⟨rfl, rfl, rfl⟩ := h
  exact ⟨journal, rfl⟩

end ButJournal

namespace Unheeding

open Monkey.Action

variable {α β : Type}

theorem of_setJournal {x : Eval α}
    (h : ∀ st journal, (x { st with journal }).1 = (x st).1 ∧
      ButJournal (x st).2 (x { st with journal }).2) : Unheeding x := by
  intro st st' hst
  obtain ⟨journal, rfl⟩ := hst.exists_journal
  exact ⟨(h st journal).1.symm, (h st journal).2⟩

theorem bind {x : Eval α} {f : α → Eval β} (hx : Unheeding x) (hf : ∀ a, Unheeding (f a)) :
    Unheeding (x >>= f) := by
  intro st st' h
  obtain ⟨houtcome, hmid⟩ := hx st st' h
  rcases hst : x st with ⟨s | a, mid⟩ <;> rcases hst' : x st' with ⟨s' | a', mid'⟩
  all_goals
    rw [hst, hst'] at houtcome hmid
    cases houtcome
  · rw [bind_of_error hst, bind_of_error hst']
    exact ⟨rfl, hmid⟩
  · rw [bind_of_ok hst, bind_of_ok hst']
    exact hf a mid mid' hmid

theorem catchReturn {x : Eval Value} (hx : Unheeding x) : Unheeding (Eval.catchReturn x) := by
  intro st st' h
  obtain ⟨houtcome, hmid⟩ := hx st st' h
  refine ⟨?_, ?_⟩
  · unfold Eval.catchReturn
    rcases hst : x st with ⟨(v | e | _) | v, mid⟩ <;> rcases hst' : x st' with ⟨o', mid'⟩
    all_goals
      rw [hst, hst'] at houtcome
      cases houtcome
      rfl
  · rw [Eval.catchReturn_snd, Eval.catchReturn_snd]
    exact hmid

end Unheeding

theorem unheeding_compositional : Compositional fun _ x => Unheeding x where
  pure _ _ _ h := ⟨rfl, h⟩
  bind := .bind
  stop _ _ _ h := ⟨rfl, h⟩
  catchReturn := .catchReturn
  record _ := .of_setJournal fun _ _ => ⟨rfl, ⟨rfl, rfl, rfl⟩⟩
  writeLine text := by
    refine .of_setJournal fun st journal => ?_
    unfold Eval.writeLine Action.write
    dsimp only
    rcases st.sink.write (text ++ "\n") with ⟨_ | _, sink⟩
    · exact ⟨rfl, (ButJournal.refl _).setJournal journal⟩
    · exact ⟨rfl, (ButJournal.refl _).setJournal journal⟩
  lookUp scope name := by
    refine .of_setJournal fun st journal => ?_
    unfold Eval.lookUp
    dsimp only
    cases st.heap.find? .outwards name scope with
    | some v => exact ⟨rfl, (ButJournal.refl st).setJournal journal⟩
    | none => cases Builtin.ofName? name <;> exact ⟨rfl, (ButJournal.refl st).setJournal journal⟩
  define _ _ _ := .of_setJournal fun _ _ => ⟨rfl, ⟨rfl, rfl, rfl⟩⟩
  close _ _ := .of_setJournal fun _ _ => ⟨rfl, ⟨rfl, rfl, rfl⟩⟩
  enter _ _ := .of_setJournal fun _ _ => ⟨rfl, ⟨rfl, rfl, rfl⟩⟩

theorem Stmt.eval_unheeding (depth : Nat) (scope : ScopeId) (s : Stmt) :
    Unheeding (s.eval (Closure.call depth) scope) :=
  Stmt.eval_has unheeding_compositional (Closure.call_has unheeding_compositional depth) s

def Value.Wraps (v : Value) : Prop := v.kind = .returned ∨ v.kind = .error

instance (v : Value) : Decidable v.Wraps := inferInstanceAs (Decidable (_ ∨ _))

def Value.unwrapped : Value → Value
  | .returned v => v
  | v => v

/-- Evaluates statements one by one, each as a node of its own, up to the first result that wraps a
`return` or a failure. The result is the last one; `last` is what it is so far. -/
def Node.runStmts (depth : Nat) (scope : ScopeId) (last : Value) :
    List Stmt → State → Option Value × State
  | [], st => (some last, st)
  | s :: ss, st =>
    match (Node.stmt s).run depth scope st with
    | (some v, st') => if v.Wraps then (some v, st') else runStmts depth scope v ss st'
    | (none, st') => (none, st')

theorem Value.unwrapped_eq_self {v : Value} (h : ¬v.Wraps) : v.unwrapped = v := by
  cases v with
  | returned w => exact (h (.inl rfl)).elim
  | _ => rfl

theorem Value.Every.not_wraps {v : Value} (h : v.Every Value.Proper) : ¬v.Wraps := by
  rintro (hk | hk)
  · cases v with
    | returned w => exact h.1
    | _ => cases hk
  · cases v with
    | error e => exact h
    | _ => cases hk

/-- The state is as in a session, where no binding holds what could be taken for a signal, and the
scope is one of its scopes. -/
structure Settled (scope : ScopeId) (st : State) : Prop where
  obeys : st.Obeys fun st v => Made st v ∧ v.Proper
  scope_lt : scope < st.heap.size

section Series

variable {depth : Nat} {scope : ScopeId} {last : Value} {s : Stmt} {ss : List Stmt}
  {st mid : State}

theorem Settled.setJournal (h : Settled scope st) (journal : Journal) :
    Settled scope { st with journal } := ⟨h.obeys, h.scope_lt⟩

/-- No value that evaluation yields is taken for a signal, and the state stays settled. -/
theorem Settled.of_sound {Fit : State → ScopeId → Nat → Prop} {r : Except Signal Value × State}
    (hst : Settled scope st)
    (h : Sound (fun st v => Made st v ∧ v.Proper) Fit
      (Values fun st v => Made st v ∧ v.Proper) st r) :
    Settled scope r.2 ∧ ∀ v, r.1 = .ok v → ¬v.Wraps := by
  refine ⟨⟨h.obeys, Nat.lt_of_lt_of_le hst.scope_lt h.grows.size_le⟩, fun v hv => ?_⟩
  exact ((h.ok v hv).imp (fun _ hw => hw.2) v).not_wraps

theorem Node.runStmts_cons_of_error {sig : Signal}
    (h : s.eval (Closure.call depth) scope st = (.error sig, mid)) :
    Node.runStmts depth scope last (s :: ss) st = (sig.toNodeResult, mid) := by
  have hnode : (Node.stmt s).run depth scope st = (sig.toNodeResult, mid) := congrArg outcome h
  unfold Node.runStmts
  rw [hnode]
  cases sig with
  | returned v => exact if_pos (.inl rfl)
  | failed e => exact if_pos (.inr rfl)
  | tooDeep => rfl

theorem Node.runStmts_cons_of_ok {v : Value} (hv : ¬v.Wraps)
    (h : s.eval (Closure.call depth) scope st = (.ok v, mid)) :
    Node.runStmts depth scope last (s :: ss) st = Node.runStmts depth scope v ss mid := by
  have hnode : (Node.stmt s).run depth scope st = (some v, mid) := congrArg outcome h
  rw [Node.runStmts, hnode]
  exact if_neg hv

end Series

/-- A series of statements comes to what they come to together, taken as one node. -/
theorem Node.runStmts_agrees {depth : Nat} {scope : ScopeId} {st st' : State} (s : Stmt)
    (ss : List Stmt) (last : Value) (hst : Settled scope st) (hsame : ButJournal st st') :
    let steps := Node.runStmts depth scope last (s :: ss) st
    let whole := Stmt.evalAll (Closure.call depth) scope (s :: ss) st'
    steps.1 = (Node.outcome whole).1 ∧ ButJournal steps.2 whole.2 := by
  -- A list of statements records each of them first, which a statement on its own does not.
  obtain ⟨houtcome, hmid⟩ := s.eval_unheeding depth scope st (st'.record (.statement s))
    (hsame.setJournal _)
  obtain ⟨hsettled, hplain⟩ := hst.of_sound <|
    s.eval_sound proper_discipline (Closure.call_follows proper_discipline depth) st hst.obeys
      hst.scope_lt
  rcases hstep : s.eval (Closure.call depth) scope st with ⟨sig | v, mid⟩ <;>
    rcases hstep' : s.eval (Closure.call depth) scope (st'.record (.statement s)) with ⟨o, mid'⟩
  all_goals
    rw [hstep, hstep'] at houtcome hmid
    rw [hstep] at hsettled hplain
    subst houtcome
  · rw [Node.runStmts_cons_of_error hstep, Stmt.evalAll_cons_error hstep']
    exact ⟨rfl, hmid⟩
  · rw [Node.runStmts_cons_of_ok (hplain v rfl) hstep]
    -- The value of a list is that of its last statement, so the recursion stops at a list of one.
    cases ss with
    | nil =>
      have hwhole : Stmt.evalAll (Closure.call depth) scope [s] st' = (.ok v, mid') := hstep'
      rw [hwhole]
      exact ⟨rfl, hmid⟩
    | cons t ss =>
      have hwhole : Stmt.evalAll (Closure.call depth) scope (s :: t :: ss) st' =
        Stmt.evalAll (Closure.call depth) scope (t :: ss) mid' := Action.bind_of_ok hstep' _
      rw [hwhole]
      exact Node.runStmts_agrees t ss v hsettled hmid
termination_by structural ss

theorem resultOf_eq_unwrapped {r : Except Signal Value × State} (h : ∀ v, r.1 = .ok v → ¬v.Wraps) :
    resultOf r.1 = (Node.outcome r).1.map Value.unwrapped := by
  rcases r with ⟨(v | e | _) | v, st⟩
  · rfl
  · rfl
  · rfl
  · exact congrArg some (Value.unwrapped_eq_self (h v rfl)).symm

/-- A program comes to what its statements come to one by one, but for the wrapper. -/
theorem Program.run_stepwise {scope : ScopeId} {st : State} (depth : Nat) (p : Program)
    (hst : Settled scope st) :
    let steps := Node.runStmts depth scope .null p.statements st
    (p.run depth scope st).1 = steps.1.map Value.unwrapped ∧
      ButJournal steps.2 (p.run depth scope st).2 := by
  intro steps
  let start := st.record (.evaluating p.statements.length)
  let whole := Stmt.evalAll (Closure.call depth) scope p.statements start
  have hsame : ButJournal st start := (ButJournal.refl st).setJournal _
  have hagree : steps.1 = (Node.outcome whole).1 ∧ ButJournal steps.2 whole.2 := by
    obtain ⟨_ | ⟨s, ss⟩⟩ := p
    · exact ⟨rfl, hsame⟩
    · exact Node.runStmts_agrees s ss .null hst hsame
  have hstart : Settled scope start := hst.setJournal _
  have hplain := (hstart.of_sound <| Stmt.evalAll_sound proper_discipline
    (Closure.call_follows proper_discipline depth) p.statements start hstart.obeys
      hstart.scope_lt).2
  obtain ⟨journal, hrun⟩ := p.run_eq depth scope st
  rw [hrun, hagree.1]
  exact ⟨resultOf_eq_unwrapped hplain, hagree.2.setJournal journal⟩

/-- In a state that is not settled, a name can stand for what looks like the end of a program. -/
example :
    let name : Token := ⟨.identifier, "x", default⟩
    let p : Program := ⟨[.expr name (.ident ⟨name⟩), .expr default (.integer default 2)]⟩
    let st : State := { State.ofSink .unlimited .silent with
      heap := ⟨#[⟨[("x", .returned (.integer 1))], none⟩]⟩ }
    (p.run 0 0 st).1.map Value.inspect = some "2" ∧
      (Node.runStmts 0 0 .null p.statements st).1.map Value.inspect = some "1" := by
  decide +kernel

/-- In a session of programs in a fresh global scope, over any sink and whatever they came to, one
more program evaluated as a whole and its statements evaluated one by one, up to the first result
that wraps a `return` or a failure, come to the same: to the same result but for the wrapper around
a returned value, to the same scopes and functions and to the same output. -/
theorem stepwise_agrees_with_program (sink : Sink) (filter : Filter)
    (earlier : List (Nat × Program)) (depth : Nat) (p : Program) :
    let fresh := (State.ofSink sink filter).newGlobal
    let st := Program.runAll fresh.1 earlier fresh.2
    let whole := p.run depth fresh.1 st
    let steps := Node.runStmts depth fresh.1 .null p.statements st
    whole.1 = steps.1.map Value.unwrapped ∧ steps.2.heap = whole.2.heap ∧
      steps.2.functions = whole.2.functions ∧ steps.2.sink = whole.2.sink := by
  intro fresh st whole steps
  have hfresh : fresh.2.Obeys fun st v => Made st v ∧ v.Proper := Heap.Holds.empty.push nofun
  obtain ⟨hobeys, hscope⟩ := Program.runAll_obeys proper_discipline earlier hfresh Nat.zero_lt_one
  obtain ⟨hresult, hend⟩ := p.run_stepwise depth ⟨hobeys, hscope⟩
  exact ⟨hresult, hend.heap, hend.functions, hend.sink⟩

end Monkey
