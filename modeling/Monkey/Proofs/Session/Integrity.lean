import Monkey.Proofs.Eval.Moments
import Monkey.Proofs.Eval.Repeat

/-!
The values of a session. Programs that run one after the other in one global scope bind and yield
proper values only: what wraps the end of an evaluation is never within a value, and hashes have
their entries filed. This holds whenever one of the programs is looked at while it runs, and it does
not matter how the programs before it have ended.
-/

namespace Monkey

/-- Not one of the wrappers around what ended an evaluation; the entries of a hash are filed. -/
def Value.Proper : Value → Prop
  | .returned _ | .error _ => False
  | .hash es => Entry.Filed es
  | _ => True

def State.Proper (st : State) : Prop :=
  ∀ (id : ScopeId) (s : Scope), st.heap.scopes[id]? = some s →
    ∀ b ∈ s.bindings, b.2.Every Value.Proper

/-- The result of a program: proper all the way down, or an error and nothing around it. -/
def Value.ProperResult (v : Value) : Prop := v.Every Value.Proper ∨ ∃ e, v = .error e

theorem Value.Plain.proper {v : Value} (h : v.Plain) : v.Proper := by
  cases v with
  | function _ | returned _ | error _ => exact False.elim h
  | hash es => exact h
  | _ => trivial

section Discipline

variable {P : State → Value → Prop} {Fit : State → ScopeId → Nat → Prop}

/-- A property that does not depend on the state, and that functions have, comes for free. -/
theorem Discipline.and (h : Discipline P Fit) {Q : Value → Prop} (hplain : ∀ {v}, v.Plain → Q v)
    (hfunction : ∀ f, Q (.function f)) : Discipline (fun st v => P st v ∧ Q v) Fit where
  grow hg hv := ⟨h.grow hg hv.1, hv.2⟩
  fit_grow := h.fit_grow
  narrow := h.narrow
  plain hv := ⟨h.plain hv, hplain hv⟩
  close hfit := ⟨h.close hfit, hfunction _⟩
  captured hf := h.captured hf.1
  enter hf := h.enter hf.1

end Discipline

theorem proper_discipline :
    Discipline (fun st v => Made st v ∧ v.Proper) fun st scope _ => scope < st.heap.size :=
  made_discipline.and Value.Plain.proper fun _ => trivial

theorem State.Obeys.proper {st : State} (h : st.Obeys fun st v => Made st v ∧ v.Proper) :
    st.Proper := fun _ _ hs b hb => (h.bound hs b hb).imp (fun _ hv => hv.2) _

/-- In a session of programs in a fresh global scope, over any sink and whatever they came to: the
values bound in any scope are proper, after the programs as well as in every state that one more
program passes through, and that program yields a proper result. -/
theorem session_values_proper (sink : Sink) (filter : Filter) (earlier : List (Nat × Program))
    (depth : Nat) (p : Program) :
    let fresh := (State.ofSink sink filter).newGlobal
    let st := Program.runAll fresh.1 earlier fresh.2
    st.Proper ∧ (∀ st', (Site.ofProgram depth fresh.1 p st).Passes st' → st'.Proper) ∧
      ∀ v, (p.run depth fresh.1 st).1 = some v → v.ProperResult := by
  intro fresh st
  have hfresh : fresh.2.Obeys fun st v => Made st v ∧ v.Proper := Heap.Holds.empty.push nofun
  obtain ⟨hst, hfit⟩ := Program.runAll_obeys proper_discipline earlier hfresh Nat.zero_lt_one
  refine ⟨hst.proper, fun st' hpasses => ?_, fun v hv => ?_⟩
  · have hsite := Site.ofProgram_obeys proper_discipline depth p hst hfit
    exact (hpasses.obeys proper_discipline hsite).proper
  · rcases Program.run_yields proper_discipline hst hfit hv with hv | herror
    · exact .inl (hv.imp (fun _ hw => hw.2) v)
    · exact .inr herror

/-- After a program that binds a hash with a repeated key and one that fails: a call, looked at when
its argument has been bound, that returns a hash. -/
theorem session_values_proper_instance :
    let t : Token := default
    let pairs : Expr := .hash t [(.integer t 1, .integer t 2), (.integer t 1, .boolean t true)]
    let first : Program := ⟨[.bind t ⟨t⟩ (some pairs)]⟩
    let second : Program := ⟨[.expr t (.unary .neg t (.boolean t true))]⟩
    let f : Lambda := .mk t [⟨t⟩] (.mk t [.ret t (some pairs)])
    let p : Program := ⟨[.expr t (.call (.function f) t [pairs])]⟩
    let st := Program.runAll 0 [(0, first), (0, second)] (State.ofSink .unlimited .silent).newGlobal.2
    let value : Value := .hash [.mk ⟨.integer, 1⟩ (.integer 1) (.boolean true)]
    let bound : State := { st with
      functions := 1, heap := (st.heap.push (some 0)).setAll st.heap.size [("", value)] }
    st.Proper ∧ bound.Proper ∧ (p.run 1 0 st).1 = some value ∧ value.ProperResult := by
  intro t pairs first second f p st value bound
  have hproper : st.Proper ∧ (∀ st', (Site.ofProgram 1 0 p st).Passes st' → st'.Proper) ∧
      ∀ v, (p.run 1 0 st).1 = some v → v.ProperResult :=
    session_values_proper .unlimited .silent [(0, first), (0, second)] 1 p
  -- What the first two programs have left behind, computed once.
  let left : State := ⟨⟨#[⟨[("", value)], none⟩]⟩, 0, .unlimited, .ofFilter .silent⟩
  have hst : st = left := rfl
  clear_value st
  subst hst
  have hlisted := @Site.Opens.part 1 0 left left .stmt .stmts (.listed [] [])
    (.expr t (.call (.function f) t [pairs])) ⟨.null, left, rfl, rfl⟩
  have hsole := @Site.Opens.part 1 0 left left .expr .stmt (.sole t) (.call (.function f) t [pairs]) rfl
  have hreaches : Site.Reaches _ _ :=
    (Relation.ReflTransGen.single (.inl hlisted)).tail (.inl hsole)
  have hpasses : (Site.ofProgram 1 0 p left).Passes bound :=
    @Site.Passes.binding _ 0 0 left _ _ (.function f) t [pairs] ⟨0, f, 0⟩ [value] 1 hreaches rfl rfl rfl
  have hrun : (p.run 1 0 left).1 = some value := rfl
  exact ⟨hproper.1, hproper.2.1 bound hpasses, hrun, hproper.2.2 value hrun⟩

end Monkey
