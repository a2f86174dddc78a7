import Mathlib.Data.Set.Function
import Mathlib.Order.Interval.Set.Defs
import Monkey.Proofs.Eval.Frame
import Monkey.Proofs.Eval.Invariant
import Monkey.Proofs.Eval.Mirror

/-!
Closures carry no state of their own. A call changes no scope that existed before it, so a second
call finds everything the first one could see; what it finds beside that are the scopes and
functions the first call has made, and it makes its own. The two calls mirror each other under the
renaming that shifts the numbers of what was made.
-/

namespace Monkey

def Made (st : State) (v : Value) : Prop :=
  ∀ f, v = .function f → f.id < st.functions ∧ f.scope < st.heap.size

/-- As `Made`, and what had been numbered in `base` captures a scope of `base`. -/
def MadeSince (base st : State) (v : Value) : Prop :=
  Made st v ∧ ∀ f, v = .function f →
    Grows base st ∧ (f.id < base.functions → f.scope < base.heap.size)

theorem made_discipline : Discipline Made fun st scope _ => scope < st.heap.size where
  grow hg hv f hf := by
    obtain ⟨hid, hscope⟩ := hv f hf
    exact ⟨Nat.lt_of_lt_of_le hid hg.functions_le, Nat.lt_of_lt_of_le hscope hg.size_le⟩
  fit_grow hg hscope := Nat.lt_of_lt_of_le hscope hg.size_le
  narrow _ hscope := hscope
  plain hv f hf := absurd hf (hv.ne_function f)
  close hscope f hf := by
    obtain rfl := Value.function.inj hf
    exact ⟨Nat.lt_succ_self _, hscope⟩
  captured hf := (hf _ rfl).2
  enter hf := by simp

theorem madeSince_discipline (base : State) :
    Discipline (MadeSince base) fun st scope _ => Grows base st ∧ scope < st.heap.size where
  grow hg hv := by
    refine ⟨made_discipline.grow hg hv.1, fun f hf => ?_⟩
    obtain ⟨hbase, hold⟩ := hv.2 f hf
    exact ⟨hbase.trans hg, hold⟩
  fit_grow hg hscope := ⟨hscope.1.trans hg, Nat.lt_of_lt_of_le hscope.2 hg.size_le⟩
  narrow _ hscope := hscope
  plain hv := ⟨made_discipline.plain hv, fun f hf => absurd hf (hv.ne_function f)⟩
  close hscope := by
    refine ⟨made_discipline.close hscope.2, fun f hf => ?_⟩
    obtain rfl := Value.function.inj hf
    refine ⟨hscope.1.trans (.of_heap_eq rfl (Nat.le_succ _)), fun hid => ?_⟩
    exact absurd hid (Nat.not_lt.mpr hscope.1.functions_le)
  captured hf := (hf.1 _ rfl).2
  enter hf := by
    refine ⟨(hf.2 _ rfl).1.trans (.push _ _), ?_⟩
    simp

/-- States after programs have run in a fresh global scope, and values been called, over an
unlimited sink. -/
inductive Reached : ScopeId → State → Prop where
  | fresh (filter : Filter) :
      Reached (State.ofSink .unlimited filter).newGlobal.1
        (State.ofSink .unlimited filter).newGlobal.2
  | run {global : ScopeId} {st : State} (depth : Nat) (p : Program) :
      Reached global st → Reached global (p.run depth global st).2
  | apply {global : ScopeId} {st : State} (depth : Nat) {callee : Value} {args : List Value} :
      Reached global st → callee.Every (Made st) → (∀ v ∈ args, v.Every (Made st)) →
      Reached global (callee.apply (Closure.call depth) args st).2

theorem limit_allows (scope : ScopeId) :
    Allows (fun st st' => st'.sink.limit = st.sink.limit) scope fun _ => True where
  refl _ := rfl
  trans h h' := h'.trans h
  record _ _ := rfl
  write st text := by
    unfold Sink.write
    split <;> rfl
  number _ := rfl
  define _ _ _ _ := rfl

theorem call_limit (depth : Nat) (f : Closure) (args : List Value) :
    Action.Keeps (fun st st' => st'.sink.limit = st.sink.limit) (Closure.call depth f args) :=
  Closure.call_keeps limit_allows (fun _ _ _ => rfl) depth f args

structure WellMade (global : ScopeId) (st : State) : Prop where
  obeys : st.Obeys Made
  global_lt : global < st.heap.size
  limit : st.sink.limit = none

theorem Reached.wellMade {global : ScopeId} {st : State} (h : Reached global st) :
    WellMade global st := by
  induction h with
  | fresh filter =>
    exact ⟨Heap.Holds.empty.push nofun, Nat.zero_lt_one, rfl⟩
  | @run global st depth p _ ih =>
    obtain ⟨hgrow, hobeys, -⟩ := Program.run_advances made_discipline depth p ih.obeys ih.global_lt
    have hlimit := p.run_keeps (limit_allows global) (call_limit depth) (fun _ _ => trivial) st
    exact ⟨hobeys, Nat.lt_of_lt_of_le ih.global_lt hgrow.size_le, hlimit.trans ih.limit⟩
  | @apply global st depth callee args _ hcallee hargs ih =>
    have hsound := made_discipline.apply (Closure.call_follows made_discipline depth) ih.obeys
      hcallee hargs
    have hlimit := (limit_allows global).apply (call_limit depth) callee args st
    exact ⟨hsound.obeys, Nat.lt_of_lt_of_le ih.global_lt hsound.grows.size_le,
      hlimit.trans ih.limit⟩

def moveFrom (n k i : Nat) : Nat := if i < n then i else i + k

theorem moveFrom_of_lt {n k i : Nat} (h : i < n) : moveFrom n k i = i := if_pos h

theorem moveFrom_of_le {n k i : Nat} (h : n ≤ i) : moveFrom n k i = i + k :=
  if_neg (Nat.not_lt.mpr h)

theorem moveFrom_lt_iff {n k i j : Nat} : moveFrom n k i < moveFrom n k j ↔ i < j := by
  unfold moveFrom
  split <;> split <;> omega

theorem moveFrom_injective (n k : Nat) : Function.Injective (moveFrom n k) := by
  intro i j h
  unfold moveFrom at h
  split at h <;> split at h <;> omega

theorem moveFrom_bijOn {n m k : Nat} (hm : m = n + k) :
    Set.BijOn (moveFrom n k) (Set.Ico n m) (Set.Ico m (m + k)) := by
  refine ⟨fun i hi => ?_, (moveFrom_injective n k).injOn, fun j hj => ?_⟩
  · rw [moveFrom_of_le hi.1]
    exact ⟨by have := hi.1; omega, by have := hi.2; omega⟩
  · refine ⟨j - k, ⟨?_, ?_⟩, ?_⟩
    · have := hj.1
      omega
    · have := hj.2
      omega
    · have := hj.1
      rw [moveFrom_of_le (by omega)]
      omega

def Renaming.shift (base st : State) : Renaming where
  scope := moveFrom base.heap.size (st.heap.size - base.heap.size)
  function := moveFrom base.functions (st.functions - base.functions)

theorem Renaming.shift_faithful (base st : State) : (shift base st).Faithful where
  scope_lt_iff := moveFrom_lt_iff
  function_injective := moveFrom_injective _ _

theorem Renaming.shift_fixes {base st : State} {v : Value} (h : v.Every (Made base)) :
    v.Every (shift base st).Fixes := by
  refine h.imp (fun v hv f hf => ?_) v
  obtain ⟨hid, hscope⟩ := hv f hf
  exact ⟨moveFrom_of_lt hid, moveFrom_of_lt hscope⟩

/-- A state in which all functions exist mirrors each state that it has grown to untouched. -/
theorem mirrors_shift {st st' : State} (hobeys : st.Obeys Made) (hlimit : st.sink.limit = none)
    (hlimit' : st'.sink.limit = none) (hgrow : Grows st st') (hsame : Untouched st st') :
    Mirrors (.shift st st') st.sink.bytes st'.sink.bytes st st' where
  scope_next i := by
    have hle := hgrow.size_le
    have hmoved := @moveFrom_of_le st.heap.size (st'.heap.size - st.heap.size) (st.heap.size + i)
      (Nat.le_add_right _ _)
    exact hmoved.trans (by omega)
  function_next i := by
    have hle := hgrow.functions_le
    have hmoved := @moveFrom_of_le st.functions (st'.functions - st.functions) (st.functions + i)
      (Nat.le_add_right _ _)
    exact hmoved.trans (by omega)
  scopes i := by
    by_cases hi : i < st.heap.size
    · have hkept : (Renaming.shift st st').scope i = i := moveFrom_of_lt hi
      rw [hkept, hsame.scope_eq i hi]
      cases hs : st.heap.scopes[i]? with
      | none => rfl
      | some s =>
        have hfix : s.rename (.shift st st') = s := by
          refine s.rename_eq_self (fun b hb => ?_) fun o ho => ?_
          · exact Renaming.shift_fixes (hobeys.bound hs b hb)
          · exact moveFrom_of_lt (Nat.lt_trans (hobeys.outer_lt hs ho) hi)
        rw [Option.map_some, hfix]
    · have hle : st.heap.size ≤ i := Nat.not_lt.mp hi
      have hmoved : (Renaming.shift st st').scope i = i + (st'.heap.size - st.heap.size) :=
        moveFrom_of_le hle
      have hout : st'.heap.size ≤ i + (st'.heap.size - st.heap.size) := by omega
      rw [hmoved, Array.getElem?_eq_none hout, Array.getElem?_eq_none hle]
      rfl
  limit := hlimit
  limit' := hlimit'
  output := ⟨.empty, ByteArray.append_empty.symm, ByteArray.append_empty.symm⟩

theorem Made.since {st : State} {v : Value} (h : Made st v) : MadeSince st st v :=
  ⟨h, fun f hf => ⟨.refl st, fun _ => (h f hf).2⟩⟩

theorem Value.every_since {st : State} {v : Value} (h : v.Every (Made st)) :
    v.Every (MadeSince st st) := h.imp (fun _ => Made.since) v

/-- A call from `st` that ended in `st₁` with `o`, and one from `st₁` that ended in `st₂` with `o'`,
are the same up to the renaming `ρ` of what they have made. -/
structure Repeats (ρ : Renaming) (st st₁ st₂ : State) (o o' : Except Signal Value) : Prop where
  outcome : o' = renameOutcome ρ (Value.rename ρ) o
  finishes : o ≠ .error .tooDeep → o' ≠ .error .tooDeep
  output : ∃ w, st₁.sink.bytes = st.sink.bytes ++ w ∧ st₂.sink.bytes = st₁.sink.bytes ++ w
  old_scope : ∀ i < st.heap.size, ρ.scope i = i
  old_function : ∀ i < st.functions, ρ.function i = i
  new_scope : Set.BijOn ρ.scope (Set.Ico st.heap.size st₁.heap.size)
    (Set.Ico st₁.heap.size st₂.heap.size)
  new_function : Set.BijOn ρ.function (Set.Ico st.functions st₁.functions)
    (Set.Ico st₁.functions st₂.functions)
  scopes : ∀ i < st₁.heap.size,
    st₂.heap.scopes[ρ.scope i]? = st₁.heap.scopes[i]?.map (Scope.rename ρ)
  same : ∀ v, o = .ok v → v.Every (fun w => ∀ f, w = .function f → f.id < st.functions) →
    o' = .ok v

theorem renameOutcome_ne_tooDeep {ρ : Renaming} {o : Except Signal Value}
    (h : o ≠ .error .tooDeep) : renameOutcome ρ (Value.rename ρ) o ≠ .error .tooDeep := by
  rcases o with (_ | _ | _) | _
  · nofun
  · nofun
  · exact absurd rfl h
  · nofun

/-- A value that holds no function made after `st` is left alone by the shift from `st` on. -/
theorem Value.rename_shift_eq_self {st st' : State} {v : Value}
    (hv : v.Every (MadeSince st st'))
    (hold : v.Every fun w => ∀ f, w = .function f → f.id < st.functions) :
    v.rename (.shift st st') = v := by
  refine v.rename_eq_self ((hv.and v hold).imp (fun w hw f hf => ?_) v)
  have hid := hw.2 f hf
  exact ⟨moveFrom_of_lt hid, moveFrom_of_lt ((hw.1.2 f hf).2 hid)⟩

/-- Mirroring states that one call has grown to: the first call ends in `st₁`, the second in `st₂`.
-/
theorem Mirrors.repeats {st st₁ st₂ : State} {o : Except Signal Value}
    (h : Mirrors (.shift st st₁) st.sink.bytes st₁.sink.bytes st₁ st₂) (hgrow : Grows st st₁)
    (hmade : ∀ v, o = .ok v → v.Every (MadeSince st st₁)) :
    Repeats (.shift st st₁) st st₁ st₂ o
      (renameOutcome (.shift st st₁) (Value.rename (.shift st st₁)) o) where
  outcome := rfl
  finishes := renameOutcome_ne_tooDeep
  output := h.output
  old_scope _ hi := moveFrom_of_lt hi
  old_function _ hi := moveFrom_of_lt hi
  new_scope := by
    have hle := hgrow.size_le
    have hend : st₁.heap.size + (st₁.heap.size - st.heap.size) = st₂.heap.size :=
      (moveFrom_of_le hle).symm.trans (h.scope_next 0)
    exact hend ▸ moveFrom_bijOn (by omega)
  new_function := by
    have hle := hgrow.functions_le
    have hend : st₁.functions + (st₁.functions - st.functions) = st₂.functions :=
      (moveFrom_of_le hle).symm.trans (h.function_next 0)
    exact hend ▸ moveFrom_bijOn (by omega)
  scopes i _ := h.scopes i
  same v hv hold := by
    subst hv
    exact congrArg Except.ok (Value.rename_shift_eq_self (hmade v rfl) hold)

/-- Calling a value once more, in the state that the first call has left, does the same again. -/
theorem apply_repeats {global : ScopeId} {st st₁ : State} (hst : Reached global st) (depth : Nat)
    {callee : Value} {args : List Value} (hcallee : callee.Every (Made st))
    (hargs : ∀ v ∈ args, v.Every (Made st)) {o : Except Signal Value}
    (h : callee.apply (Closure.call depth) args st = (o, st₁)) :
    ∃ ρ o' st₂, callee.apply (Closure.call depth) args st₁ = (o', st₂) ∧
      Repeats ρ st st₁ st₂ o o' := by
  obtain ⟨hobeys, -, hlimit⟩ := hst.wellMade
  have discipline := madeSince_discipline st
  have hsound := discipline.apply (Closure.call_follows discipline depth)
    (hobeys.imp fun _ => Made.since) (Value.every_since hcallee)
    fun v hv => Value.every_since (hargs v hv)
  have hsame := (Untouched.allows 0).apply (Closure.call_untouched depth) callee args st
  have hlimit₁ := (limit_allows 0).apply (call_limit depth) callee args st
  rw [h] at hsound hsame hlimit₁
  have hstart := mirrors_shift hobeys hlimit (hlimit₁.trans hlimit) hsound.grows hsame
  have hfaithful := Renaming.shift_faithful st st₁
  obtain ⟨hout, hend⟩ := Value.apply_reflects (Closure.call_reflects hfaithful depth) callee args
    st st₁ hstart
  have hcallee' : callee.rename (.shift st st₁) = callee :=
    callee.rename_eq_self (Renaming.shift_fixes hcallee)
  have hargs' : args.map (Value.rename (.shift st st₁)) = args := by
    refine (List.map_congr_left fun v hv => ?_).trans (List.map_id args)
    exact v.rename_eq_self (Renaming.shift_fixes (hargs v hv))
  rw [hcallee', hargs', h] at hout hend
  exact ⟨.shift st st₁, _, _, Prod.ext hout rfl, hend.repeats hsound.grows hsound.ok⟩

/-- A function that yields a new function each time it is called. -/
theorem apply_repeats_instance :
    let t : Token := default
    let f : Lambda := .mk t [] (.mk t [.expr t (.function (.mk t [] (.mk t [])))])
    let fresh := (State.ofSink .unlimited .silent).newGlobal.2
    let st := (Program.run 0 0 ⟨[.bind t ⟨t⟩ (some (.function f))]⟩ fresh).2
    let callee : Value := .function ⟨0, f, 0⟩
    let first := callee.apply (Closure.call 1) [] st
    ∃ ρ o' st₂, callee.apply (Closure.call 1) [] first.2 = (o', st₂) ∧
      Repeats ρ st first.2 st₂ first.1 o' := by
  intro t f fresh st callee first
  have hst : Reached 0 st := .run 0 _ (.fresh .silent)
  have hcallee : callee.Every (Made st) := by
    intro g hg
    obtain rfl := Value.function.inj hg
    exact ⟨Nat.zero_lt_one, Nat.zero_lt_one⟩
  exact apply_repeats hst 1 hcallee (List.forall_mem_nil _) rfl

end Monkey
