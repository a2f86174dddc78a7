import Monkey.Proofs.Eval.Tracking

/-!
Evaluation does not depend on the numbers of scopes and functions. Two states mirror each other if
the scopes of one are found, renamed, in the other; an evaluation then goes the same way in both,
and ends in states that mirror each other again, having written the same.
-/

namespace Monkey

structure Renaming.Faithful (ρ : Renaming) : Prop where
  scope_lt_iff : ∀ {i j}, ρ.scope i < ρ.scope j ↔ i < j
  function_injective : Function.Injective ρ.function

/-- The scopes of `st` are found in `st'` under their new names, and so will be the next ones to be
made. What has been written to them since `out` and `out'` is the same. -/
structure Mirrors (ρ : Renaming) (out out' : ByteArray) (st st' : State) : Prop where
  scope_next : ∀ i, ρ.scope (st.heap.size + i) = st'.heap.size + i
  function_next : ∀ i, ρ.function (st.functions + i) = st'.functions + i
  scopes : ∀ i : ScopeId, st'.heap.scopes[ρ.scope i]? = st.heap.scopes[i]?.map (Scope.rename ρ)
  limit : st.sink.limit = none
  limit' : st'.sink.limit = none
  output : ∃ w, st.sink.bytes = out ++ w ∧ st'.sink.bytes = out' ++ w

def Signal.rename (ρ : Renaming) : Signal → Signal
  | .returned v => .returned (v.rename ρ)
  | .failed e => .failed e
  | .tooDeep => .tooDeep

def renameOutcome {α : Type} (ρ : Renaming) (f : α → α) : Except Signal α → Except Signal α
  | .ok a => .ok (f a)
  | .error s => .error (s.rename ρ)

/-- `y` does from a mirroring state what `x` does, up to renaming. -/
def Reflects {α : Type} (ρ : Renaming) (out out' : ByteArray) (f : α → α) (x y : Eval α) : Prop :=
  ∀ st st', Mirrors ρ out out' st st' →
    (y st').1 = renameOutcome ρ f (x st).1 ∧ Mirrors ρ out out' (x st).2 (y st').2

def CallRule.Reflects (ρ : Renaming) (out out' : ByteArray) (call : CallRule) : Prop :=
  ∀ f args, Monkey.Reflects ρ out out' (Value.rename ρ) (call f args)
    (call (f.rename ρ) (args.map (Value.rename ρ)))

section Translation

variable {ρ : Renaming} {out out' : ByteArray} {st st' : State}

def Renaming.translation (ρ : Renaming) : Translation := ⟨ρ, id⟩

theorem Renaming.Faithful.translation (hρ : ρ.Faithful) : ρ.translation.Faithful :=
  ⟨moves_id, hρ.scope_lt_iff, hρ.function_injective⟩

theorem Closure.translate_translation : Closure.translate ρ.translation = Closure.rename ρ := by
  funext f
  exact congrArg (Closure.mk (ρ.function f.id) · (ρ.scope f.scope)) f.literal.retoken_id

theorem Value.translate_translation : Value.translate ρ.translation = Value.rename ρ := by
  funext v
  rw [Value.translate, Closure.translate_translation, Value.rename_eq_map]

theorem Scope.translate_translation : Scope.translate ρ.translation = Scope.rename ρ := by
  funext s
  rw [Scope.translate, Closure.translate_translation, Scope.rename_eq_map]
  rfl

theorem mapOutcome_translation {α : Type} (f : α → α) (o : Except Signal α) :
    mapOutcome (Closure.translate ρ.translation) f o = renameOutcome ρ f o := by
  rcases o with (v | e | _) | a
  · have hv : v.translate ρ.translation = v.rename ρ := by rw [Value.translate_translation]
    exact congrArg (Except.error ∘ Signal.returned) hv
  · rfl
  · rfl
  · rfl

theorem Mirrors.tracks (h : Mirrors ρ out out' st st') :
    Tracks ρ.translation ⟨none, out⟩ ⟨none, out'⟩ st st' where
  room := rfl
  scope_next := h.scope_next
  function_next := h.function_next
  scopes i := by
    rw [Scope.translate_translation]
    exact h.scopes i
  output := by
    obtain ⟨w, hw, hw'⟩ := h.output
    refine ⟨w, ?_, ?_⟩
    · rw [Sink.append, ← hw, ← h.limit]
    · rw [Sink.append, ← hw', ← h.limit']

theorem Tracks.mirrors (h : Tracks ρ.translation ⟨none, out⟩ ⟨none, out'⟩ st st') :
    Mirrors ρ out out' st st' := by
  obtain ⟨w, hw, hw'⟩ := h.output
  refine ⟨h.scope_next, h.function_next, ?_, by rw [hw]; rfl, by rw [hw']; rfl, w, ?_, ?_⟩
  · intro i
    rw [← Scope.translate_translation]
    exact h.scopes i
  · rw [hw]
    rfl
  · rw [hw']
    rfl

theorem reflects_iff {α : Type} {f : α → α} {x y : Eval α} : Reflects ρ out out' f x y ↔
    Parallels ρ.translation ⟨none, out⟩ ⟨none, out'⟩ f x y := by
  constructor
  · intro h st st' hst
    obtain ⟨houtcome, hmirrors⟩ := h st st' hst.mirrors
    exact ⟨houtcome.trans (mapOutcome_translation f _).symm, hmirrors.tracks⟩
  · intro h st st' hst
    obtain ⟨houtcome, htracks⟩ := h st st' hst.tracks
    exact ⟨houtcome.trans (mapOutcome_translation f _), htracks.mirrors⟩

theorem CallRule.reflects_iff {call : CallRule} : call.Reflects ρ out out' ↔
    call.Parallels ρ.translation ⟨none, out⟩ ⟨none, out'⟩ := by
  unfold CallRule.Reflects CallRule.Parallels
  simp only [Monkey.reflects_iff, Closure.translate_translation, Value.translate_translation]

theorem Value.apply_reflects {call : CallRule} (hcall : call.Reflects ρ out out') (callee : Value)
    (args : List Value) : Reflects ρ out out' (Value.rename ρ) (callee.apply call args)
      ((callee.rename ρ).apply call (args.map (Value.rename ρ))) := by
  rw [← Value.translate_translation, reflects_iff]
  exact Value.apply_parallels moves_id (CallRule.reflects_iff.mp hcall) callee args

theorem Closure.call_reflects (hρ : ρ.Faithful) (depth : Nat) :
    CallRule.Reflects ρ out out' (Closure.call depth) :=
  CallRule.reflects_iff.mpr (Closure.call_parallels hρ.translation depth)

end Translation

end Monkey
