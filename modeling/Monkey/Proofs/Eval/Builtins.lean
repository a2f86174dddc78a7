import Monkey.Eval
import Monkey.Proofs.Value

/-!
What builtins can do: write lines, fail, or yield a value made of what they were given.
-/

namespace Monkey

/-- The value is put together from parts of the values `vs` and plain values: whatever holds of all
of these, all the way down, holds of it. -/
def Value.MadeOf (vs : List Value) (v : Value) : Prop :=
  ∀ P : Value → Prop, (∀ w : Value, w.Plain → P w) → (∀ w ∈ vs, w.Every P) → v.Every P

def RuntimeError.OfArguments : RuntimeError → Prop
  | .wrongArgumentCount .. | .unsupportedArgument .. | .argumentKind .. => True
  | _ => False

namespace Builtin

theorem getD_madeOf {elements : List Value} {o : Option Value} (ho : ∀ v ∈ o, v ∈ elements) :
    (o.getD .null).MadeOf [.array elements] := by
  intro P plain hargs
  have hparts := Value.everyAll_iff.mp (List.forall_mem_singleton.mp hargs).2
  cases o with
  | none => exact plain _ trivial
  | some v => exact hparts v (ho v rfl)

theorem onArray_cases (b : Builtin) (args : List Value) {f : List Value → Value}
    (hf : ∀ elements, (f elements).MadeOf [.array elements]) :
    (∃ e, b.onArray args f = Eval.fail e ∧ e.OfArguments) ∨
      ∃ v, b.onArray args f = pure v ∧ v.MadeOf args := by
  unfold onArray
  split
  · exact .inr ⟨_, rfl, hf _⟩
  · exact .inl ⟨_, rfl, trivial⟩
  · exact .inl ⟨_, rfl, trivial⟩

theorem apply_cases (b : Builtin) (args : List Value) :
    b.apply args = putLines args ∨ (∃ e, b.apply args = Eval.fail e ∧ e.OfArguments) ∨
      ∃ v, b.apply args = pure v ∧ v.MadeOf args := by
  cases b with
  | puts => exact .inl rfl
  | first =>
    refine .inr (onArray_cases .first args fun elements => getD_madeOf ?_)
    exact fun v hv => List.mem_of_head? hv
  | last =>
    refine .inr (onArray_cases .last args fun elements => getD_madeOf ?_)
    exact fun v hv => List.mem_of_getLast? hv
  | rest =>
    refine .inr (onArray_cases .rest args fun elements P plain hargs => ?_)
    have hparts := Value.everyAll_iff.mp (List.forall_mem_singleton.mp hargs).2
    cases elements with
    | nil => exact plain _ trivial
    | cons v vs => exact Value.every_array plain (List.forall_mem_cons.mp hparts).2
  | len =>
    right
    unfold apply
    dsimp only
    split
    · exact .inr ⟨_, rfl, fun _ plain _ => plain _ trivial⟩
    · exact .inr ⟨_, rfl, fun _ plain _ => plain _ trivial⟩
    · exact .inl ⟨_, rfl, trivial⟩
    · exact .inl ⟨_, rfl, trivial⟩
  | push =>
    right
    unfold apply
    dsimp only
    split
    · rename_i elements v
      refine .inr ⟨_, rfl, fun P plain hargs => Value.every_array plain fun w hw => ?_⟩
      obtain ⟨harray, hv⟩ : (Value.array elements).Every P ∧ v.Every P := by simpa using hargs
      rcases List.mem_append.mp hw with hw | hw
      · exact Value.everyAll_iff.mp harray.2 w hw
      · obtain rfl := List.mem_singleton.mp hw
        exact hv
    · exact .inl ⟨_, rfl, trivial⟩
    · exact .inl ⟨_, rfl, trivial⟩

end Builtin

end Monkey
