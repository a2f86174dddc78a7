import Monkey.Proofs.Stream
import Monkey.State

/-!
How actions in sequence end, and actions that have nothing to do with the state.
-/

namespace Monkey.Action

variable {ε α β : Type}

theorem bind_of_ok {x : Action ε α} {st mid : State} {a : α} (h : x st = (.ok a, mid))
    (f : α → Action ε β) : (x >>= f) st = f a mid := by
  change Action.bind x f st = _
  simp only [Action.bind, h]

theorem bind_of_error {x : Action ε α} {st mid : State} {s : ε} (h : x st = (.error s, mid))
    (f : α → Action ε β) : (x >>= f) st = (.error s, mid) := by
  change Action.bind x f st = _
  simp only [Action.bind, h]

instance : LawfulMonad (Action ε) :=
  LawfulMonad.mk' (Action ε)
    (fun x => by
      funext st
      change Action.bind x Action.pure st = x st
      rcases h : x st with ⟨s | a, mid⟩
      · simp only [Action.bind, h]
      · simp only [Action.bind, h, Action.pure])
    (fun _ _ => rfl)
    (fun x f g => by
      funext st
      rcases h : x st with ⟨s | a, mid⟩
      · rw [bind_of_error (bind_of_error h f), bind_of_error h]
      · rw [bind_of_ok h]
        rcases h' : f a mid with ⟨s | b, mid'⟩
        · rw [bind_of_error ((bind_of_ok h f).trans h'), bind_of_error h']
        · rw [bind_of_ok ((bind_of_ok h f).trans h'), bind_of_ok h'])

theorem bind_eq_ok {x : Action ε α} {f : α → Action ε β} {st st' : State} {b : β} :
    (x >>= f) st = (.ok b, st') ↔ ∃ a mid, x st = (.ok a, mid) ∧ f a mid = (.ok b, st') := by
  rcases h : x st with ⟨s | a, mid⟩
  · rw [bind_of_error h]
    simp
  · rw [bind_of_ok h]
    constructor
    · intro hf
      exact ⟨a, mid, rfl, hf⟩
    · rintro ⟨a', mid', ha, hf⟩
      obtain ⟨rfl, rfl⟩ : a = a' ∧ mid = mid' := by simpa using ha
      exact hf

/-- In every state the action ends with `r`, and the state stays as it is. -/
def Gives (x : Action ε α) (r : Except ε α) : Prop := ∀ st, x st = (r, st)

namespace Gives

variable {x : Action ε α} {f : α → Action ε β} {a : α} {s : ε}

theorem unique {r r' : Except ε α} (h : x.Gives r) (h' : x.Gives r') : r = r' := by
  have hst := (h (.ofSink .unlimited .silent)).symm.trans (h' (.ofSink .unlimited .silent))
  exact congrArg Prod.fst hst

theorem pure (a : α) : (Pure.pure a : Action ε α).Gives (.ok a) := fun _ => rfl

theorem bind {r : Except ε β} (hx : x.Gives (.ok a)) (hf : (f a).Gives r) : (x >>= f).Gives r := by
  intro st
  rw [bind_of_ok (hx st), hf st]

theorem bind_error (hx : x.Gives (.error s)) (f : α → Action ε β) : (x >>= f).Gives (.error s) := by
  intro st
  exact bind_of_error (hx st) f

end Gives

theorem write_of_unlimited {full : ε} {st : State} (h : st.sink.limit = none) (text : String) :
    write full text st = (.ok (), { st with sink := st.sink.append text.toUTF8 }) := by
  have hroom : st.sink.room = none := by simp [Sink.room, h]
  simp only [write, Sink.write_of_room_none hroom]

end Monkey.Action
