import Monkey.Proofs.Eval.Effects
import Monkey.Proofs.Scope

/-!
The frame of evaluation. Evaluation writes to existing scopes only through its own `let` statements,
and those write to the scope it runs in; a call writes to no existing scope at all, since its body
runs in a scope of its own.
-/

namespace Monkey

structure Untouched (st st' : State) : Prop where
  size_le : st.heap.size ≤ st'.heap.size
  scope_eq : ∀ id < st.heap.size, st'.heap.scopes[id]? = st.heap.scopes[id]?

/-- Bindings of the names `Bound` alone may have been added or replaced, and none was removed. -/
structure Scope.Extends (Bound : String → Prop) (s s' : Scope) : Prop where
  outer_eq : s'.outer = s.outer
  find?_ne_none : ∀ name, s.find? name ≠ none → s'.find? name ≠ none
  find?_eq : ∀ name, ¬Bound name → s'.find? name = s.find? name

/-- Of the scopes of `st`, only `scope` may have changed, and that only in the names `Bound`. -/
structure Framed (scope : ScopeId) (Bound : String → Prop) (st st' : State) : Prop where
  size_le : st.heap.size ≤ st'.heap.size
  other_eq : ∀ id < st.heap.size, id ≠ scope → st'.heap.scopes[id]? = st.heap.scopes[id]?
  own : ∀ s, st.heap.scopes[scope]? = some s →
    ∃ s', st'.heap.scopes[scope]? = some s' ∧ s.Extends Bound s'

namespace Untouched

theorem refl (st : State) : Untouched st st := ⟨Nat.le_refl _, fun _ _ => rfl⟩

theorem trans {st mid st' : State} (h : Untouched st mid) (h' : Untouched mid st') :
    Untouched st st' where
  size_le := Nat.le_trans h.size_le h'.size_le
  scope_eq id hid := by
    rw [h'.scope_eq id (Nat.lt_of_lt_of_le hid h.size_le), h.scope_eq id hid]

theorem of_heap_eq {st st' : State} (h : st'.heap = st.heap) : Untouched st st' where
  size_le := Nat.le_of_eq (by rw [h])
  scope_eq _ _ := by rw [h]

end Untouched

namespace Scope.Extends

variable {Bound : String → Prop}

theorem refl (s : Scope) : s.Extends Bound s := ⟨rfl, fun _ h => h, fun _ _ => rfl⟩

theorem trans {s mid s' : Scope} (h : s.Extends Bound mid) (h' : mid.Extends Bound s') :
    s.Extends Bound s' where
  outer_eq := h'.outer_eq.trans h.outer_eq
  find?_ne_none name hn := h'.find?_ne_none name (h.find?_ne_none name hn)
  find?_eq name hn := (h'.find?_eq name hn).trans (h.find?_eq name hn)

theorem set (s : Scope) {name : String} (value : Value) (hname : Bound name) :
    s.Extends Bound (s.set name value) where
  outer_eq := rfl
  find?_ne_none n hn := by
    rw [Scope.find?_set]
    split
    · simp
    · exact hn
  find?_eq n hn := by
    have hne : n ≠ name := by
      rintro rfl
      exact hn hname
    rw [Scope.find?_set, if_neg hne]

end Scope.Extends

namespace Framed

variable {scope : ScopeId} {Bound : String → Prop}

theorem of_untouched {st st' : State} (h : Untouched st st') : Framed scope Bound st st' where
  size_le := h.size_le
  other_eq id hid _ := h.scope_eq id hid
  own s hs := by
    have hlt : scope < st.heap.size := (Array.getElem?_eq_some_iff.mp hs).1
    exact ⟨s, (h.scope_eq scope hlt).trans hs, .refl s⟩

theorem trans {st mid st' : State} (h : Framed scope Bound st mid)
    (h' : Framed scope Bound mid st') : Framed scope Bound st st' where
  size_le := Nat.le_trans h.size_le h'.size_le
  other_eq id hid hne := by
    rw [h'.other_eq id (Nat.lt_of_lt_of_le hid h.size_le) hne, h.other_eq id hid hne]
  own s hs := by
    obtain ⟨t, ht, hst⟩ := h.own s hs
    obtain ⟨u, hu, htu⟩ := h'.own t ht
    exact ⟨u, hu, hst.trans htu⟩

theorem set (st : State) (name : String) (value : Value) (hname : Bound name) :
    Framed scope Bound st { st with heap := st.heap.set scope name value } where
  size_le := by simp
  other_eq id _ hne := by rw [Heap.getElem?_set, if_neg hne.symm]
  own s hs := by
    refine ⟨s.set name value, ?_, .set s value hname⟩
    rw [Heap.getElem?_set, if_pos rfl, hs]
    rfl

theorem allows (scope : ScopeId) (Bound : String → Prop) :
    Allows (Framed scope Bound) scope Bound where
  refl st := .of_untouched (.refl st)
  trans := trans
  record _ _ := .of_untouched (.of_heap_eq rfl)
  write _ _ := .of_untouched (.of_heap_eq rfl)
  number _ := .of_untouched (.of_heap_eq rfl)
  define := set

end Framed

/-- A frame around a scope that `st` does not have yet leaves `st` as it was. -/
theorem Untouched.of_fresh {st mid st' : State} {Bound : String → Prop}
    (h : Untouched st mid) (hlt : st.heap.size < mid.heap.size)
    (h' : Framed st.heap.size Bound mid st') : Untouched st st' where
  size_le := Nat.le_trans h.size_le h'.size_le
  scope_eq id hid := by
    rw [h'.other_eq id (Nat.lt_trans hid hlt) (Nat.ne_of_lt hid), h.scope_eq id hid]

theorem Closure.entered_untouched (f : Closure) (args : List Value) (st : State) :
    Untouched st (f.entered args st) where
  size_le := by simp [Closure.entered]
  scope_eq id hid := by
    have hne : id ≠ st.heap.size := Nat.ne_of_lt hid
    simp only [Closure.entered]
    rw [Heap.getElem?_setAll_of_ne hne, Heap.getElem?_push, if_neg hne]

theorem Closure.call_untouched (depth : Nat) (f : Closure) (args : List Value) :
    Action.Keeps Untouched (Closure.call depth f args) := by
  induction depth generalizing f args with
  | zero => exact Untouched.refl
  | succ depth ih =>
    intro st
    rw [Closure.call_succ]
    split
    · exact Untouched.refl st
    · have hbody := Block.eval_keeps (Framed.allows st.heap.size fun _ => True)
        (fun f args st => .of_untouched (ih f args st)) f.literal.body fun _ _ => trivial
      rw [Eval.catchReturn_snd]
      exact (f.entered_untouched args st).of_fresh (by simp [Closure.entered]) (hbody _)

theorem Untouched.allows (scope : ScopeId) : Allows Untouched scope fun _ => False where
  refl := .refl
  trans := .trans
  record _ _ := .of_heap_eq rfl
  write _ _ := .of_heap_eq rfl
  number _ := .of_heap_eq rfl
  define _ _ _ h := h.elim

/-- Whatever the outcome: evaluating a node changes no existing scope but the one it runs in, and
there only names of `let` statements outside function literals; applying a value changes none. -/
theorem evaluation_framed (depth : Nat) :
    (∀ (n : Node) (scope : ScopeId) (st : State),
      Framed scope (· ∈ n.letNames) st (n.run depth scope st).2) ∧
    (∀ (callee : Value) (args : List Value) (st : State),
      Untouched st (callee.apply (Closure.call depth) args st).2) := by
  constructor
  · intro n scope st
    exact n.run_keeps (Framed.allows scope _)
      (fun f args st => .of_untouched (Closure.call_untouched depth f args st)) (fun _ h => h) st
  · intro callee args st
    exact (Untouched.allows st.heap.size).apply (Closure.call_untouched depth) callee args st

end Monkey
