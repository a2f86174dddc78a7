import Monkey.Proofs.Value.Map

/-!
Renaming the scopes and the functions that values refer to.
-/

namespace Monkey

structure Renaming where
  scope : ScopeId → ScopeId
  function : Nat → Nat

def Closure.rename (ρ : Renaming) (f : Closure) : Closure :=
  ⟨ρ.function f.id, f.literal, ρ.scope f.scope⟩

mutual

def Value.rename (ρ : Renaming) : Value → Value
  | .array vs => .array (Value.renameAll ρ vs)
  | .hash es => .hash (Entry.renameAll ρ es)
  | .function f => .function (f.rename ρ)
  | .returned v => .returned (v.rename ρ)
  | .integer n => .integer n
  | .boolean b => .boolean b
  | .string s => .string s
  | .null => .null
  | .builtin b => .builtin b
  | .error e => .error e
termination_by structural v => v

def Value.renameAll (ρ : Renaming) : List Value → List Value
  | [] => []
  | v :: vs => v.rename ρ :: Value.renameAll ρ vs
termination_by structural vs => vs

def Entry.renameAll (ρ : Renaming) : List Entry → List Entry
  | [] => []
  | .mk slot k v :: es => .mk slot (k.rename ρ) (v.rename ρ) :: Entry.renameAll ρ es
termination_by structural es => es

end

def Scope.rename (ρ : Renaming) (s : Scope) : Scope :=
  ⟨s.bindings.map fun b => (b.1, b.2.rename ρ), s.outer.map ρ.scope⟩

variable {ρ : Renaming}

mutual

theorem Value.rename_eq_map (v : Value) : v.rename ρ = v.map (Closure.rename ρ) := by
  match v with
  | .array vs => rw [Value.rename, Value.map, Value.renameAll_eq_mapAll vs]
  | .hash es => rw [Value.rename, Value.map, Entry.renameAll_eq_mapAll es]
  | .returned w => rw [Value.rename, Value.map, Value.rename_eq_map w]
  | .integer _ | .boolean _ | .string _ | .null | .function _ | .builtin _ | .error _ => rfl
termination_by structural v

theorem Value.renameAll_eq_mapAll (vs : List Value) :
    Value.renameAll ρ vs = Value.mapAll (Closure.rename ρ) vs := by
  match vs with
  | [] => rfl
  | v :: vs =>
    rw [Value.renameAll, Value.mapAll, Value.rename_eq_map v, Value.renameAll_eq_mapAll vs]
termination_by structural vs

theorem Entry.renameAll_eq_mapAll (es : List Entry) :
    Entry.renameAll ρ es = Entry.mapAll (Closure.rename ρ) es := by
  match es with
  | [] => rfl
  | .mk _ k v :: es =>
    rw [Entry.renameAll, Entry.mapAll, Value.rename_eq_map k, Value.rename_eq_map v,
      Entry.renameAll_eq_mapAll es]
termination_by structural es

end

theorem Scope.rename_eq_map (s : Scope) : s.rename ρ = s.map (Closure.rename ρ) ρ.scope := by
  unfold Scope.rename Scope.map
  simp only [Value.rename_eq_map]

def Renaming.Fixes (ρ : Renaming) (v : Value) : Prop :=
  ∀ f, v = .function f → ρ.function f.id = f.id ∧ ρ.scope f.scope = f.scope

mutual

theorem Value.rename_eq_self (v : Value) (h : v.Every ρ.Fixes) : v.rename ρ = v := by
  match v with
  | .array vs => rw [Value.rename, Value.renameAll_eq_self vs h.2]
  | .hash es => rw [Value.rename, Entry.renameAll_eq_self es h.2]
  | .returned w => rw [Value.rename, Value.rename_eq_self w h.2]
  | .function f =>
    obtain ⟨hid, hscope⟩ := h f rfl
    rw [Value.rename, Closure.rename, hid, hscope]
  | .integer _ | .boolean _ | .string _ | .null | .builtin _ | .error _ => rfl
termination_by structural v

theorem Value.renameAll_eq_self (vs : List Value) (h : Value.EveryAll ρ.Fixes vs) :
    Value.renameAll ρ vs = vs := by
  match vs with
  | [] => rfl
  | v :: vs => rw [Value.renameAll, Value.rename_eq_self v h.1, Value.renameAll_eq_self vs h.2]
termination_by structural vs

theorem Entry.renameAll_eq_self (es : List Entry) (h : Entry.EveryAll ρ.Fixes es) :
    Entry.renameAll ρ es = es := by
  match es with
  | [] => rfl
  | .mk slot k v :: es =>
    rw [Entry.renameAll, Value.rename_eq_self k h.1, Value.rename_eq_self v h.2.1,
      Entry.renameAll_eq_self es h.2.2]
termination_by structural es

end

namespace Scope

theorem rename_eq_self (s : Scope) (hb : ∀ b ∈ s.bindings, b.2.Every ρ.Fixes)
    (ho : ∀ o, s.outer = some o → ρ.scope o = o) : s.rename ρ = s := by
  obtain ⟨bindings, outer⟩ := s
  have hbindings : bindings.map (fun b => (b.1, b.2.rename ρ)) = bindings := by
    refine (List.map_congr_left fun b hmem => ?_).trans (List.map_id bindings)
    rw [Value.rename_eq_self b.2 (hb b hmem)]
    rfl
  have houter : outer.map ρ.scope = outer := by
    cases outer with
    | none => rfl
    | some o => exact congrArg some (ho o rfl)
  unfold Scope.rename
  rw [hbindings, houter]

end Scope

end Monkey
